import Introspect.Proofs.FileTree.Walking
import Mathlib.Data.List.Basic

/-!
# Walks along links

Where links are followed or something cannot be read, a walk delivers entries and faults. Little is
known of it then: it goes from directories to the names inside, and what is left out is neither
delivered nor gone through. A fault may carry the path of any entry to which the walk came, left out
or not, because it comes up before there is an entry; or it carries no path at all.

* `Walker.Descends` says this of a walker, for trees of any kind;
* `Walker.Descends.exists_names` and `Walker.Descends.exists_names_of_fault` are what follows for
  the paths: no name on the way to an entry is left out, and no name on the way to a fault but for
  the last one;
* `Listing.walker_descends`: this holds of the walker that runs. `WalkItem.Inside` is what a walk
  through one listing preserves, with what is behind links taken for granted, and the rest is an
  induction on how deeply links are nested;
* `Listing.broken_mem_walker`: a link that leads nowhere is delivered as a fault, left out or not.
-/

namespace Introspect

/-- Names behind a path that a walk may go: none of them is excluded. -/
def WalkScope.Keeps (w : WalkScope) (names : Location) : Prop :=
  ∀ name ∈ names, Path.IsName name ∧ w.excluded name = false

theorem WalkScope.keeps_concat_iff {w : WalkScope} {names : Location} {name : String} :
    w.Keeps (names ++ [name]) ↔ w.Keeps names ∧ Path.IsName name ∧ w.excluded name = false := by
  unfold WalkScope.Keeps
  rw [List.forall_mem_append, List.forall_mem_singleton]

/-! ### Walkers that descend -/

/-- **Walkers that descend.** What is known of a walker in any tree, whatever it is asked. -/
structure Walker.Descends (walker : Walker) (tree : FileTree) : Prop where
  /-- What is left out is not delivered. -/
  keeps : ∀ {root : String} {o : WalkOptions} {e : WalkEntry},
    .ok e ∈ walker tree root o → o.keeps e = true
  /-- Entries are the root and what is inside of delivered entries. -/
  entry : ∀ {root : String} {o : WalkOptions} {e : WalkEntry}, .ok e ∈ walker tree root o →
    (e.path = root ∧ e.depth = 0) ∨
      ∃ d name, .ok d ∈ walker tree root o ∧ Path.IsName name ∧
        e.path = Path.child d.path name ∧ e.depth = d.depth + 1
  /-- Faults are of the root, of delivered entries or of what is inside, or carry no path. -/
  fault : ∀ {root : String} {o : WalkOptions} {f : WalkFault} {path : String},
    .error f ∈ walker tree root o → f.path? = some path →
      path = root ∨ ∃ d, .ok d ∈ walker tree root o ∧
        (path = d.path ∨ ∃ name, Path.IsName name ∧ path = Path.child d.path name)

namespace Walker

variable {walker : Walker} {tree : FileTree} {w : WalkScope} {root path : String} {e : WalkEntry}
  {f : WalkFault}

/-- **Entries** have no excluded name on the way from the root. -/
theorem Descends.exists_names (h : walker.Descends tree)
    (he : .ok e ∈ walker tree root w.options) :
    ∃ names, w.Keeps names ∧ e.path = Path.below root names := by
  -- the way from the root is as long as the entry is deep
  induction hdepth : e.depth generalizing e with
  | zero =>
    rcases h.entry he with ⟨hpath, -⟩ | ⟨d, name, -, -, -, hd⟩
    · exact ⟨[], fun _ h => absurd h List.not_mem_nil, hpath⟩
    · omega
  | succ k ih =>
    rcases h.entry he with ⟨-, hzero⟩ | ⟨d, name, hd, hname, hpath, hbelow⟩
    · omega
    · obtain ⟨names, hnames, hdir⟩ := ih hd (by omega)
      have hkept : w.excluded name = false := by
        have hkeeps := h.keeps he
        obtain ⟨p, n, isFile⟩ := e
        dsimp only at hpath hdepth
        subst hpath hdepth
        rw [w.keeps_options hname] at hkeeps
        simpa using hkeeps
      refine ⟨names ++ [name], WalkScope.keeps_concat_iff.mpr ⟨hnames, hname, hkept⟩, ?_⟩
      rw [hpath, hdir, Path.below_concat]

/-- **Faults** have no excluded name on the way from the root, but for the last one. -/
theorem Descends.exists_names_of_fault (h : walker.Descends tree)
    (hf : .error f ∈ walker tree root w.options) (hpath : f.path? = some path) :
    path = root ∨ ∃ before name, w.Keeps before ∧ Path.IsName name ∧
      path = Path.below root (before ++ [name]) := by
  rcases h.fault hf hpath with rfl | ⟨d, hd, hat⟩
  · exact Or.inl rfl
  · obtain ⟨names, hnames, hdir⟩ := h.exists_names hd
    rcases hat with rfl | ⟨name, hname, rfl⟩
    · -- the fault of a directory that was delivered
      rcases List.eq_nil_or_concat' names with rfl | ⟨before, name, rfl⟩
      · exact Or.inl hdir
      · obtain ⟨hbefore, hname, -⟩ := WalkScope.keeps_concat_iff.mp hnames
        exact Or.inr ⟨before, name, hbefore, hname, hdir⟩
    · refine Or.inr ⟨names, name, hnames, hname, ?_⟩
      rw [hdir, Path.below_concat]

end Walker

/-! ### The walker that runs descends -/

/-- The item is an entry that is not left out, or a fault, inside of one of these directories. -/
def WalkItem.Inside (o : WalkOptions) (dirs : WalkEntry → Prop) : WalkItem → Prop
  | .ok e => o.keeps e = true ∧ ∃ d name, dirs d ∧ Path.IsName name ∧
      e.path = Path.child d.path name ∧ e.depth = d.depth + 1
  | .error f => ∃ d name, dirs d ∧ Path.IsName name ∧ f.path? = some (Path.child d.path name)

/-- **Walks below a directory:** everything is inside of it or of a directory that was delivered. -/
def WalkEntry.Below (o : WalkOptions) (d : WalkEntry) (items : List WalkItem) : Prop :=
  ∀ item ∈ items, WalkItem.Inside o (fun d' => d' = d ∨ .ok d' ∈ items) item

section Below

variable {o : WalkOptions} {d e : WalkEntry} {items items' : List WalkItem} {name : String}
  {f : WalkFault}

theorem WalkItem.Inside.mono {dirs dirs' : WalkEntry → Prop} {item : WalkItem}
    (h : item.Inside o dirs) (hdirs : ∀ d, dirs d → dirs' d) : item.Inside o dirs' := by
  cases item with
  | ok e =>
    obtain ⟨hkeeps, d, name, hd, hrest⟩ := h
    exact ⟨hkeeps, d, name, hdirs d hd, hrest⟩
  | error f =>
    obtain ⟨d, name, hd, hrest⟩ := h
    exact ⟨d, name, hdirs d hd, hrest⟩

theorem WalkEntry.below_nil : d.Below o [] := fun _ h => absurd h List.not_mem_nil

theorem WalkEntry.Below.append (h : d.Below o items) (h' : d.Below o items') :
    d.Below o (items ++ items') :=
  List.forall_mem_append.mpr
    ⟨fun item hitem => (h item hitem).mono fun _ => Or.imp_right (List.mem_append_left _),
      fun item hitem => (h' item hitem).mono fun _ => Or.imp_right (List.mem_append_right _)⟩

/-- What is below an entry of the directory is below the directory if the entry is delivered. -/
theorem WalkEntry.Below.visit (hname : Path.IsName name) (hpath : e.path = Path.child d.path name)
    (hdepth : e.depth = d.depth + 1) (h : e.Below o items) : d.Below o (o.visit e items) := by
  unfold WalkOptions.visit
  split
  · next hkeeps =>
    refine List.forall_mem_cons.mpr ⟨⟨hkeeps, d, name, Or.inl rfl, hname, hpath, hdepth⟩, ?_⟩
    split
    · -- inside of the entry, which is delivered, or of what is delivered behind it
      refine fun item hitem => (h item hitem).mono fun d' hd' => Or.inr ?_
      rcases hd' with rfl | hd'
      · exact List.mem_cons_self
      · exact List.mem_cons_of_mem _ hd'
    · exact fun _ h => absurd h List.not_mem_nil
  · exact WalkEntry.below_nil

theorem WalkEntry.below_fault (hname : Path.IsName name)
    (hpath : f.path? = some (Path.child d.path name)) : d.Below o [.error f] :=
  List.forall_mem_singleton.mpr ⟨d, name, Or.inl rfl, hname, hpath⟩

end Below

/-- The innermost directory of the trail was delivered as this entry. -/
structure OpenDir.At (trail : List OpenDir) (d : WalkEntry) : Prop where
  path_eq : trail.head?.elim "" (·.path) = d.path
  length_eq : trail.length = d.depth + 1

section Trail

variable {trail : List OpenDir} {d : WalkEntry}

theorem OpenDir.At.childPath_eq (h : OpenDir.At trail d) (name : String) :
    OpenDir.childPath trail name = Path.child d.path name := by
  rw [OpenDir.childPath, h.path_eq]

/-- Inside a further directory, of the innermost one or behind a link. -/
theorem OpenDir.at_cons (trail : List OpenDir) (path : String) (l : Location) :
    OpenDir.At (⟨path, l⟩ :: trail) ⟨path, trail.length, false⟩ where
  path_eq := rfl
  length_eq := rfl

end Trail

namespace Listing

open OpenDir (At)

variable {tree inside listing : Listing} {o : WalkOptions} {root name : String} {l : Location}
  {trail : List OpenDir} {d : WalkEntry}

/-- **Through a listing.** If what is behind links is below the directory, everything is. -/
theorem below_walk {links : List OpenDir → String → List WalkItem}
    (hlinks : ∀ {trail : List OpenDir} {d : WalkEntry} {name : String},
      At trail d → Path.IsName name → d.Below o (links trail name))
    (htidy : listing.Tidy) (hat : At trail d) : d.Below o (listing.walk o links trail) := by
  -- a directory of the listing is walked with a longer trail, so the trail is any
  induction listing generalizing trail d with
  | empty => exact WalkEntry.below_nil
  | leaf name x rest ih =>
    obtain ⟨hname, -, hrest⟩ := htidy
    cases x with
    | link target => exact (hlinks hat hname).append (ih hrest hat)
    | file bytes =>
      refine WalkEntry.Below.append ?_ (ih hrest hat)
      exact WalkEntry.below_nil.visit hname (hat.childPath_eq name) hat.length_eq
  | dir name inner rest ihinner ih =>
    obtain ⟨hname, -, hinner, hrest⟩ := htidy
    refine WalkEntry.Below.append ?_ (ih hrest hat)
    exact (ihinner hinner (OpenDir.at_cons trail _ _)).visit hname (hat.childPath_eq name)
      hat.length_eq

/-- **Behind a link,** however deeply links are nested. -/
theorem below_behindLink (htree : tree.Tidy) {nesting : Nat} (hat : At trail d)
    (hname : Path.IsName name) : d.Below o (tree.behindLink o nesting trail name) := by
  -- a directory behind a link is walked with fewer links left, and may hold links itself
  induction nesting using Nat.strongRecOn generalizing trail d name with
  | ind nesting ih =>
    have hpath := hat.childPath_eq name
    unfold behindLink
    dsimp only
    split
    · exact WalkEntry.below_fault hname (congrArg some hpath)
    · next l hl =>
      split
      · next inside hinside =>
        split
        · exact WalkEntry.below_fault hname (congrArg some hpath)
        · split
          · exact WalkEntry.below_nil
          · next less =>
            have htidy : inside.Tidy := (htree.at? hinside).2 inside rfl
            have hinner := below_walk (fun hat hname => ih less (Nat.lt_succ_self less) hat hname)
              htidy (OpenDir.at_cons trail (OpenDir.childPath trail name) l)
            exact hinner.visit hname hpath hat.length_eq
      · exact WalkEntry.below_nil.visit hname hpath hat.length_eq

/-- What the walker that runs delivers: the root, a fault of it, or what is inside. -/
theorem cases_of_mem_walker (htree : tree.Tidy) {item : WalkItem}
    (h : item ∈ walker tree root o) :
    (∃ isFile, item = .ok ⟨root, 0, isFile⟩ ∧ o.keeps ⟨root, 0, isFile⟩ = true) ∨
      (∃ f, item = .error f ∧ f.path? = some root) ∨
      item.Inside o fun d => .ok d ∈ walker tree root o := by
  cases hl : tree.locate root with
  | error f =>
    rw [walker, hl] at h
    exact Or.inr (Or.inl ⟨_, List.mem_singleton.mp h, rfl⟩)
  | ok l =>
    rcases holdsDir_or_holdsFile_of_locate hl with ⟨inside, hinside⟩ | ⟨bytes, hfile⟩
    · have htidy : inside.Tidy := (htree.at? hinside).2 inside rfl
      have hbelow : WalkEntry.Below o ⟨root, 0, false⟩
          (inside.walk o (tree.behindLink o (tree.dirCount + 1)) [⟨root, l⟩]) :=
        below_walk (fun hat hname => below_behindLink htree hat hname) htidy
          (OpenDir.at_cons [] root l)
      rw [walker_eq hl hinside] at h ⊢
      obtain ⟨hkeeps, rfl | ⟨hitem, heq⟩⟩ := WalkOptions.mem_visit h
      · exact Or.inl ⟨false, rfl, hkeeps⟩
      · -- the root is delivered before what is inside
        rw [heq]
        refine Or.inr (Or.inr ((hbelow item hitem).mono fun d hd => ?_))
        rcases hd with rfl | hd
        · exact List.mem_cons_self
        · exact List.mem_cons_of_mem _ hd
    · rw [walker, hl] at h
      dsimp only at h
      rw [hfile] at h
      obtain ⟨hkeeps, rfl | ⟨hitem, -⟩⟩ := WalkOptions.mem_visit h
      · exact Or.inl ⟨true, rfl, hkeeps⟩
      · cases hitem

/-- **The walker that runs** descends in every tidy tree. -/
theorem walker_descends (htree : tree.Tidy) : walker.Descends tree where
  keeps := by
    intro root o e he
    rcases cases_of_mem_walker htree he with ⟨isFile, heq, hkeeps⟩ | ⟨f, heq, -⟩ | ⟨hkeeps, -⟩
    · rwa [Except.ok.inj heq]
    · cases heq
    · exact hkeeps
  entry := by
    intro root o e he
    rcases cases_of_mem_walker htree he with ⟨isFile, heq, -⟩ | ⟨f, heq, -⟩ | ⟨-, hinside⟩
    · rw [Except.ok.inj heq]
      exact Or.inl ⟨rfl, rfl⟩
    · cases heq
    · exact Or.inr hinside
  fault := by
    intro root o f path hf hpath
    rcases cases_of_mem_walker htree hf with ⟨_, heq, -⟩ | ⟨g, heq, hg⟩ | ⟨d, name, hd, hname, hg⟩
    · cases heq
    · rw [Except.error.inj heq, hg] at hpath
      exact Or.inl (Option.some.inj hpath).symm
    · rw [hg] at hpath
      exact Or.inr ⟨d, hd, Or.inr ⟨name, hname, (Option.some.inj hpath).symm⟩⟩

/-! ### Links that lead nowhere -/

/-- What is behind a link is delivered, whatever its name. -/
theorem mem_walk_of_link {links : List OpenDir → String → List WalkItem} {target : String}
    {item : WalkItem} (hmem : (name, .leaf (.link target)) ∈ listing.toList)
    (hitem : item ∈ links trail name) : item ∈ listing.walk o links trail := by
  induction listing with
  | empty => cases hmem
  | leaf n x rest ih =>
    rcases List.mem_cons.mp hmem with heq | hrest
    · cases heq
      rw [walk]
      exact List.mem_append_left _ hitem
    · cases x <;> exact List.mem_append_right _ (ih hrest)
  | dir n inner rest _ ih =>
    rcases List.mem_cons.mp hmem with heq | hmem
    · cases heq
    · exact List.mem_append_right _ (ih hmem)

/-- **A link that leads nowhere** is a fault of every walk that goes through the directory which
holds it, whatever its name. -/
theorem broken_mem_walker {w : WalkScope} {target : String} {fault : PathFault}
    (hl : tree.locate root = .ok l) (hinside : tree.at? l = some (.dir inside))
    (hmem : (name, .leaf (.link target)) ∈ inside.toList)
    (hfault : tree.locate (Path.child root name) = .error fault) :
    .error (.broken (Path.child root name) fault) ∈ walker tree root w.options := by
  have hpath : OpenDir.childPath [⟨root, l⟩] name = Path.child root name := rfl
  have hbehind : .error (.broken (Path.child root name) fault)
      ∈ tree.behindLink w.options (tree.dirCount + 1) [⟨root, l⟩] name := by
    -- whether the name is excluded is not asked before the link is followed
    unfold behindLink
    dsimp only
    rw [hpath, hfault]
    exact List.mem_singleton_self _
  rw [walker_eq hl hinside, w.visit_options_root]
  exact List.mem_cons_of_mem _ (mem_walk_of_link hmem hbehind)

end Listing

end Introspect
