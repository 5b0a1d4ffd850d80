import Introspect.FileTree.Walk
import Introspect.Proofs.FileTree.Locating
import Mathlib.Tactic.SplitIfs

/-!
# Walks in order

A walk in order comes to every directory before it comes to what is inside, and goes through
directories in the order in which their entries stand. In a `Listing.Tidy` tree, where the entries
of every directory stand in the order of their names and all names are names, the files are found in
the order of the names on the way to them, compared one after the other by their bytes (`Before`).

* `Text.bytes_lt`: the order of texts by characters is that of their bytes;
* `Listing.Tidy.place`: a tree that entries are placed in stays tidy;
* `Walker.InOrder` says of a walker that it walks a tree in order if there are no links in it. This
  is what is known of walkers where all directories can be read, and it holds of the walker that
  runs (`Listing.walker_inOrder`);
* `Listing.filesBelow` are the files that such a walk finds, by the names on the way.
  `Listing.mem_filesBelow_iff` says which and `Listing.pairwise_filesBelow` in which order.
-/

namespace Introspect

/-! ### The order of names -/

namespace Text

/-- The bytes of a text. -/
def bytes (s : String) : List UInt8 := s.toUTF8.data.toList

theorem bytes_eq (s : String) : bytes s = s.toList.flatMap String.utf8EncodeChar := by
  rw [bytes, String.toUTF8, ← String.utf8Encode_toList, List.utf8Encode]
  simp

theorem exists_utf8EncodeChar_eq_cons (c : Char) :
    ∃ b bs, String.utf8EncodeChar c = b :: bs := by
  unfold String.utf8EncodeChar
  dsimp only
  split_ifs <;> exact ⟨_, _, rfl⟩

/-- The bytes of a smaller character come first, whatever follows. -/
theorem utf8EncodeChar_lt {c d : Char} (h : c < d) (bs bs' : List UInt8) :
    String.utf8EncodeChar c ++ bs < String.utf8EncodeChar d ++ bs' := by
  have hlt : c.val.toNat < d.val.toNat := h
  have hd : d.val.toNat < 1114112 := by
    rcases d.valid with hd | hd <;> omega
  -- every byte behind the first one holds six bits
  have hdiv (n : Nat) : n / 4096 = n / 64 / 64 ∧ n / 262144 = n / 64 / 64 / 64 := by
    simp [Nat.div_div_eq_div_mul]
  unfold String.utf8EncodeChar
  dsimp only
  generalize c.val.toNat = v at *
  generalize d.val.toNat = u at *
  rw [(hdiv v).1, (hdiv v).2, (hdiv u).1, (hdiv u).2]
  split_ifs <;>
  · simp only [List.cons_append, List.nil_append, List.cons_lt_cons_iff, UInt8.lt_iff_toNat_lt,
      ← UInt8.toNat_inj, UInt8.toNat_ofNat']
    omega

/-- **Order of texts.** A text that comes first by its characters comes first by its bytes. -/
theorem bytes_lt {s t : String} (h : s < t) : bytes s < bytes t := by
  have h : s.toList < t.toList := h
  rw [bytes_eq, bytes_eq]
  generalize s.toList = cs at *
  generalize t.toList = ds at *
  induction h with
  | @nil d ds =>
    obtain ⟨b, bs, hb⟩ := exists_utf8EncodeChar_eq_cons d
    rw [List.flatMap_nil, List.flatMap_cons, hb]
    exact List.Lex.nil
  | cons _ ih =>
    rw [List.flatMap_cons, List.flatMap_cons]
    exact List.append_left_lt ih
  | rel hlt =>
    rw [List.flatMap_cons, List.flatMap_cons]
    exact utf8EncodeChar_lt hlt _ _

end Text

/-- **Order of entries.** By the bytes of the names on the way, one name after the other. -/
def Before : List String → List String → Prop :=
  List.Lex fun a b => Text.bytes a < Text.bytes b

theorem Before.asymm {names names' : List String} (h : Before names names') :
    ¬ Before names' names :=
  List.lex_asymm (fun h h' => List.lt_asymm h h') h

/-- A list in this order is known by its members. -/
theorem eq_of_pairwise_before {l l' : List (List String)} (h : l.Pairwise Before)
    (h' : l'.Pairwise Before) (hmem : ∀ names, names ∈ l ↔ names ∈ l') : l = l' := by
  have hnodup {k : List (List String)} (hk : k.Pairwise Before) : k.Nodup :=
    hk.imp fun hab heq => (heq ▸ hab).asymm (heq ▸ hab)
  exact ((List.perm_ext_iff_of_nodup (hnodup h) (hnodup h')).mpr hmem).eq_of_pairwise
    (fun _ _ _ _ hab hba => absurd hba hab.asymm) h h'

/-! ### What is asked of a walk -/

section Options

variable {o : WalkOptions} {w : WalkScope} {e : WalkEntry} {inside : List WalkItem}
  {item : WalkItem} {name : String}

theorem WalkScope.enters_iff :
    w.enters name = true ↔ w.recursive = true ∧ w.excluded name = false := by
  simp [WalkScope.enters]

/-- Below the entries of a directory there is more if directories inside are walked. -/
theorem WalkScope.reaches_options (w : WalkScope) (k : Nat) :
    w.options.reaches (k + 2) = w.recursive := by
  unfold WalkScope.options WalkOptions.reaches
  cases w.recursive <;> simp

/-- The entries of a directory are left out by their names. -/
theorem WalkScope.keeps_options (w : WalkScope) {dir : String} (hname : Path.IsName name)
    (k : Nat) (isFile : Bool) :
    w.options.keeps ⟨Path.child dir name, k + 1, isFile⟩ = !w.excluded name := by
  simp [WalkScope.options, Path.fileName_child dir hname]

/-- Of an entry below the root, what is delivered is decided by its name. -/
theorem WalkScope.visit_options (w : WalkScope) {dir : String} (hname : Path.IsName name)
    (k : Nat) (isFile : Bool) (inside : List WalkItem) :
    w.options.visit ⟨Path.child dir name, k + 1, isFile⟩ inside
      = if w.excluded name then []
        else .ok ⟨Path.child dir name, k + 1, isFile⟩ :: if w.recursive then inside else [] := by
  rw [WalkOptions.visit, w.keeps_options hname, w.reaches_options]
  cases w.excluded name <;> rfl

/-- The root is delivered, and what it holds. -/
theorem WalkScope.visit_options_root (w : WalkScope) (root : String) (isFile : Bool)
    (inside : List WalkItem) :
    w.options.visit ⟨root, 0, isFile⟩ inside = .ok ⟨root, 0, isFile⟩ :: inside := by
  unfold WalkScope.options WalkOptions.visit WalkOptions.reaches
  cases w.recursive <;> simp

/-- Of an entry that is left out, nothing is delivered. -/
theorem WalkOptions.mem_visit (h : item ∈ o.visit e inside) :
    o.keeps e = true ∧
      (item = .ok e ∨ item ∈ inside ∧ o.visit e inside = .ok e :: inside) := by
  unfold WalkOptions.visit at h ⊢
  split at h
  · next hkeeps =>
    refine ⟨hkeeps, (List.mem_cons.mp h).imp_right fun h => ?_⟩
    split at h
    · next hreaches => exact ⟨h, by rw [if_pos hkeeps, if_pos hreaches]⟩
    · cases h
  · cases h

end Options

/-- Inside an entry, or at the entry itself, there is a regular file. -/
def Entry.HoldsFile : Entry → Location → Prop
  | .leaf (.file _), below => below = []
  | .leaf (.link _), _ => False
  | .dir inside, below => inside.HoldsFile below

namespace Listing

/-! ### Tidy trees -/

/-- **Tidy trees.** All names are names, and the entries of every directory stand in the order of
their names, each of which occurs once. -/
def Tidy : Listing → Prop
  | empty => True
  | leaf name _ rest => Path.IsName name ∧ (∀ e ∈ rest.toList, name < e.1) ∧ rest.Tidy
  | dir name inside rest =>
    Path.IsName name ∧ (∀ e ∈ rest.toList, name < e.1) ∧ inside.Tidy ∧ rest.Tidy

/-- There are no links in the tree. -/
def LinkFree : Listing → Prop
  | empty => True
  | leaf _ (.file _) rest => rest.LinkFree
  | leaf _ (.link _) _ => False
  | dir _ inside rest => inside.LinkFree ∧ rest.LinkFree

instance decidableTidy : (l : Listing) → Decidable l.Tidy
  | empty => .isTrue trivial
  | leaf _ _ rest =>
    have := decidableTidy rest
    inferInstanceAs (Decidable (_ ∧ _ ∧ _))
  | dir _ inside rest =>
    have := decidableTidy inside
    have := decidableTidy rest
    inferInstanceAs (Decidable (_ ∧ _ ∧ _ ∧ _))

instance decidableLinkFree : (l : Listing) → Decidable l.LinkFree
  | empty => .isTrue trivial
  | leaf _ (.file _) rest => decidableLinkFree rest
  | leaf _ (.link _) _ => .isFalse id
  | dir _ inside rest =>
    have := decidableLinkFree inside
    have := decidableLinkFree rest
    inferInstanceAs (Decidable (_ ∧ _))

section Tidy

variable {tree inside rest : Listing} {name n : String} {e : Entry} {l below : Location}

/-- Induction on the entries of a listing. -/
@[elab_as_elim]
theorem cons_induction {motive : Listing → Prop} (empty : motive .empty)
    (cons : ∀ name e rest, motive rest → motive (.cons name e rest)) (l : Listing) : motive l := by
  induction l with
  | empty => exact empty
  | leaf name x rest ih => exact cons name (.leaf x) rest ih
  | dir name x rest _ ih => exact cons name (.dir x) rest ih

theorem tidy_cons_iff : (cons n e rest).Tidy ↔ Path.IsName n ∧
    (∀ other ∈ rest.toList, n < other.1) ∧ (∀ inside, e = .dir inside → inside.Tidy) ∧
      rest.Tidy := by
  cases e with
  | leaf x => simp [cons, Tidy]
  | dir inside => simp [cons, Tidy]

theorem Tidy.of_mem (h : tree.Tidy) (hmem : (name, e) ∈ tree.toList) :
    Path.IsName name ∧ ∀ inside, e = .dir inside → inside.Tidy := by
  induction tree using cons_induction with
  | empty => cases hmem
  | cons n x rest ih =>
    obtain ⟨hname, -, hx, hrest⟩ := tidy_cons_iff.mp h
    rw [toList_cons] at hmem
    rcases List.mem_cons.mp hmem with heq | hmem
    · cases heq
      exact ⟨hname, hx⟩
    · exact ih hrest hmem

theorem mem_toList_of_get? (h : tree.get? name = some e) : (name, e) ∈ tree.toList := by
  obtain ⟨before, after, hlist, -⟩ := List.lookup_eq_some_iff.mp h
  rw [hlist]
  exact List.mem_append_right _ List.mem_cons_self

/-- What is inside a tidy tree is tidy, and the names on the way to it are names. -/
theorem Tidy.at? (h : tree.Tidy) (hat : tree.at? l = some e) :
    (∀ name ∈ l, Path.IsName name) ∧ ∀ inside, e = .dir inside → inside.Tidy := by
  fun_induction Listing.at? tree l with
  | case1 tree =>
    obtain rfl := Option.some.inj hat
    exact ⟨fun _ hn => absurd hn List.not_mem_nil, fun inside hdir => Entry.dir.inj hdir ▸ h⟩
  | case2 tree name below inner hname ih =>
    obtain ⟨hisName, hinner⟩ := h.of_mem (mem_toList_of_get? hname)
    obtain ⟨hnames, htidy⟩ := ih (hinner inner rfl) hat
    exact ⟨List.forall_mem_cons.mpr ⟨hisName, hnames⟩, htidy⟩
  | case3 tree name entry hname =>
    obtain rfl := Option.some.inj hat
    obtain ⟨hisName, hentry⟩ := h.of_mem (mem_toList_of_get? hname)
    exact ⟨List.forall_mem_singleton.mpr hisName, hentry⟩
  | case4 | case5 => cases hat

theorem insert_cons (m : String) (x : Entry) (rest : Listing) :
    (cons m x rest).insert n e
      = if n < m then cons n e (cons m x rest)
        else if n = m then cons n e rest else cons m x (rest.insert n e) := by
  cases x <;> rfl

theorem mem_toList_insert {x : String × Entry} (h : x ∈ (tree.insert n e).toList) :
    x = (n, e) ∨ x ∈ tree.toList := by
  induction tree using cons_induction with
  | empty =>
    rw [insert, toList_cons] at h
    exact Or.inl (List.mem_singleton.mp h)
  | cons m y rest ih =>
    rw [insert_cons] at h
    split_ifs at h <;> simp only [toList_cons, List.mem_cons] at h ⊢ <;> tauto

/-- Inserting keeps a listing tidy. -/
theorem Tidy.insert (h : tree.Tidy) (hname : Path.IsName n)
    (he : ∀ inside, e = .dir inside → inside.Tidy) : (tree.insert n e).Tidy := by
  induction tree using cons_induction with
  | empty => exact tidy_cons_iff.mpr ⟨hname, fun _ h => absurd h List.not_mem_nil, he, trivial⟩
  | cons m x rest ih =>
    obtain ⟨hm, hfirst, hx, hrest⟩ := tidy_cons_iff.mp h
    rw [insert_cons]
    split_ifs with hlt heq
    · refine tidy_cons_iff.mpr ⟨hname, fun other hother => ?_, he, h⟩
      rw [toList_cons] at hother
      rcases List.mem_cons.mp hother with rfl | hother
      · exact hlt
      · exact String.lt_trans hlt (hfirst other hother)
    · subst heq
      exact tidy_cons_iff.mpr ⟨hname, hfirst, he, hrest⟩
    · -- the name comes later
      have hlater : m < n := Std.lt_of_le_of_ne (String.not_lt.mp hlt) (Ne.symm heq)
      refine tidy_cons_iff.mpr ⟨hm, fun other hother => ?_, hx, ih hrest⟩
      rcases mem_toList_insert hother with rfl | hother
      · exact hlater
      · exact hfirst other hother

/-- **Placing** an entry keeps a tree tidy, so that all trees that are made in this way are. -/
theorem Tidy.place (h : tree.Tidy) (hnames : ∀ name ∈ l, Path.IsName name)
    (he : ∀ inside, e = .dir inside → inside.Tidy) : (tree.place e l).Tidy := by
  fun_induction Listing.place e tree l with
  | case1 tree => exact h
  | case2 tree name => exact h.insert (hnames name List.mem_cons_self) he
  | case3 tree name below hne ih =>
    obtain ⟨hname, hbelow⟩ := List.forall_mem_cons.mp hnames
    -- what stands in the way of the directory is replaced, so the directory may begin empty
    have hinside : (tree.inside name).Tidy := by
      unfold Listing.inside
      split
      · next inside hget => exact (h.of_mem (mem_toList_of_get? hget)).2 inside rfl
      · exact trivial
    exact h.insert hname fun inside hdir => Entry.dir.inj hdir ▸ ih hinside hbelow

theorem LinkFree.of_mem (h : tree.LinkFree) (hmem : (name, .dir inside) ∈ tree.toList) :
    inside.LinkFree := by
  induction tree with
  | empty => cases hmem
  | leaf n x rest ih =>
    rcases List.mem_cons.mp hmem with heq | hrest
    · cases heq
    · cases x with
      | file bytes => exact ih h hrest
      | link target => exact h.elim
  | dir n inner rest _ ih =>
    rcases List.mem_cons.mp hmem with heq | hmem
    · cases heq
      exact h.1
    · exact ih h.2 hmem

theorem LinkFree.at? (h : tree.LinkFree) (hat : tree.at? l = some (.dir inside)) :
    inside.LinkFree := by
  fun_induction Listing.at? tree l with
  | case1 tree =>
    obtain rfl := Entry.dir.inj (Option.some.inj hat)
    exact h
  | case2 tree name below inner hname ih => exact ih (h.of_mem (mem_toList_of_get? hname)) hat
  | case3 | case4 | case5 => cases hat

end Tidy

/-! ### Files in a listing -/

section Files

variable {rest : Listing} {n : String} {e : Entry} {l : Location} {w : WalkScope}

theorem not_holdsFile_nil (tree : Listing) : ¬ tree.HoldsFile [] :=
  tree.holdsDir_nil.not_holdsFile

theorem holdsFile_congr {l l' : Listing} {name : String} (h : l.get? name = l'.get? name)
    (below : Location) : l.HoldsFile (name :: below) ↔ l'.HoldsFile (name :: below) := by
  unfold HoldsFile
  rw [Listing.at?, Listing.at?, h]

theorem holdsFile_of_get? {tree : Listing} {name : String} (h : tree.get? name = some e)
    (below : Location) : tree.HoldsFile (name :: below) ↔ e.HoldsFile below := by
  unfold HoldsFile
  rw [Listing.at?, h]
  cases e with
  | dir inside => rfl
  | leaf x => cases x <;> simp [Entry.HoldsFile]

/-- **Files of a listing** are those of its entries. -/
theorem holdsFile_cons_iff (hfresh : ∀ other ∈ rest.toList, n < other.1) :
    (cons n e rest).HoldsFile l
      ↔ (∃ below, l = n :: below ∧ e.HoldsFile below) ∨ rest.HoldsFile l := by
  cases l with
  | nil => simp [not_holdsFile_nil]
  | cons name below =>
    by_cases hname : name = n
    · subst hname
      have hget : (cons name e rest).get? name = some e := by rw [get?_cons, if_pos rfl]
      -- the name stands nowhere else
      have hnone : rest.get? name = none := List.lookup_eq_none_iff.mpr fun other hother => by
        have hne : name ≠ other.1 := fun heq => String.lt_irrefl name (heq ▸ hfresh other hother)
        simpa using hne
      have hrest : ¬ rest.HoldsFile (name :: below) := by
        rintro ⟨bytes, h⟩
        rw [Listing.at?, hnone] at h
        cases h
      rw [holdsFile_of_get? hget]
      simp [hrest]
    · have hget : (cons n e rest).get? name = rest.get? name := by rw [get?_cons, if_neg hname]
      rw [holdsFile_congr hget]
      simp [hname]

/-- The files that a walk in order finds in a listing without links, by the names on the way. -/
def filesBelow (w : WalkScope) : Listing → List Location
  | empty => []
  | leaf name (.file _) rest =>
    (if w.excluded name then [] else [[name]]) ++ rest.filesBelow w
  | leaf _ (.link _) rest => rest.filesBelow w
  | dir name inside rest =>
    (if w.enters name then (inside.filesBelow w).map (name :: ·) else []) ++ rest.filesBelow w

/-- The files of a directory in the listing, if those inside of it are known. -/
theorem mem_entered_iff {inside : Listing} {name : String} {names : Location}
    (hinside : ∀ {below : Location}, below ∈ inside.filesBelow w ↔ inside.HoldsFile below ∧
      (∀ name ∈ below, w.excluded name = false) ∧ (w.recursive = true ∨ below.length = 1)) :
    names ∈ (if w.enters name then (inside.filesBelow w).map (name :: ·) else []) ↔
      (∃ below, names = name :: below ∧ (Entry.dir inside).HoldsFile below) ∧
        (∀ name ∈ names, w.excluded name = false) ∧
        (w.recursive = true ∨ names.length = 1) := by
  constructor
  · intro hmem
    split at hmem
    · next henters =>
      obtain ⟨hrecursive, hname⟩ := WalkScope.enters_iff.mp henters
      obtain ⟨below, hbelow, rfl⟩ := List.mem_map.mp hmem
      obtain ⟨hfile, hnames, -⟩ := hinside.mp hbelow
      exact ⟨⟨below, rfl, hfile⟩, List.forall_mem_cons.mpr ⟨hname, hnames⟩, Or.inl hrecursive⟩
    · cases hmem
  · rintro ⟨⟨below, rfl, hfile⟩, hnames, hdepth⟩
    obtain ⟨hname, hnames⟩ := List.forall_mem_cons.mp hnames
    -- a file inside the directory is behind a further name
    have hrecursive : w.recursive = true := by
      refine hdepth.resolve_right fun hlength => inside.not_holdsFile_nil ?_
      obtain rfl : below = [] := by simpa using hlength
      exact hfile
    rw [if_pos (WalkScope.enters_iff.mpr ⟨hrecursive, hname⟩)]
    exact List.mem_map_of_mem (hinside.mpr ⟨hfile, hnames, Or.inl hrecursive⟩)

/-- **Which files a walk finds:** those with no excluded name on the way, and only those of the
directory itself if it does not go further. -/
theorem mem_filesBelow_iff {tree : Listing} (h : tree.Tidy) {names : Location} :
    names ∈ tree.filesBelow w ↔ tree.HoldsFile names ∧ (∀ name ∈ names, w.excluded name = false) ∧
      (w.recursive = true ∨ names.length = 1) := by
  -- along the entries: what is found in an entry is found at it or behind its name
  induction tree generalizing names with
  | empty =>
    have hnone : ¬ empty.HoldsFile names := by
      cases names with
      | nil => exact not_holdsFile_nil _
      | cons name below =>
        rintro ⟨bytes, hat⟩
        rw [Listing.at?, get?_empty] at hat
        cases hat
    simp [filesBelow, hnone]
  | leaf name x rest ih =>
    rw [leaf_eq_cons, holdsFile_cons_iff h.2.1, or_and_right, ← ih h.2.2]
    cases x with
    | link target => simp [cons, filesBelow, Entry.HoldsFile]
    | file bytes =>
      rw [cons, filesBelow, List.mem_append]
      refine or_congr_left ?_
      constructor
      · intro hmem
        split at hmem
        · cases hmem
        · next hname =>
          obtain rfl := List.mem_singleton.mp hmem
          exact ⟨⟨[], rfl, rfl⟩, by simpa using hname, Or.inr rfl⟩
      · rintro ⟨⟨below, rfl, rfl⟩, hnames, -⟩
        rw [if_neg (by simp [hnames name List.mem_cons_self])]
        exact List.mem_cons_self
  | dir name inside rest ihinside ih =>
    rw [dir_eq_cons, holdsFile_cons_iff h.2.1, or_and_right, ← ih h.2.2.2, cons, filesBelow,
      List.mem_append]
    exact or_congr_left (mem_entered_iff (ihinside h.2.2.1))

/-- The first name on the way to a file is that of an entry. -/
theorem HoldsFile.exists_cons {tree : Listing} (h : tree.HoldsFile l) :
    ∃ e ∈ tree.toList, ∃ below, l = e.1 :: below := by
  cases l with
  | nil => exact absurd h tree.not_holdsFile_nil
  | cons name below =>
    obtain ⟨bytes, hat⟩ := h
    cases hget : tree.get? name with
    | none =>
      rw [Listing.at?, hget] at hat
      cases hat
    | some e => exact ⟨(name, e), mem_toList_of_get? hget, below, rfl⟩

/-- What begins with the name of an entry comes before the files of all later entries. -/
theorem before_of_mem_filesBelow (h : rest.Tidy) (hfirst : ∀ e ∈ rest.toList, n < e.1)
    {names : Location} (hmem : names ∈ rest.filesBelow w) (below : Location) :
    Before (n :: below) names := by
  obtain ⟨e, he, others, rfl⟩ := ((mem_filesBelow_iff h).mp hmem).1.exists_cons
  exact List.Lex.rel (Text.bytes_lt (hfirst e he))

/-- **In which order:** that of the names on the way. -/
theorem pairwise_filesBelow {tree : Listing} (h : tree.Tidy) :
    (tree.filesBelow w).Pairwise Before := by
  induction tree with
  | empty => exact List.Pairwise.nil
  | leaf name x rest ih =>
    obtain ⟨-, hfirst, htidy⟩ := h
    cases x with
    | link target => exact ih htidy
    | file bytes =>
      rw [filesBelow, List.pairwise_append]
      refine ⟨?_, ih htidy, fun a ha b hb => ?_⟩
      · split
        · exact List.Pairwise.nil
        · exact List.pairwise_singleton _ _
      · split at ha
        · cases ha
        · rw [List.mem_singleton.mp ha]
          exact before_of_mem_filesBelow htidy hfirst hb []
  | dir name inside rest ihinside ih =>
    obtain ⟨-, hfirst, hinside, htidy⟩ := h
    rw [filesBelow, List.pairwise_append]
    refine ⟨?_, ih htidy, fun a ha b hb => ?_⟩
    · split
      · -- behind a common first name, the names that follow decide
        exact (ihinside hinside).map _ fun _ _ => List.Lex.cons
      · exact List.Pairwise.nil
    · split at ha
      · obtain ⟨below, -, rfl⟩ := List.mem_map.mp ha
        exact before_of_mem_filesBelow htidy hfirst hb below
      · cases ha

end Files

end Listing

/-! ### Walks in order -/

namespace Listing

/-- The entries of a listing without links, which is that of the directory at a path, in order: each
directory before what is inside. -/
def preorder (o : WalkOptions) (path : String) (depth : Nat) : Listing → List WalkItem
  | empty => []
  | leaf name (.file _) rest =>
    o.visit ⟨Path.child path name, depth, true⟩ [] ++ rest.preorder o path depth
  | leaf _ (.link _) rest => rest.preorder o path depth
  | dir name inside rest =>
    o.visit ⟨Path.child path name, depth, false⟩
      (inside.preorder o (Path.child path name) (depth + 1)) ++ rest.preorder o path depth

end Listing

/-- **Walkers in order.** If there are no links in the tree, then from every directory of it the
walker delivers the directory and the entries below in order, whatever it is asked to leave out. -/
def Walker.InOrder (walker : Walker) (tree : FileTree) : Prop :=
  tree.LinkFree → ∀ path o l inside, tree.locate path = .ok l → tree.at? l = some (.dir inside) →
    walker tree path o = o.visit ⟨path, 0, false⟩ (inside.preorder o path 1)

namespace Listing

variable {tree inside : Listing} {o : WalkOptions} {path : String} {l : Location}

/-- A walk without links is in order. -/
theorem walk_eq_preorder (h : tree.LinkFree) (links : List OpenDir → String → List WalkItem)
    (trail : List OpenDir) :
    tree.walk o links trail
      = tree.preorder o (trail.head?.elim "" (·.path)) trail.length := by
  induction tree generalizing trail with
  | empty => rfl
  | leaf name x rest ih =>
    cases x with
    | link target => exact h.elim
    | file bytes => rw [walk, preorder, ih h, OpenDir.childPath]
  | dir name inside rest ihinside ih =>
    -- inside the directory, its path is the head of the trail
    rw [walk, preorder, ih h.2, ihinside h.1, OpenDir.enter, OpenDir.childPath]
    rfl

/-- A walk from a directory delivers it, and then what it holds. -/
theorem walker_eq (hl : tree.locate path = .ok l) (hinside : tree.at? l = some (.dir inside)) :
    walker tree path o
      = o.visit ⟨path, 0, false⟩
          (inside.walk o (tree.behindLink o (tree.dirCount + 1)) [⟨path, l⟩]) := by
  rw [walker, hl]
  dsimp only
  rw [hinside]

theorem walker_inOrder (tree : FileTree) : walker.InOrder tree := by
  intro hlinks path o l inside hl hinside
  rw [walker_eq hl hinside, walk_eq_preorder (hlinks.at? hinside)]
  rfl

end Listing

end Introspect
