import Introspect.DocBlock
import Introspect.Proofs.Text
import Mathlib.Data.List.Forall2

/-!
# The structure of doc comments

The lines of a doc comment are read one after another, by a loop that keeps the paragraphs that have
ended, the one that has not, the tags and whether there was one. What comes out can be said without
it: the lines fall into text lines and tag lines at the first line that begins with an at sign; the
text lines fall into paragraphs at the empty ones (`Paragraphs`), and the tag lines into tags at the
lines that begin with an at sign (`TagLines`).

* `IsCommentLines` says which lines a comment has, without the functions that find them
  (`isCommentLines_iff`);
* `Draft.foldl_text` and `Draft.foldl_tags`: what the loop keeps up over text lines, where a
  paragraph may be open, and over tag lines, where the last tag is;
* `Structured.unique`: the structure of the lines says what the block is;
* `parse_structured`: what is read from a comment has the structure of its lines.
-/

namespace Introspect

namespace Text

/-! ### Lines -/

/-- Lines joined by line feeds can be told apart again. -/
theorem split_intercalate {p : List String} (hne : p ≠ []) (hp : ∀ l ∈ p, '\n' ∉ l.toList) :
    split '\n' ("\n".intercalate p) = p := by
  induction p with
  | nil => exact absurd rfl hne
  | cons l p ih =>
    have hl : split '\n' l = [l] := split_of_not_mem (hp l List.mem_cons_self)
    cases p with
    | nil => rw [String.intercalate_singleton, hl]
    | cons l' p =>
      rw [String.intercalate_cons_cons]
      exact (split_append_sep '\n' l _).trans <| by
        rw [hl, ih (List.cons_ne_nil _ _) fun l hl => hp l (List.mem_cons_of_mem _ hl)]
        rfl

theorem filter_of_forall_ne_empty {p : List String} (h : ∀ l ∈ p, l ≠ "") :
    p.filter (· ≠ "") = p :=
  List.filter_eq_self.mpr fun l hl => by simp [h l hl]

/-- Paragraphs joined by empty lines have the lines of the paragraphs, apart from empty ones. -/
theorem filter_split_intercalate {ps : List (List String)}
    (hps : ∀ p ∈ ps, p ≠ [] ∧ ∀ l ∈ p, l ≠ "" ∧ '\n' ∉ l.toList) :
    (split '\n' ("\n\n".intercalate (ps.map ("\n".intercalate ·)))).filter (· ≠ "")
      = ps.flatten := by
  induction ps with
  | nil => rfl
  | cons p ps ih =>
    obtain ⟨hne, hp⟩ := hps p List.mem_cons_self
    have hsplit : split '\n' ("\n".intercalate p) = p :=
      split_intercalate hne fun l hl => (hp l hl).2
    have hkeep : p.filter (· ≠ "") = p := filter_of_forall_ne_empty fun l hl => (hp l hl).1
    cases ps with
    | nil => rw [List.map_singleton, String.intercalate_singleton, hsplit, hkeep]; simp
    | cons p' ps =>
      -- between two paragraphs the cut leaves one empty line, which is not kept
      have hlines : split '\n' ("\n\n".intercalate ((p :: p' :: ps).map ("\n".intercalate ·)))
          = p ++ "" :: split '\n' ("\n\n".intercalate ((p' :: ps).map ("\n".intercalate ·))) := by
        have hbreak : ("\n\n" : String) = String.singleton '\n' ++ String.singleton '\n' := rfl
        rw [List.map_cons, List.map_cons, String.intercalate_cons_cons, ← List.map_cons]
        conv_lhs => rw [hbreak, ← String.append_assoc]
        rw [← hbreak, split_append_sep, ← String.append_empty (s := _ ++ String.singleton '\n'),
          split_append_sep, hsplit, List.append_assoc]
        rfl
      rw [hlines, List.filter_append, hkeep, List.filter_cons_of_neg (by simp),
        ih fun p' hp' => hps p' (List.mem_cons_of_mem p hp')]
      rfl

end Text

namespace DocBlock

/-! ### The lines of a comment -/

/-- What is left of a text without `lead`, if it begins with it. -/
inductive StripsLead (lead : List Char) : List Char → List Char → Prop
  | found (cs : List Char) : StripsLead lead (lead ++ cs) cs
  | absent {cs : List Char} (h : ¬ lead <+: cs) : StripsLead lead cs cs

/-- What is left of a text without `tail`, if it ends with it. -/
inductive StripsTail (tail : List Char) : List Char → List Char → Prop
  | found (cs : List Char) : StripsTail tail (cs ++ tail) cs
  | absent {cs : List Char} (h : ¬ tail <:+ cs) : StripsTail tail cs cs

/-- What is left of a line: it is trimmed, one star in front is taken away, and it is trimmed
again. -/
def IsBare (l : List Char) (line : String) : Prop :=
  ∃ outer inner, Text.Trims l outer ∧ StripsLead ['*'] outer inner ∧ Text.Trims inner line.toList

/-- **The lines of a comment** are what is left of the lines between the delimiters. -/
def IsCommentLines (raw : String) (lines : List String) : Prop :=
  ∃ whole opened body ls, Text.Trims raw.toList whole ∧ StripsLead "/**".toList whole opened ∧
    StripsTail "*/".toList opened body ∧ Text.IsLines body ls ∧ List.Forall₂ IsBare ls lines

theorem stripsLead_iff {lead cs ds : List Char} :
    StripsLead lead cs ds ↔ ds = withoutLead lead cs := by
  unfold withoutLead
  constructor
  · rintro (cs | h)
    · rw [if_pos (List.isPrefixOf_iff_prefix.mpr (List.prefix_append _ _)), List.drop_left]
    · rw [if_neg (mt List.isPrefixOf_iff_prefix.mp h)]
  · rintro rfl
    split
    · next h =>
      obtain ⟨rest, rfl⟩ := List.isPrefixOf_iff_prefix.mp h
      rw [List.drop_left]
      exact .found rest
    · next h => exact .absent (mt List.isPrefixOf_iff_prefix.mpr h)

/-- At the end it is as at the beginning of the reversed text. -/
theorem stripsTail_iff {tail cs ds : List Char} :
    StripsTail tail cs ds ↔ ds = withoutTail tail cs := by
  have hreverse : StripsTail tail cs ds ↔ StripsLead tail.reverse cs.reverse ds.reverse := by
    constructor
    · rintro (cs | h)
      · rw [List.reverse_append]
        exact .found _
      · exact .absent (mt List.reverse_prefix.mp h)
    · intro h
      generalize hcs : cs.reverse = cs' at h
      generalize hds : ds.reverse = ds' at h
      cases h with
      | found =>
        obtain rfl : cs = ds ++ tail := List.reverse_inj.mp (by simp [hcs, hds])
        exact .found ds
      | absent h =>
        obtain rfl : cs = ds := List.reverse_inj.mp (hcs.trans hds.symm)
        exact .absent (mt List.reverse_prefix.mpr (hcs ▸ h))
  rw [hreverse, stripsLead_iff, withoutTail, List.reverse_eq_iff]

theorem isBare_iff {l : List Char} {line : String} :
    IsBare l line ↔ line = withoutMargin (String.ofList l) := by
  unfold IsBare
  simp only [Text.trims_iff, stripsLead_iff, exists_and_left, exists_eq_left]
  rw [withoutMargin, Text.trim_eq, Text.trim_eq, String.toList_ofList, String.toList_ofList,
    String.toList_ofList, ← String.toList_inj, String.toList_ofList]

/-- **Comment lines are told** by what stands between the delimiters and the line feeds. -/
theorem isCommentLines_iff {raw : String} {lines : List String} :
    IsCommentLines raw lines ↔ lines = commentLines raw := by
  have hbare (ls : List (List Char)) : List.Forall₂ IsBare ls lines ↔
      lines = (ls.map String.ofList).map withoutMargin := by
    have hmargin : IsBare = fun l line => withoutMargin (String.ofList l) = line :=
      funext fun l => funext fun line => propext (isBare_iff.trans eq_comm)
    rw [hmargin, ← List.forall₂_map_left_iff (f := fun l => withoutMargin (String.ofList l)),
      List.forall₂_eq_eq_eq, List.map_map, eq_comm]
    rfl
  have hread : commentLines raw
      = ((Text.endLines (Text.cutAt (· == '\n') (withoutTail "*/".toList (withoutLead "/**".toList
          (Text.trimEnd (Text.trimStart raw.toList)))))).map String.ofList).map withoutMargin := by
    simp only [commentLines, Text.lines, Text.trim_eq, String.toList_ofList]
  rw [hread]
  constructor
  · rintro ⟨whole, opened, body, ls, hwhole, hopened, hbody, hls, hlines⟩
    rw [(hbare ls).mp hlines, Text.isLines_iff.mp hls, stripsTail_iff.mp hbody,
      stripsLead_iff.mp hopened, Text.trims_iff.mp hwhole]
  · intro hlines
    exact ⟨_, _, _, _, Text.trims_iff.mpr rfl, stripsLead_iff.mpr rfl, stripsTail_iff.mpr rfl,
      Text.isLines_iff.mpr rfl, (hbare _).mpr hlines⟩

/-! ### What the lines say -/

/-- Whether a line begins a tag. -/
def isTagLine (line : String) : Bool :=
  line.toList.head? == some '@'

/-- **Paragraphs.** They are the maximal runs of non-empty lines. -/
inductive Paragraphs : List String → List (List String) → Prop
  /-- There are no more lines. -/
  | nil : Paragraphs [] []
  /-- An empty line is in no paragraph. -/
  | blank {lines : List String} {ps : List (List String)} (h : Paragraphs lines ps) :
    Paragraphs ("" :: lines) ps
  /-- A run of non-empty lines, up to an empty one or to the end. -/
  | run {p rest : List String} {ps : List (List String)} (hne : p ≠ []) (hp : ∀ l ∈ p, l ≠ "")
    (hend : ∀ l ∈ rest.head?, l = "") (h : Paragraphs rest ps) :
    Paragraphs (p ++ rest) (p :: ps)

/-- **One tag.** The line has an at sign, the name up to the first blank, and the rest. The value
consists of what is not empty of the rest, trimmed, and of the lines behind. -/
def IsTagOf (t : DocTag) (line : String) (behind : List String) : Prop :=
  ∃ rest value : List Char, line.toList = '@' :: (t.name.toList ++ rest) ∧
    (∀ c ∈ t.name.toList, Text.isBlank c = false) ∧ (∀ c ∈ rest.head?, Text.isBlank c = true) ∧
    Text.Trims rest value ∧
    t.value = " ".intercalate ((String.ofList value :: behind).filter (· ≠ ""))

/-- **Tags.** There is one for every line that begins with an at sign, with the lines up to the
next such line. -/
inductive TagLines : List String → List DocTag → Prop
  /-- There are no more lines. -/
  | nil : TagLines [] []
  /-- The line of a tag and the lines behind it. -/
  | tag {line : String} {behind rest : List String} {t : DocTag} {ts : List DocTag}
    (ht : IsTagOf t line behind) (hbehind : ∀ l ∈ behind, isTagLine l = false)
    (h : TagLines rest ts) : TagLines (line :: (behind ++ rest)) (t :: ts)

/-- **The structure of a block.** It is that of the lines: there are the text lines, with their
paragraphs, and the tag lines. -/
structure Structured (b : DocBlock) (texts tagLines : List String) (ps : List (List String)) :
    Prop where
  paragraphs : Paragraphs texts ps
  summary : b.summary = (ps.map ("\n".intercalate ·)).headD ""
  description : b.description = "\n\n".intercalate (ps.map ("\n".intercalate ·)).tail
  tags : TagLines tagLines b.tags

variable {line : String} {lines behind texts : List String} {ps qs : List (List String)}
  {t : DocTag} {ts : List DocTag} {b : DocBlock}

theorem IsTagOf.isTagLine (h : IsTagOf t line behind) : isTagLine line = true := by
  obtain ⟨rest, value, hline, -⟩ := h
  simp [DocBlock.isTagLine, hline]

theorem exists_text_of_isTagLine (h : isTagLine line = true) :
    ∃ text, line.toList = '@' :: text := by
  rw [isTagLine, beq_iff_eq, List.head?_eq_some_iff] at h
  exact h

/-! ### The lines are all there, once -/

theorem Paragraphs.forall_ne_empty (h : Paragraphs lines ps) :
    ∀ p ∈ ps, p ≠ [] ∧ ∀ l ∈ p, l ≠ "" := by
  induction h with
  | nil => exact nofun
  | blank _ ih => exact ih
  | run hne hp _ _ ih =>
    intro p hp'
    cases hp' with
    | head => exact ⟨hne, hp⟩
    | tail _ hmem => exact ih p hmem

/-- The lines of the paragraphs are the non-empty lines. -/
theorem Paragraphs.flatten_eq (h : Paragraphs lines ps) :
    ps.flatten = lines.filter (· ≠ "") := by
  induction h with
  | nil => rfl
  | blank _ ih => rw [ih, List.filter_cons_of_neg (by simp)]
  | @run p rest ps _ hp _ _ ih =>
    rw [List.flatten_cons, ih, List.filter_append, Text.filter_of_forall_ne_empty hp]

/-- The first word of the line of a tag is the name, with the at sign. -/
theorem words_of_name {name rest : List Char} (hline : line.toList = '@' :: (name ++ rest))
    (hname : ∀ c ∈ name, Text.isBlank c = false) (hrest : ∀ c ∈ rest.head?, Text.isBlank c = true) :
    Text.words line = String.ofList ('@' :: name) :: Text.words (String.ofList rest) := by
  -- the name is one word: it has no blank, and a blank or nothing is behind it
  have hone : Text.cutAt Text.isBlank ('@' :: name) = ['@' :: name] :=
    Text.cutAt_of_forall_not fun c hc => by
      cases hc with
      | head => decide
      | tail _ hmem => exact hname c hmem
  have hword : Text.wordLists ('@' :: name) = ['@' :: name] := by
    rw [Text.wordLists, hone]
    rfl
  rw [Text.words_eq, Text.words_eq, hline, String.toList_ofList, ← List.cons_append]
  cases rest with
  | nil =>
    rw [List.append_nil, hword, Text.wordLists_nil]
    rfl
  | cons c rest =>
    have hblank : Text.isBlank c = true := hrest c rfl
    rw [Text.wordLists_append_blank hblank, hword, Text.wordLists_cons_blank hblank]
    rfl

/-- The words of the name and of the value of a tag are those of its lines. -/
theorem IsTagOf.words (h : IsTagOf t line behind) :
    ("@" ++ t.name) :: Text.words t.value = (line :: behind).flatMap Text.words := by
  obtain ⟨rest, value, hline, hname, hrest, htrims, hvalue⟩ := h
  have hstring : String.ofList ('@' :: t.name.toList) = "@" ++ t.name := by
    rw [← String.toList_inj]
    simp [String.toList_append]
  rw [hvalue, Text.words_intercalate, Text.flatMap_words_filter, List.flatMap_cons,
    List.flatMap_cons, ← htrims.trim_ofList, Text.words_trim, words_of_name hline hname hrest,
    hstring, List.cons_append]

theorem TagLines.words (h : TagLines lines ts) :
    ts.flatMap (fun t => ("@" ++ t.name) :: Text.words t.value) = lines.flatMap Text.words := by
  induction h with
  | nil => rfl
  | tag ht _ _ ih =>
    rw [List.flatMap_cons, ih, ht.words, ← List.flatMap_append, List.cons_append]

/-- The non-empty lines of summary and description are the non-empty text lines. -/
theorem Structured.lines_kept (h : b.Structured texts lines ps)
    (hfeed : ∀ l ∈ texts, '\n' ∉ l.toList) :
    (Text.split '\n' b.summary ++ Text.split '\n' b.description).filter (· ≠ "")
      = texts.filter (· ≠ "") := by
  have hflatten := h.paragraphs.flatten_eq
  have hps : ∀ p ∈ ps, p ≠ [] ∧ ∀ l ∈ p, l ≠ "" ∧ '\n' ∉ l.toList := fun p hp =>
    have hne := h.paragraphs.forall_ne_empty p hp
    ⟨hne.1, fun l hl =>
      have hmem : l ∈ texts.filter (· ≠ "") := hflatten ▸ List.mem_flatten_of_mem hp hl
      ⟨hne.2 l hl, hfeed l (List.mem_filter.mp hmem).1⟩⟩
  rw [h.summary, h.description, List.filter_append, ← hflatten]
  cases ps with
  | nil => rfl
  | cons p ps =>
    have hp := hps p List.mem_cons_self
    have hkeep : p.filter (· ≠ "") = p :=
      Text.filter_of_forall_ne_empty fun l hl => (hp.2 l hl).1
    rw [List.map_cons, List.headD_cons, List.tail_cons,
      Text.filter_split_intercalate fun p' hp' => hps p' (List.mem_cons_of_mem p hp'),
      Text.split_intercalate hp.1 fun l hl => (hp.2 l hl).2, hkeep, List.flatten_cons]

/-! ### The structure says what the block is -/

theorem Paragraphs.unique (h : Paragraphs lines ps) : ∀ {qs}, Paragraphs lines qs → ps = qs := by
  induction h with
  | nil =>
    intro qs h'
    generalize hl : [] = lines at h'
    cases h' with
    | nil => rfl
    | blank _ => cases hl
    | run hne _ _ _ => exact absurd (List.append_eq_nil_iff.mp hl.symm).1 hne
  | blank _ ih =>
    intro qs h'
    generalize hl : "" :: _ = lines at h'
    cases h' with
    | nil => cases hl
    | blank h' => cases hl; exact ih h'
    | @run p _ _ hne hp _ _ =>
      cases p with
      | nil => exact absurd rfl hne
      | cons l p => cases hl; exact absurd rfl (hp "" List.mem_cons_self)
  | @run p rest ps hne hp hend _ ih =>
    intro qs h'
    generalize hl : p ++ rest = lines at h'
    cases h' with
    | nil => exact absurd (List.append_eq_nil_iff.mp hl).1 hne
    | blank _ =>
      cases p with
      | nil => exact absurd rfl hne
      | cons l p => cases hl; exact absurd rfl (hp "" List.mem_cons_self)
    | @run p' rest' ps' hne' hp' hend' h' =>
      -- both runs go to the next empty line
      obtain ⟨rfl, rfl⟩ := Text.run_unique (f := (· ≠ "")) (by simpa using hp) (by simpa using hp')
        (by simpa using hend) (by simpa using hend') hl
      rw [ih h']

theorem TagLines.head_isTagLine (h : TagLines lines ts) :
    ∀ l ∈ lines.head?, isTagLine l = true := by
  cases h with
  | nil => exact nofun
  | tag ht _ _ =>
    intro l hl
    obtain rfl := Option.mem_some_iff.mp hl
    exact ht.isTagLine

theorem IsTagOf.unique {t' : DocTag} (h : IsTagOf t line behind) (h' : IsTagOf t' line behind) :
    t = t' := by
  obtain ⟨rest, value, hline, hname, hrest, htrims, hvalue⟩ := h
  obtain ⟨rest', value', hline', hname', hrest', htrims', hvalue'⟩ := h'
  have heq := (List.cons.inj (hline.symm.trans hline')).2
  -- the name goes to the first blank
  obtain ⟨hnames, rfl⟩ := Text.run_unique (f := (! Text.isBlank ·)) (by simpa using hname)
    (by simpa using hname') (by simpa using hrest) (by simpa using hrest') heq
  obtain rfl : value = value' := (Text.trims_iff.mp htrims).trans (Text.trims_iff.mp htrims').symm
  cases t
  cases t'
  simp_all [String.toList_inj]

theorem TagLines.unique (h : TagLines lines ts) : ∀ {ts'}, TagLines lines ts' → ts = ts' := by
  induction h with
  | nil =>
    intro ts' h'
    cases h'
    rfl
  | @tag line behind rest t ts ht hbehind h ih =>
    intro ts' h'
    generalize hl : line :: (behind ++ rest) = lines at h'
    cases h' with
    | nil => cases hl
    | @tag line' behind' rest' t' ts' ht' hbehind' h' =>
      obtain ⟨rfl, heq⟩ := List.cons.inj hl
      -- the lines of a tag go to the next line with an at sign
      obtain ⟨rfl, rfl⟩ := Text.run_unique (f := (! isTagLine ·)) (by simpa using hbehind)
        (by simpa using hbehind') (by simpa using h.head_isTagLine)
        (by simpa using h'.head_isTagLine) heq
      rw [ht.unique ht', ih h']

/-- Blocks with the structure of the same lines are the same. -/
theorem Structured.unique {b' : DocBlock} {tagLines : List String}
    (h : b.Structured texts tagLines ps) (h' : b'.Structured texts tagLines qs) : b = b' := by
  obtain rfl := h.paragraphs.unique h'.paragraphs
  have htags := h.tags.unique h'.tags
  have hsummary := h.summary.trans h'.summary.symm
  have hdescription := h.description.trans h'.description.symm
  cases b
  cases b'
  simp_all

/-! ### Reading line by line -/

theorem intercalate_ne_empty (sep : String) {pieces : List String} (hne : pieces ≠ [])
    (h : ∀ l ∈ pieces, l ≠ "") : sep.intercalate pieces ≠ "" := by
  cases pieces with
  | nil => exact absurd rfl hne
  | cons l pieces =>
    cases pieces with
    | nil => simpa using h l List.mem_cons_self
    | cons l' pieces =>
      rw [String.intercalate_cons_cons]
      simp [h l List.mem_cons_self]

theorem joined_intercalate (sep : String) {pieces : List String} (h : ∀ l ∈ pieces, l ≠ "")
    (line : String) :
    joined sep (sep.intercalate pieces) line = sep.intercalate (pieces ++ [line]) := by
  by_cases hne : pieces = []
  · subst hne
    rfl
  · rw [joined, if_neg (intercalate_ne_empty sep hne h),
      String.intercalate_append_of_ne_nil hne (by simp), String.intercalate_singleton]

/-- The line of a tag alone. -/
theorem isTagOf_tagOf {text : List Char} (h : line.toList = '@' :: text) :
    IsTagOf (tagOf text) line [] := by
  -- what is behind the name of the tag begins at the first blank
  have hdrop : text.drop (text.takeWhile (! Text.isBlank ·)).length
      = text.dropWhile (! Text.isBlank ·) := by
    conv_lhs =>
      arg 2
      rw [← List.takeWhile_append_dropWhile (p := (! Text.isBlank ·)) (l := text)]
    exact List.drop_left
  have htrims : Text.Trims (text.dropWhile (! Text.isBlank ·)) _ := Text.trims_iff.mpr rfl
  refine ⟨text.dropWhile (! Text.isBlank ·), _, ?_, fun c hc => ?_, fun c hc => ?_, htrims, ?_⟩
  · rw [tagOf, String.toList_ofList, List.takeWhile_append_dropWhile, h]
  · rw [tagOf, String.toList_ofList] at hc
    simpa using List.mem_takeWhile_imp hc
  · have hstop := List.head?_dropWhile_not (! Text.isBlank ·) text
    rw [Option.mem_def.mp hc] at hstop
    simpa using hstop
  · rw [tagOf, hdrop, ← htrims.trim_ofList]
    by_cases hempty : Text.trim (String.ofList (text.dropWhile (! Text.isBlank ·))) = ""
    · rw [hempty]
      rfl
    · rw [List.filter_cons_of_pos (by simpa using hempty), List.filter_nil,
        String.intercalate_singleton]

/-- One more line of a tag. -/
theorem IsTagOf.continued (h : IsTagOf t line behind) (l : String) :
    IsTagOf (t.continued l) line (behind ++ [l]) := by
  obtain ⟨rest, value, hline, hname, hrest, htrims, hvalue⟩ := h
  by_cases hl : l = ""
  · have hnone : [l].filter (· ≠ "") = [] := List.filter_cons_of_neg (by simp [hl])
    rw [DocTag.continued, if_pos hl]
    exact ⟨rest, value, hline, hname, hrest, htrims, by
      rw [hvalue, ← List.cons_append, List.filter_append, hnone, List.append_nil]⟩
  · have hone : [l].filter (· ≠ "") = [l] := List.filter_cons_of_pos (by simpa using hl)
    rw [DocTag.continued, if_neg hl]
    refine ⟨rest, value, hline, hname, hrest, htrims, ?_⟩
    have hpieces : ∀ piece ∈ (String.ofList value :: behind).filter (· ≠ ""),
        piece ≠ "" := fun piece hpiece => by simpa using (List.mem_filter.mp hpiece).2
    rw [← List.cons_append, List.filter_append, hone, ← joined_intercalate " " hpieces, hvalue]

namespace Draft

variable {d : Draft}

theorem addLine_of_tag {text : List Char} (h : line.toList = '@' :: text) :
    d.addLine line = { d with inTags := true, tags := d.tags ++ [tagOf text] } := by
  rw [addLine]
  split
  · next text' htext => rw [List.cons.inj (htext.symm.trans h) |>.2]
  · next hno => exact absurd h (hno text)

theorem addLine_of_not_tag (h : isTagLine line = false) :
    d.addLine line =
      if d.inTags then
        { d with tags := d.tags.dropLast ++ (d.tags.getLast?.map (·.continued line)).toList }
      else if line = "" then d.endParagraph
      else { d with current := joined "\n" d.current line } := by
  unfold addLine
  split
  · next text htext => simp [isTagLine, htext] at h
  · rfl

/-- Tags have no effect on the paragraphs. -/
theorem endParagraph_of_tags (d : Draft) (inTags : Bool) (tags : List DocTag) :
    { d with inTags := inTags, tags := tags }.endParagraph.paragraphs
      = d.endParagraph.paragraphs := by
  unfold endParagraph
  split <;> rfl

/-- **Text lines.** A paragraph may be open when they are read, and another one behind them. -/
theorem foldl_text (hlines : ∀ l ∈ lines, isTagLine l = false) :
    ∀ (ended : List String) (opened : List String), (∀ l ∈ opened, l ≠ "") →
      ∃ (ps : List (List String)) (d : Draft), Paragraphs (opened ++ lines) ps ∧
        lines.foldl addLine ⟨ended, "\n".intercalate opened, false, []⟩ = d ∧
        d.tags = [] ∧ d.endParagraph.paragraphs = ended ++ ps.map ("\n".intercalate ·) := by
  induction lines with
  | nil =>
    intro ended opened hopened
    -- an open paragraph ends with the lines
    by_cases hempty : opened = []
    · subst hempty
      exact ⟨[], _, .nil, rfl, rfl, by simp [endParagraph]⟩
    · have hjoined := intercalate_ne_empty "\n" hempty hopened
      exact ⟨[opened], _, .run hempty hopened nofun .nil, rfl, rfl, by simp [endParagraph, hjoined]⟩
  | cons l lines ih =>
    intro ended opened hopened
    have ih := ih fun l hl => hlines l (List.mem_cons_of_mem _ hl)
    rw [List.foldl_cons, addLine_of_not_tag (hlines l List.mem_cons_self), if_neg (by simp)]
    by_cases hl : l = ""
    · -- an empty line ends the open paragraph, if there is one
      rw [if_pos hl, endParagraph]
      by_cases hempty : opened = []
      · subst hempty
        obtain ⟨ps, d, hps, hd⟩ := ih ended [] nofun
        exact ⟨ps, d, hl ▸ .blank hps, hd⟩
      · obtain ⟨ps, d, hps, hd, htags, hend⟩ := ih (ended ++ ["\n".intercalate opened]) [] nofun
        refine ⟨opened :: ps, d, .run hempty hopened (by simpa using hl) (hl ▸ .blank hps), ?_,
          htags, ?_⟩
        · rw [if_neg (intercalate_ne_empty "\n" hempty hopened)]
          exact hd
        · rw [hend, List.append_assoc, List.map_cons, List.singleton_append]
    · -- the line goes to the open paragraph, or opens one
      rw [if_neg hl, joined_intercalate "\n" hopened]
      obtain ⟨ps, d, hps, hd⟩ := ih ended (opened ++ [l]) fun l' hl' =>
        (List.mem_append.mp hl').elim (hopened l') fun hmem => by simpa [List.mem_singleton.mp hmem]
      exact ⟨ps, d, by simpa using hps, hd⟩

/-- **Tag lines.** The last tag is the one to which the lines without an at sign belong. -/
theorem foldl_tags (lines : List String) :
    ∀ (d : Draft) (ts : List DocTag) (t : DocTag) (line : String) (behind : List String),
      d.inTags = true → d.tags = ts ++ [t] → IsTagOf t line behind →
      (∀ l ∈ behind, isTagLine l = false) →
      ∃ ts', TagLines (line :: (behind ++ lines)) ts' ∧
        lines.foldl addLine d = { d with tags := ts ++ ts' } := by
  induction lines with
  | nil =>
    intro d ts t line behind hin htags ht hbehind
    exact ⟨[t], .tag ht hbehind .nil, by simp [← htags]⟩
  | cons l lines ih =>
    intro d ts t line behind hin htags ht hbehind
    rw [List.foldl_cons]
    cases hl : isTagLine l with
    | false =>
      -- the line goes to the last tag
      rw [addLine_of_not_tag hl, if_pos hin, htags, List.dropLast_concat, List.getLast?_concat]
      obtain ⟨ts', hts', hd⟩ := ih { d with tags := ts ++ [t.continued l] } ts _ line
        (behind ++ [l]) hin rfl (ht.continued l) fun l' hl' =>
          (List.mem_append.mp hl').elim (hbehind l') fun hmem => by
            rw [List.mem_singleton.mp hmem, hl]
      exact ⟨ts', by simpa using hts', hd⟩
    | true =>
      -- a new tag, behind which nothing goes to the one before
      obtain ⟨text, htext⟩ := exists_text_of_isTagLine hl
      rw [addLine_of_tag htext]
      obtain ⟨ts', hts', hd⟩ := ih { d with inTags := true, tags := d.tags ++ [tagOf text] }
        d.tags _ l [] rfl rfl (isTagOf_tagOf htext) nofun
      refine ⟨t :: ts', .tag ht hbehind hts', ?_⟩
      rw [hd]
      simp [hin, htags]

theorem finish_structured {tagLines : List String} (hps : Paragraphs texts ps)
    (hend : d.endParagraph.paragraphs = ps.map ("\n".intercalate ·))
    (htags : TagLines tagLines d.tags) : d.finish.Structured texts tagLines ps :=
  ⟨hps, by rw [finish, hend], by rw [finish, hend], htags⟩

end Draft

/-! ### Comments -/

theorem mem_of_mem_withoutLead {lead cs : List Char} {c : Char} (h : c ∈ withoutLead lead cs) :
    c ∈ cs := by
  rw [withoutLead] at h
  split at h
  · exact List.mem_of_mem_drop h
  · exact h

/-- The lines of a comment have no line feeds. -/
theorem no_feed_of_mem_commentLines {raw : String} (h : line ∈ commentLines raw) :
    '\n' ∉ line.toList := by
  obtain ⟨l, hl, rfl⟩ := List.mem_map.mp h
  intro hfeed
  -- what is taken from the margin of a line leaves only characters of the line
  rw [withoutMargin] at hfeed
  have hbare := mem_of_mem_withoutLead (by simpa using Text.mem_of_mem_trim hfeed)
  exact Text.no_feed_of_mem_lines hl (Text.mem_of_mem_trim hbare)

/-- The lines fall into two parts at the first tag. -/
theorem exists_text_and_tagLines (lines : List String) :
    ∃ texts tagLines, lines = texts ++ tagLines ∧ (∀ l ∈ texts, isTagLine l = false) ∧
      ∀ l ∈ tagLines.head?, isTagLine l = true := by
  refine ⟨lines.takeWhile (! isTagLine ·), lines.dropWhile (! isTagLine ·),
    List.takeWhile_append_dropWhile.symm, fun l hl => ?_, fun l hl => ?_⟩
  · simpa using List.mem_takeWhile_imp hl
  · have hstop := List.head?_dropWhile_not (! isTagLine ·) lines
    rw [Option.mem_def.mp hl] at hstop
    simpa using hstop

/-- **The structure of doc comments.** The lines of a comment are what is left of it without
delimiters and margins. What is read from the comment has the structure of its lines: the paragraphs
of the text lines, and a tag for every line from the first tag on that begins with an at sign. No
line that is not empty is lost, and none is there twice: the lines of the paragraphs, and those of
summary and description, are the text lines in order, and the words of the tags are those of the tag
lines. -/
theorem parse_structured (raw : String) :
    ∃ (texts tagLines : List String) (ps : List (List String)),
      (∀ lines, IsCommentLines raw lines ↔ lines = texts ++ tagLines) ∧
      commentLines raw = texts ++ tagLines ∧ (∀ l ∈ texts, isTagLine l = false) ∧
      (∀ l ∈ tagLines.head?, isTagLine l = true) ∧ (parse raw).Structured texts tagLines ps ∧
      ps.flatten = texts.filter (· ≠ "") ∧
      (Text.split '\n' (parse raw).summary ++ Text.split '\n' (parse raw).description).filter
        (· ≠ "") = texts.filter (· ≠ "") ∧
      (parse raw).tags.flatMap (fun t => ("@" ++ t.name) :: Text.words t.value)
        = tagLines.flatMap Text.words := by
  obtain ⟨texts, tagLines, hlines, htexts, hhead⟩ := exists_text_and_tagLines (commentLines raw)
  obtain ⟨ps, d, hps, hd, htags, hend⟩ := Draft.foldl_text htexts [] [] nofun
  have hread : parse raw = (tagLines.foldl Draft.addLine d).finish := by
    have hempty : Draft.empty = ⟨[], "\n".intercalate [], false, []⟩ := by
      rw [String.intercalate_nil, Draft.empty]
    rw [parse, hlines, List.foldl_append, hempty, hd]
  -- paragraphs are complete before the first tag
  have hstructured : (parse raw).Structured texts tagLines ps := by
    rw [List.nil_append] at hend
    rw [hread]
    cases tagLines with
    | nil => exact Draft.finish_structured hps hend (by rw [List.foldl_nil, htags]; exact .nil)
    | cons l tagLines =>
      obtain ⟨text, htext⟩ := exists_text_of_isTagLine (hhead l rfl)
      obtain ⟨ts, hts, hfold⟩ := Draft.foldl_tags tagLines
        { d with inTags := true, tags := d.tags ++ [tagOf text] } [] _ l [] rfl (by rw [htags])
        (isTagOf_tagOf htext) nofun
      rw [List.foldl_cons, Draft.addLine_of_tag htext, hfold]
      exact Draft.finish_structured hps ((Draft.endParagraph_of_tags d true _).trans hend) hts
  refine ⟨texts, tagLines, ps, fun lines => by rw [isCommentLines_iff, hlines], hlines, htexts,
    hhead, hstructured, hps.flatten_eq, hstructured.lines_kept fun l hl => ?_,
    hstructured.tags.words⟩
  exact no_feed_of_mem_commentLines (hlines ▸ List.mem_append_left _ hl)

end DocBlock

end Introspect
