import Introspect.Text.Blank

/-!
# Doc comments

A `DocBlock` is what a doc comment says: a summary, a description and tags. `DocBlock.parse` reads
it from the raw comment:

* the lines of the comment are taken without delimiters, margins and surrounding blanks
  (`DocBlock.commentLines`);
* they are read one after another (`DocBlock.Draft.addLine`): before the first tag, empty lines end
  paragraphs, of which the first is the summary and the others are the description;
* a line that begins with an at sign begins a tag, and the non-empty lines behind it continue its
  value.

`DocBlock.varType?`, `DocBlock.returnType?` and `DocBlock.paramType?` find the type words of a
block.
-/

namespace Introspect

/-- One tag of a doc comment. -/
structure DocTag where
  /-- The name, without the at sign. -/
  name : String
  /-- The text behind the name, continuation lines joined by blanks. -/
  value : String
  deriving DecidableEq, Repr, Inhabited

/-- The first word of the tag's value. -/
def DocTag.firstWord? (t : DocTag) : Option String :=
  (Text.words t.value).head?

/-- The line behind the text, with the separator between them if there is any text. -/
def DocBlock.joined (sep text line : String) : String :=
  if text = "" then line else text ++ sep ++ line

/-- The tag with one more line of its value; an empty line adds nothing. -/
def DocTag.continued (t : DocTag) (line : String) : DocTag :=
  if line = "" then t else { t with value := DocBlock.joined " " t.value line }

/-- What a doc comment says. -/
structure DocBlock where
  /-- The first paragraph. -/
  summary : String
  /-- The other paragraphs. -/
  description : String
  /-- The tags in order. -/
  tags : List DocTag
  deriving DecidableEq, Repr, Inhabited

namespace DocBlock

/-! ### Reading a comment -/

/-- Without `lead` at the beginning, if it stands there. -/
def withoutLead (lead cs : List Char) : List Char :=
  if lead.isPrefixOf cs then cs.drop lead.length else cs

/-- Without `tail` at the end, if it stands there. -/
def withoutTail (tail cs : List Char) : List Char :=
  (withoutLead tail.reverse cs.reverse).reverse

/-- A line without surrounding blanks and without the star of the margin. -/
def withoutMargin (line : String) : String :=
  Text.trim (String.ofList (withoutLead ['*'] (Text.trim line).toList))

/-- **Comment lines.** The lines between the delimiters, each without margin and blanks. -/
def commentLines (raw : String) : List String :=
  let body := withoutTail "*/".toList (withoutLead "/**".toList (Text.trim raw).toList)
  (Text.lines (String.ofList body)).map withoutMargin

/-- The tag that begins with the text behind an at sign. -/
def tagOf (text : List Char) : DocTag :=
  let name := text.takeWhile (! Text.isBlank ·)
  ⟨String.ofList name, Text.trim (String.ofList (text.drop name.length))⟩

/-- What has been read of a comment. -/
structure Draft where
  /-- The paragraphs that have ended. -/
  paragraphs : List String
  /-- The paragraph that has not ended yet. -/
  current : String
  /-- Whether there was a tag. -/
  inTags : Bool
  /-- The tags in order. -/
  tags : List DocTag

namespace Draft

/-- Nothing has been read. -/
def empty : Draft where
  paragraphs := []
  current := ""
  inTags := false
  tags := []

/-- Ends the paragraph, if there is one. -/
def endParagraph (d : Draft) : Draft :=
  if d.current = "" then d
  else { d with paragraphs := d.paragraphs ++ [d.current], current := "" }

/-- **One line.** It begins a tag, continues the last one, ends a paragraph or continues it. -/
def addLine (d : Draft) (line : String) : Draft :=
  match line.toList with
  -- The paragraph in front of the first tag is ended at the end of the comment.
  | '@' :: text => { d with inTags := true, tags := d.tags ++ [tagOf text] }
  | _ =>
    if d.inTags then
      { d with tags := d.tags.dropLast ++ (d.tags.getLast?.map (·.continued line)).toList }
    else if line = "" then d.endParagraph
    else { d with current := joined "\n" d.current line }

/-- What the comment says, at its end. -/
def finish (d : Draft) : DocBlock :=
  let paragraphs := d.endParagraph.paragraphs
  { summary := paragraphs.headD "", description := "\n\n".intercalate paragraphs.tail,
    tags := d.tags }

end Draft

/-- **Parsing.** What a raw doc comment says. -/
def parse (raw : String) : DocBlock :=
  ((commentLines raw).foldl Draft.addLine Draft.empty).finish

/-! ### Types in tags -/

/-- The first tag of a name; names are compared letter by letter. -/
def tag? (b : DocBlock) (name : String) : Option DocTag :=
  b.tags.find? (·.name == name)

/-- All tags of a name, in order. -/
def tagsNamed (b : DocBlock) (name : String) : List DocTag :=
  b.tags.filter (·.name == name)

/-- The type word of the first `var` tag. -/
def varType? (b : DocBlock) : Option String :=
  (b.tag? "var").bind (·.firstWord?)

/-- The type word of the first `return` tag. -/
def returnType? (b : DocBlock) : Option String :=
  (b.tag? "return").bind (·.firstWord?)

/-- Without leading groups of three points. -/
def withoutEllipses : List Char → List Char
  | '.' :: '.' :: '.' :: cs => withoutEllipses cs
  | cs => cs

/-- The variable that the second word of a `param` tag names: reference and variadic marks and
dollar signs in front of it do not count. -/
def documentedName (word : String) : String :=
  let plain := withoutEllipses (word.toList.dropWhile (· == '&'))
  String.ofList (plain.dropWhile (· == '$'))

/-- The type word of a `param` tag for the variable, if the tag has a type and names it. -/
def paramTagType? (wanted : String) (t : DocTag) : Option String :=
  match Text.words t.value with
  | type :: name :: _ => if documentedName name = wanted then some type else none
  | _ => none

/-- The type word of the first `param` tag that names the variable. -/
def paramType? (b : DocBlock) (variableName : String) : Option String :=
  (b.tagsNamed "param").findSome? (paramTagType? (Text.dropLeading '$' variableName))

end DocBlock

end Introspect
