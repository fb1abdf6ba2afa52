import AccessPolicy.Json.Shape

/-!
# Documents with optional line breaks

A document says where its text may be broken. A group is laid out flat, its lines as spaces, when it
fits into what is left of the line together with the text that follows it up to the next line that
is broken; otherwise its lines are newlines, indented by the nesting around them. Newlines take the
blanks before them away.

`LayoutOptions` are the width that lines should not exceed and the width of one indentation.
`Doc.layout` walks through the document; the documents still to come are handed down to it, because
the test `fits` has to look ahead into them.
-/

namespace AccessPolicy

/-! ### Options -/

/-- How policies are printed. -/
structure LayoutOptions where
  /-- The columns of a line. -/
  lineWidth : Nat
  /-- The columns of one indentation. -/
  indentWidth : Nat
deriving DecidableEq

namespace LayoutOptions

/-- Lines of 88 columns, indented by two. -/
def standard : LayoutOptions :=
  ⟨88, 2⟩

/-- The fields of the JSON form. -/
def fields : List (Json.Field LayoutOptions) :=
  [⟨"line_width", false, fun v o => (Json.asSize v).map fun n => { o with lineWidth := n }⟩,
   ⟨"indent_width", false, fun v o => (Json.asSize v).map fun n => { o with indentWidth := n }⟩]

/-- Decode the JSON form; fields that are missing keep their standard. -/
def decode (v : Json) : Except Json.Fault LayoutOptions :=
  Json.readRecord ⟨false, false⟩ fields standard v

/-- The JSON form. -/
def toJson (o : LayoutOptions) : Json :=
  .obj [("line_width", .int o.lineWidth), ("indent_width", .int o.indentWidth)]

end LayoutOptions

/-! ### Documents -/

/-- A text with optional line breaks. -/
inductive Doc
  | empty
  | text (s : String)
  /-- A space when flat. -/
  | line
  /-- Nothing when flat. -/
  | softLine
  /-- A newline, never flat. -/
  | hardLine
  | append (a b : Doc)
  /-- More indentation inside. -/
  | nest (by_ : Nat) (d : Doc)
  /-- Flat as a whole, if it fits. -/
  | group (d : Doc)

namespace Doc

instance : Append Doc := ⟨append⟩

/-- Documents one after another. -/
def concat : List Doc → Doc
  | [] => empty
  | d :: ds => d ++ concat ds

/-- Documents with a separator between them. -/
def join (separator : Doc) : List Doc → Doc
  | [] => empty
  | [d] => d
  | d :: ds => d ++ separator ++ join separator ds

/-- How lines are laid out. -/
inductive Mode
  | flat
  | broken
deriving DecidableEq

/-! ### Measuring -/

/-- The state of a measurement. -/
inductive Room
  /-- So many columns are left. -/
  | left (columns : Int)
  /-- The text has run out of columns. -/
  | exceeded
  /-- A line that is broken comes first. -/
  | ended
deriving DecidableEq

/-- Use up columns. -/
def Room.take (columns width : Int) : Room :=
  if columns - width < 0 then exceeded else left (columns - width)

/-- The room that is left behind a document. -/
def measure (mode : Mode) : Doc → Room → Room
  | _, .exceeded => .exceeded
  | _, .ended => .ended
  | empty, r => r
  | text s, .left n => Room.take n s.length
  | line, .left n => if mode = .flat then Room.take n 1 else .ended
  | softLine, .left n => if mode = .flat then .left n else .ended
  | hardLine, .left _ => if mode = .flat then .exceeded else .ended
  | append a b, r => measure mode b (measure mode a r)
  | nest _ d, r => measure mode d r
  | group d, r => measure mode d r

/-- The room that is left behind the documents to come. -/
def measureAll : List (Mode × Doc) → Room → Room
  | [], r => r
  | (mode, d) :: ds, r => measureAll ds (measure mode d r)

/-- Whether a document fits flat into some columns, with what follows it up to the next line that is
broken. -/
def fits (columns : Int) (d : Doc) (rest : List (Mode × Doc)) : Bool :=
  if columns < 0 then false
  else
    match measureAll ((.flat, d) :: rest) (.left columns) with
    | .exceeded => false
    | _ => true

/-! ### Laying out -/

/-- What has been written. -/
structure Page where
  /-- The characters, the last one first. -/
  written : List Char
  /-- The columns of the current line. -/
  column : Nat

/-- Start a line. -/
def Page.newline (p : Page) (indent : Nat) : Page :=
  ⟨List.replicate indent ' ' ++ '\n' :: p.written.dropWhile (· == ' '), indent⟩

/-- Write a text. -/
def Page.write (p : Page) (s : String) : Page :=
  ⟨s.toList.reverseAux p.written, p.column + s.length⟩

/-- The columns that are left of a line, as a signed 64-bit number. -/
def columnsLeft (width column : Nat) : Int :=
  let n := width - column
  if n < 9223372036854775808 then n else (n : Int) - 18446744073709551616

/-- Lay a document out in front of the documents to come. -/
def layout (width : Nat) : Doc → (indent : Nat) → Mode → (rest : List (Mode × Doc)) → Page → Page
  | empty, _, _, _, p => p
  | text s, _, _, _, p => p.write s
  | line, indent, mode, _, p => if mode = .flat then p.write " " else p.newline indent
  | softLine, indent, mode, _, p => if mode = .flat then p else p.newline indent
  | hardLine, indent, _, _, p => p.newline indent
  | append a b, indent, mode, rest, p =>
    layout width b indent mode rest (layout width a indent mode ((mode, b) :: rest) p)
  | nest n d, indent, mode, rest, p => layout width d (indent + n) mode rest p
  | group d, indent, mode, rest, p =>
    if mode = .flat ∨ fits (columnsLeft width p.column) d rest then
      layout width d indent .flat rest p
    else layout width d indent .broken rest p

/-- The text of a document at a line width. -/
def render (d : Doc) (width : Nat) : String :=
  String.ofList (layout width d 0 .broken [] ⟨[], 0⟩).written.reverse

end Doc

end AccessPolicy
