import AccessPolicy.Proofs.Layout.Adds
import Mathlib.Logic.Relation

/-!
# Laying out turn by turn

`Doc.layout` is a recursion over the document. A printer with a stack of documents to come does the
same work turn by turn, and only there can one speak of the moment at which a group is decided.

* `Doc.turn?` — one turn: the document on top of the stack is written, or replaced by its parts; a
  group is replaced by its content in the mode that the look-ahead decides on.
* **Agreement** (`Doc.turns_layout`, `Doc.render_eq_of_turns`): the turns from a document alone end,
  with an empty stack and the page that `layout` writes, and whatever is reached on the way goes on
  to that end (`Doc.Turns.to_end`).
-/

namespace AccessPolicy.Doc

/-- A document to come, with its indentation and mode. -/
structure Task where
  indent : Nat
  mode : Mode
  doc : Doc

/-- What the look-ahead sees of a task. -/
def Task.ahead (t : Task) : Mode × Doc :=
  (t.mode, t.doc)

/-- The tasks to come and what has been written. -/
structure State where
  stack : List Task
  page : Page

/-- Nothing written, and the document to come. -/
def State.start (d : Doc) : State :=
  ⟨[⟨0, .broken, d⟩], ⟨[], 0⟩⟩

/-- The mode in which the content of a group is laid out. -/
def groupMode (width column : Nat) (mode : Mode) (g : Doc) (rest : List Task) : Mode :=
  if mode = .flat ∨ fits (columnsLeft width column) g (rest.map Task.ahead) then .flat else .broken

/-- One turn, unless nothing is to come. -/
def turn? (width : Nat) : State → Option State
  | ⟨[], _⟩ => none
  | ⟨⟨indent, mode, d⟩ :: rest, p⟩ =>
    match d with
    | empty => some ⟨rest, p⟩
    | text s => some ⟨rest, p.write s⟩
    | line => some ⟨rest, if mode = .flat then p.write " " else p.newline indent⟩
    | softLine => some ⟨rest, if mode = .flat then p else p.newline indent⟩
    | hardLine => some ⟨rest, p.newline indent⟩
    | append a b => some ⟨⟨indent, mode, a⟩ :: ⟨indent, mode, b⟩ :: rest, p⟩
    | nest n d => some ⟨⟨indent + n, mode, d⟩ :: rest, p⟩
    | group g => some ⟨⟨indent, groupMode width p.column mode g rest, g⟩ :: rest, p⟩

/-- Any number of turns. -/
def Turns (width : Nat) : State → State → Prop :=
  Relation.ReflTransGen fun s t => turn? width s = some t

variable {width : Nat} {d : Doc} {s : State}

theorem Turns.head {t u : State} (h : turn? width s = some t) (hs : Turns width t u) :
    Turns width s u :=
  Relation.ReflTransGen.head h hs

/-- **Agreement**: after some turns the document on top of the stack has been laid out in front of
the others. -/
theorem turns_layout (d : Doc) (indent : Nat) (mode : Mode) (rest : List Task) (p : Page) :
    Turns width ⟨⟨indent, mode, d⟩ :: rest, p⟩
      ⟨rest, layout width d indent mode (rest.map Task.ahead) p⟩ := by
  induction d generalizing indent mode rest p with
  | empty => exact Turns.head rfl .refl
  | text s => exact Turns.head rfl .refl
  | line => exact Turns.head rfl .refl
  | softLine => exact Turns.head rfl .refl
  | hardLine => exact Turns.head rfl .refl
  | append a b iha ihb =>
      refine Turns.head rfl ((iha indent mode (⟨indent, mode, b⟩ :: rest) p).trans ?_)
      exact ihb indent mode rest _
  | nest n d ih => exact Turns.head rfl (ih (indent + n) mode rest p)
  | group g ih =>
      refine Turns.head rfl ?_
      have h := ih indent (groupMode width p.column mode g rest) rest p
      rw [layout]
      unfold groupMode at h ⊢
      split at h
      · rename_i hflat
        rwa [if_pos hflat, if_pos hflat]
      · rename_i hbroken
        rwa [if_neg hbroken, if_neg hbroken]

/-- Whatever is reached from a document goes on to the page that `layout` writes. -/
theorem Turns.to_end (h : Turns width (.start d) s) :
    Turns width s ⟨[], layout width d 0 .broken [] ⟨[], 0⟩⟩ := by
  have hend : Turns width (.start d) ⟨[], layout width d 0 .broken [] ⟨[], 0⟩⟩ :=
    turns_layout d 0 .broken [] ⟨[], 0⟩
  have unique : Relator.RightUnique fun s t => turn? width s = some t := by
    intro s t u ht hu
    exact Option.some.inj (ht.symm.trans hu)
  rcases Relation.ReflTransGen.total_of_right_unique unique h hend with hgo | hback
  · exact hgo
  · -- nothing is to come at the end
    rcases Relation.ReflTransGen.cases_head hback with heq | ⟨t, ht, -⟩
    · exact heq ▸ Relation.ReflTransGen.refl
    · exact nomatch ht

/-- What is written when nothing is to come is the text of the document. -/
theorem render_eq_of_turns {p : Page} (h : Turns width (.start d) ⟨[], p⟩) :
    (d.render width).toList = p.text := by
  rcases Relation.ReflTransGen.cases_head h.to_end with heq | ⟨t, ht, -⟩
  · cases heq
    exact String.toList_ofList
  · exact nomatch ht

end AccessPolicy.Doc
