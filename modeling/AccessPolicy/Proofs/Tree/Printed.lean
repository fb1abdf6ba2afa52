import AccessPolicy.Proofs.Parse.Format
import AccessPolicy.Proofs.Tree.Decoded
import AccessPolicy.Proofs.Tree.Merged

/-!
# The text of what was read from a tree

The decoder of trees takes any type name for the type of an entity. The grammar does not: `true` and
`false` are truth values wherever an operand may stand, and `if` makes a condition where a full
expression begins, also in front of `::`.

* **A set that was read from a tree is read back from its text exactly if its conditions are
  legible** (`PolicySet.parse_print_of_ofTree`), as far as its conditions are not too deep for the
  grammar. They are legible if no type of an entity in them begins with one of the three words.
* `PolicySet.not_parse_print_of_ofTree` — a tree with an entity of type `true`, whose text is no
  policy set.
-/

namespace AccessPolicy

/-! ### Entities whose types begin with a word of expressions -/

namespace Expr

/-- No entity in an expression has a type that begins with a word that opens an expression. -/
def NamesNoWord (e : Expr) : Prop :=
  ∀ u : Uid, lit (.entity u) ∈ e.parts →
    (Name.segments u.type).headD "" ∉ ["true", "false", "if"]

/-- A valid expression without such entities is printable. -/
theorem NamesNoWord.printable {e : Expr} (h : e.NamesNoWord) (hvalid : e.Valid) :
    e.Printable := by
  intro q hq
  have hhere := hvalid q hq
  unfold isPrintableHere
  split
  · rename_i u
    have hword : List.contains ["true", "false", "if"] ((Name.segments u.type).headD "") = false :=
      Bool.eq_false_iff.mpr fun hmem => h u hq (List.contains_iff_mem.mp hmem)
    rw [hword]
    exact Bool.and_eq_true_iff.mpr ⟨hhere, rfl⟩
  · exact hhere
  · exact hhere
  · exact hhere
  · rfl

end Expr

namespace PolicySet

variable {s : PolicySet}

/-- A well-formed set is read back from its text if its conditions are legible and not too deep. -/
theorem WellFormed.parse_print_of_legible (hs : s.WellFormed) (hlinks : s.links = [])
    (hdepth : ∀ p ∈ s.policies ++ s.templates, ∀ c ∈ p.conditions, c.body.depth ≤ 64)
    (hlegible : ∀ p ∈ s.policies ++ s.templates, ∀ c ∈ p.conditions,
      c.body.Legible ∧ c.body.Full) (options : LayoutOptions) :
    parse (s.print options) = .ok s := by
  have hpolicies : ∀ p ∈ s.policies ++ s.templates, p.Legible := by
    intro p hp
    rcases List.mem_append.mp hp with hstatic | htemplate
    · exact ⟨(hs.policies p hstatic).1.toShaped, hlegible p hp⟩
    · exact ⟨(hs.templates p htemplate).1.toShaped, hlegible p hp⟩
  have hread := parse_print_of hpolicies (hs.addAll_eq_ok hlinks) options False ?_
  · exact hread.resolve_right And.left
  · intro p hp c hc hdeep
    exact absurd (hdepth p hp c hc) (Nat.not_le_of_lt hdeep.lt_depth)

/-- **The text of what was read from a tree.** A set without links that was read from a tree, and
whose conditions have a depth of at most 64, is read back from its text, in every layout, exactly if
each of its conditions is legible and can be read where a full expression begins; which is so if no
entity in it has a type that begins with `true`, `false` or `if`. -/
theorem parse_print_of_ofTree {v : Json} (hv : v.Merged) (h : ofTree v = .ok s)
    (hlinks : s.links = [])
    (hdepth : ∀ p ∈ s.policies ++ s.templates, ∀ c ∈ p.conditions, c.body.depth ≤ 64)
    (options : LayoutOptions) :
    (parse (s.print options) = .ok s ↔
      ∀ p ∈ s.policies ++ s.templates, ∀ c ∈ p.conditions, c.body.Legible ∧ c.body.Full) ∧
    ((∀ p ∈ s.policies ++ s.templates, ∀ c ∈ p.conditions, c.body.NamesNoWord) →
      parse (s.print options) = .ok s) := by
  have hwellFormed := wellFormed_of_ofTree hv h
  have hback := fun hlegible => hwellFormed.parse_print_of_legible hlinks hdepth hlegible options
  refine ⟨⟨fun hparse p hp => ?_, hback⟩, fun hwords => hback fun p hp c hc => ?_⟩
  · exact ((parsed_of_parse hparse).2 p hp).legible.conditions
  · have hvalid : c.body.Valid := by
      rcases List.mem_append.mp hp with hstatic | htemplate
      · exact ((hwellFormed.policies p hstatic).1.conditions c hc).1
      · exact ((hwellFormed.templates p htemplate).1.conditions c hc).1
    have hprintable := (hwords p hp c hc).printable hvalid
    exact ⟨hprintable.legible, hprintable.full⟩

/-- A policy with one condition. -/
def conditionPolicy (body : Expr) : Policy :=
  ⟨"policy0", .permit, .any, .any, .any, [⟨.whenTrue, body⟩], []⟩

/-- A set of one policy with one condition. -/
def conditionSet (body : Expr) : PolicySet :=
  ⟨[conditionPolicy body], [], []⟩

theorem wellFormed_conditionSet {body : Expr} (hvalid : body.Valid)
    (hdepth : body.depth ≤ Grammar.nestingLimit)
    (hstatic : (conditionPolicy body).isTemplate = false) : (conditionSet body).WellFormed := by
  have hpolicy : (conditionPolicy body).WellFormed := by
    refine ⟨⟨rfl, rfl, rfl, List.forall_mem_nil _, .nil⟩, ?_⟩
    exact List.forall_mem_singleton.mpr ⟨hvalid, hdepth⟩
  refine ⟨List.pairwise_singleton _ _, ?_, List.forall_mem_nil _, List.forall_mem_nil _⟩
  exact List.forall_mem_singleton.mpr ⟨hpolicy, hstatic⟩

/-- An entity whose type begins with the name of a variable is read back. -/
theorem parse_print_of_ofTree_variable :
    let s := conditionSet
      (.binary .eq (.lit (.entity ⟨"principal::Group", "x"⟩)) (.var .principal))
    s.toTree.Merged ∧ ofTree s.toTree = .ok s ∧ parse (s.print .standard) = .ok s := by
  intro s
  have hs : s.WellFormed :=
    wellFormed_conditionSet (by decide +kernel) (by decide) (by decide +kernel)
  have hread : ofTree s.toTree = .ok s := by decide +kernel
  have hmerged : s.toTree.Merged := merged_toTree hs.sound
  refine ⟨hmerged, hread, (parse_print_of_ofTree hmerged hread rfl ?_ .standard).2 ?_⟩
  · decide +kernel
  · intro p hp c hc u hu
    obtain rfl := List.mem_singleton.mp hp
    obtain rfl := List.mem_singleton.mp hc
    obtain rfl : u = ⟨"principal::Group", "x"⟩ := by simpa [Expr.parts] using hu
    decide +kernel

/-- **A tree whose text is no policy set**: `true` in front of `::` is read as a truth value. -/
theorem not_parse_print_of_ofTree : ¬ ∀ (v : Json) (s : PolicySet), v.Merged → ofTree v = .ok s →
    s.links = [] →
    (∀ p ∈ s.policies ++ s.templates, ∀ c ∈ p.conditions, c.body.depth ≤ 64) →
    parse s.text = .ok s := by
  intro h
  let s := conditionSet (.lit (.entity ⟨"true", "x"⟩))
  have hread : ofTree s.toTree = .ok s := by decide +kernel
  have hmerged : s.toTree.Merged :=
    merged_toTree (wellFormed_conditionSet (by decide +kernel) (by decide) (by decide +kernel)).sound
  have hparse := h s.toTree s hmerged hread rfl (by decide +kernel)
  have hnone : (parse s.text).toOption.isNone := by decide +kernel
  rw [hparse] at hnone
  cases hnone

end PolicySet

end AccessPolicy
