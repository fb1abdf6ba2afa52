import AccessPolicy.Proofs.Json.RoundTrip
import AccessPolicy.Proofs.Parse.WellFormed
import AccessPolicy.Proofs.Tree.Merged
import AccessPolicy.Proofs.Tree.RoundTrip

/-!
# Texts of trees

The tree form of a policy set can be written as a text and read back, as far as the reader of JSON
texts goes: it takes `Json.maxLevels` levels of arrays and objects, and every operator of a
condition takes two of them.

* **Levels of conditions** (`Expr.levels_toTree`): an expression of depth `d` takes from `2 * d + 1`
  to `2 * d + 3` levels.
* **Levels of sets** (`PolicySet.levels_toTree_le_iff`): around a condition stand five more.
* **Reading back** (`PolicySet.ofTreeText_of_parse`): the set of a text is read back from the text
  of its tree exactly if these levels are within the limit. The grammar admits deeper conditions
  than the limit does (`PolicySet.ofTreeText_negations`).
-/

namespace AccessPolicy

open Json

/-! ### Plain trees -/

namespace Expr

/-- The tree of a literal has integers in it and no other numbers. -/
theorem plain_literal (l : Literal) : l.toTree.Plain := by
  cases l with
  | bool b => trivial
  | long n =>
      have hlow := n.le_toInt
      have hhigh := n.toInt_lt
      exact ⟨by omega, by omega⟩
  | string s => trivial
  | entity u => exact ⟨⟨trivial, trivial, trivial⟩, trivial⟩

/-- The tree of a piece of a pattern has no numbers at all. -/
theorem plain_glob (g : Glob) : g.toTree.Plain := by
  cases g with
  | wildcard => trivial
  | char c => exact ⟨trivial, trivial⟩

mutual

/-- **The tree of an expression is plain**: an integer of it is a literal, which has 64 bits. -/
theorem plain_toTree : (e : Expr) → e.toTree.Plain
  | .lit l => ⟨plain_literal l, trivial⟩
  | .var _ | .slot _ => ⟨trivial, trivial⟩
  | .unary _ e => ⟨⟨plain_toTree e, trivial⟩, trivial⟩
  | .binary _ a b | .and a b | .or a b =>
      ⟨⟨plain_toTree a, plain_toTree b, trivial⟩, trivial⟩
  | .ite c t e => ⟨⟨plain_toTree c, plain_toTree t, plain_toTree e, trivial⟩, trivial⟩
  | .getAttr e _ | .hasAttr e _ | .is e _ => ⟨⟨plain_toTree e, trivial, trivial⟩, trivial⟩
  | .like e p =>
      have hp : PlainItems (p.map Glob.toTree) :=
        plainItems_iff.mpr (List.forall_mem_map.mpr fun g _ => plain_glob g)
      ⟨⟨plain_toTree e, hp, trivial⟩, trivial⟩
  | .isMem e _ g => ⟨⟨plain_toTree e, trivial, plain_toTree g, trivial⟩, trivial⟩
  | .set items => ⟨plain_toTreeItems items, trivial⟩
  | .record fields => ⟨plain_toTreeFields fields, trivial⟩

theorem plain_toTreeItems : (es : List Expr) → PlainItems (toTreeItems es)
  | [] => trivial
  | e :: es => ⟨plain_toTree e, plain_toTreeItems es⟩

theorem plain_toTreeFields : (fs : List (String × Expr)) → PlainMembers (toTreeFields fs)
  | [] => trivial
  | (_, e) :: fs => ⟨plain_toTree e, plain_toTreeFields fs⟩

end

/-! ### Levels of expressions -/

/-- An entity is the deepest literal, as an object in an object. -/
theorem levels_literal (l : Literal) : l.toTree.levels ≤ 2 := by
  cases l with
  | bool b | long n | string s => exact Nat.zero_le 2
  | entity u => exact Nat.le_refl 2

/-- A wildcard is a text, and a piece of text an object of one member. -/
theorem levels_glob (g : Glob) : g.toTree.levels ≤ 1 := by
  cases g with
  | wildcard => exact Nat.zero_le 1
  | char c => exact Nat.le_refl 1

mutual

/-- **The levels of an expression** are two for each operator on the way to the deepest leaf, and up
to three for the leaf. -/
theorem levels_toTree : (e : Expr) →
    2 * e.depth + 1 ≤ e.toTree.levels ∧ e.toTree.levels ≤ 2 * e.depth + 3
  | .lit l => by
      have hl := levels_literal l
      simp only [toTree, node, levels, levelsMembers, depth]
      omega
  | .var _ | .slot _ => by
      simp only [toTree, node, levels, levelsMembers, depth]
      omega
  -- A node is an object inside an object, which makes two levels for each level of depth.
  | .unary _ e | .getAttr e _ | .hasAttr e _ | .is e _ => by
      have he := levels_toTree e
      simp only [toTree, node, levels, levelsMembers, depth]
      omega
  | .binary _ a b | .and a b | .or a b => by
      have ha := levels_toTree a
      have hb := levels_toTree b
      simp only [toTree, node, pair, levels, levelsMembers, depth]
      omega
  | .isMem e _ g => by
      have he := levels_toTree e
      have hg := levels_toTree g
      simp only [toTree, node, levels, levelsMembers, depth]
      omega
  | .ite c t e => by
      have hc := levels_toTree c
      have ht := levels_toTree t
      have he := levels_toTree e
      simp only [toTree, node, levels, levelsMembers, depth]
      omega
  | .like e p => by
      have he := levels_toTree e
      have hp : levelsItems (p.map Glob.toTree) ≤ 1 :=
        levelsItems_le_iff.mpr (List.forall_mem_map.mpr fun g _ => levels_glob g)
      simp only [toTree, node, levels, levelsMembers, depth]
      omega
  | .set items => by
      have hitems := levels_toTreeItems items
      simp only [toTree, node, levels, levelsMembers, depth]
      omega
  | .record fields => by
      have hfields := levels_toTreeFields fields
      simp only [toTree, node, levels, levelsMembers, depth]
      omega

/-- The trees of items take two levels for each level of the items, give or take one: the array
around them is counted with the expression that it belongs to. -/
theorem levels_toTreeItems : (es : List Expr) →
    2 * depthItems es ≤ levelsItems (toTreeItems es) + 1 ∧
      levelsItems (toTreeItems es) ≤ 2 * depthItems es + 1
  | [] => by
      simp only [toTreeItems, levelsItems, depthItems]
      omega
  | e :: es => by
      have he := levels_toTree e
      have hes := levels_toTreeItems es
      simp only [toTreeItems, levelsItems, depthItems]
      omega

/-- The trees of fields do so too. -/
theorem levels_toTreeFields : (fs : List (String × Expr)) →
    2 * depthFields fs ≤ levelsMembers (toTreeFields fs) + 1 ∧
      levelsMembers (toTreeFields fs) ≤ 2 * depthFields fs + 1
  | [] => by
      simp only [toTreeFields, levelsMembers, depthFields]
      omega
  | (_, e) :: fs => by
      have he := levels_toTree e
      have hfs := levels_toTreeFields fs
      simp only [toTreeFields, levelsMembers, depthFields]
      omega

end

end Expr

/-! ### Scopes -/

/-- A uid is two texts. -/
theorem Uid.plain_toJson (u : Uid) : u.toJson.Plain :=
  ⟨trivial, trivial, trivial⟩

/-- An entity or the name of a slot has no numbers in it. -/
theorem Reference.plain_toTree (r : Reference) : r.toTree.2.Plain := by
  cases r with
  | uid u => exact u.plain_toJson
  | slot s => trivial

/-- A uid takes one level, and the name of a slot none. -/
theorem Reference.levels_toTree (r : Reference) : r.toTree.2.levels ≤ 1 := by
  cases r with
  | uid u => exact Nat.le_refl 1
  | slot s => exact Nat.zero_le 1

/-- A scope has texts and uids in it. -/
theorem Scope.plain_toTree (s : Scope) : s.toTree.Plain := by
  cases s with
  | any => exact ⟨trivial, trivial⟩
  | eq r | mem r => exact ⟨trivial, r.plain_toTree, trivial⟩
  | memAny us =>
      have hus : PlainItems (us.map Uid.toJson) :=
        plainItems_iff.mpr (List.forall_mem_map.mpr fun u _ => u.plain_toJson)
      exact ⟨trivial, hus, trivial⟩
  | is type => exact ⟨trivial, trivial, trivial⟩
  | isMem type r => exact ⟨trivial, trivial, ⟨r.plain_toTree, trivial⟩, trivial⟩

/-- The deepest scope is that of an action with a list of groups. -/
theorem Scope.levels_toTree (s : Scope) : s.toTree.levels ≤ 3 := by
  cases s with
  | any | is type => exact Nat.le_of_ble_eq_true rfl
  | eq r | mem r =>
      have hr := r.levels_toTree
      simp only [toTree, levels, levelsMembers]
      omega
  | memAny us =>
      have hus : levelsItems (us.map Uid.toJson) ≤ 1 :=
        levelsItems_le_iff.mpr (List.forall_mem_map.mpr fun u _ => Nat.le_refl 1)
      simp only [toTree, levels, levelsMembers]
      omega
  | isMem type r =>
      have hr := r.levels_toTree
      simp only [toTree, levels, levelsMembers]
      omega

/-! ### Policies -/

namespace Policy

variable {p : Policy} {n : Nat}

/-- The trees of the parts of a policy are plain. -/
theorem plain_toTree (p : Policy) : p.toTree.Plain := by
  have hconditions : PlainItems (p.conditions.map Clause.toTree) :=
    plainItems_iff.mpr (List.forall_mem_map.mpr fun c _ => ⟨trivial, c.body.plain_toTree, trivial⟩)
  have hnotes : PlainMembers (p.annotations.map fun a => (a.1, .str a.2)) :=
    plainMembers_iff.mpr (List.forall_mem_map.mpr fun _ _ => trivial)
  unfold toTree
  split
  · exact ⟨trivial, p.principal.plain_toTree, p.action.plain_toTree, p.resource.plain_toTree,
      hconditions, trivial⟩
  · exact ⟨trivial, p.principal.plain_toTree, p.action.plain_toTree, p.resource.plain_toTree,
      hconditions, hnotes, trivial⟩

/-- Around a condition of a policy stand three levels, as many as its scope needs. -/
theorem levels_toTree_le_iff (hn : 1 ≤ n) :
    p.toTree.levels ≤ n + 3 ↔ ∀ c ∈ p.conditions, c.body.toTree.levels ≤ n := by
  have hprincipal := p.principal.levels_toTree
  have haction := p.action.levels_toTree
  have hresource := p.resource.levels_toTree
  have hconditions : levelsItems (p.conditions.map Clause.toTree) ≤ n + 1 ↔
      ∀ c ∈ p.conditions, c.body.toTree.levels ≤ n := by
    rw [levelsItems_le_iff, List.forall_mem_map]
    refine forall₂_congr fun c _ => ?_
    simp only [Clause.toTree, levels, levelsMembers]
    omega
  have hnotes : levelsMembers (p.annotations.map fun a => (a.1, .str a.2)) ≤ 0 :=
    levelsMembers_le_iff.mpr (List.forall_mem_map.mpr fun _ _ => Nat.le_refl 0)
  rw [← hconditions]
  unfold toTree
  split
  · simp only [levels, levelsMembers, List.append_nil]
    omega
  · simp only [levels, levelsMembers, List.cons_append, List.nil_append]
    omega

end Policy

/-! ### Sets -/

/-- A link is texts and uids. -/
theorem Link.plain_toTree (l : Link) : l.toTree.Plain := by
  have hvalues : PlainMembers (l.values.map fun v => (v.1.name, v.2.toJson)) :=
    plainMembers_iff.mpr (List.forall_mem_map.mpr fun v _ => v.2.plain_toJson)
  exact ⟨trivial, trivial, hvalues, trivial⟩

/-- The values of a link are objects in an object, inside of the object of the link. -/
theorem Link.levels_toTree (l : Link) : l.toTree.levels ≤ 3 := by
  have hvalues : levelsMembers (l.values.map fun v => (v.1.name, v.2.toJson)) ≤ 1 :=
    levelsMembers_le_iff.mpr (List.forall_mem_map.mpr fun v _ => Nat.le_refl 1)
  simp only [toTree, levels, levelsMembers]
  omega

namespace PolicySet

variable {s : PolicySet} {n : Nat}

/-- **The tree of a set is plain**, so that a text of it is read back as it is. -/
theorem plain_toTree (s : PolicySet) : s.toTree.Plain := by
  have hpolicies : ∀ ps : List Policy, PlainMembers (ps.map fun p => (p.id, p.toTree)) :=
    fun ps => plainMembers_iff.mpr (List.forall_mem_map.mpr fun p _ => p.plain_toTree)
  have hlinks : PlainItems (s.links.map Link.toTree) :=
    plainItems_iff.mpr (List.forall_mem_map.mpr fun l _ => l.plain_toTree)
  exact ⟨hpolicies s.templates, hpolicies s.policies, hlinks, trivial⟩

/-- The conditions of the static policies and the templates. -/
def conditions (s : PolicySet) : List Expr :=
  (s.policies ++ s.templates).flatMap fun p => p.conditions.map (·.body)

/-- **The levels of a set**: around a condition stand five levels, as many as the rest needs. -/
theorem levels_toTree_le_iff (hn : 1 ≤ n) :
    s.toTree.levels ≤ n + 5 ↔ ∀ e ∈ s.conditions, e.toTree.levels ≤ n := by
  have hpolicies : ∀ ps : List Policy, levelsMembers (ps.map fun p => (p.id, p.toTree)) ≤ n + 3 ↔
      ∀ p ∈ ps, ∀ c ∈ p.conditions, c.body.toTree.levels ≤ n := by
    intro ps
    rw [levelsMembers_le_iff, List.forall_mem_map]
    exact forall₂_congr fun p _ => Policy.levels_toTree_le_iff hn
  have hlinks : levelsItems (s.links.map Link.toTree) ≤ 3 :=
    levelsItems_le_iff.mpr (List.forall_mem_map.mpr fun l _ => l.levels_toTree)
  have hsplit : (∀ e ∈ s.conditions, e.toTree.levels ≤ n) ↔
      (∀ p ∈ s.policies, ∀ c ∈ p.conditions, c.body.toTree.levels ≤ n) ∧
        ∀ p ∈ s.templates, ∀ c ∈ p.conditions, c.body.toTree.levels ≤ n := by
    simp only [conditions, List.forall_mem_flatMap, List.forall_mem_append, List.forall_mem_map]
  rw [hsplit, ← hpolicies, ← hpolicies]
  simp only [toTree, levels, levelsMembers]
  omega

/-! ### Reading back -/

/-- **A well-formed set is read back from the text of its tree** if the levels of the tree are
those that the reader takes. -/
theorem ofTreeText_toTree (h : s.WellFormed) : ofTreeText s.toTree.text =
    if s.toTree.levels ≤ maxLevels then .ok s else .error .notJson := by
  rw [ofTreeText, parse?_text s.plain_toTree (merged_toTree h.sound)]
  by_cases hlevels : s.toTree.levels ≤ maxLevels
  · rw [if_pos hlevels, if_pos hlevels]
    exact h.sound.ofTree_toTree h.bindsValid
  · rw [if_neg hlevels, if_neg hlevels]

/-- **The set of a text is read back** from the text of its tree if the tree of every condition
leaves room for five levels, and is refused if one does not. So it is read back if no condition is
deeper than 59, and refused if one is deeper than 60. -/
theorem ofTreeText_of_parse {text : String} (h : parse text = .ok s) :
    (ofTreeText s.toTree.text =
      if ∀ e ∈ s.conditions, e.toTree.levels + 5 ≤ maxLevels then .ok s else .error .notJson) ∧
    ((∀ e ∈ s.conditions, e.depth ≤ 59) → ofTreeText s.toTree.text = .ok s) ∧
    ((∃ e ∈ s.conditions, 60 < e.depth) → ofTreeText s.toTree.text = .error .notJson) := by
  have hread := ofTreeText_toTree (wellFormed_of_parse h)
  have hlevels : s.toTree.levels ≤ maxLevels ↔
      ∀ e ∈ s.conditions, e.toTree.levels + 5 ≤ maxLevels := by
    rw [maxLevels, levels_toTree_le_iff (n := 122) (by decide)]
    exact forall₂_congr fun e _ => by omega
  refine ⟨?_, fun hdepth => ?_, fun ⟨e, he, hdepth⟩ => ?_⟩
  · rw [hread]
    exact if_congr hlevels rfl rfl
  · rw [hread, if_pos (hlevels.mpr fun e he => ?_)]
    have hupper := e.levels_toTree.2
    have hle := hdepth e he
    rw [maxLevels]
    omega
  · rw [hread, if_neg fun hle => ?_]
    have hlower := e.levels_toTree.1
    have hroom := hlevels.mp hle e he
    rw [maxLevels] at hroom
    omega

/-- A policy with a shallow condition is read back. -/
theorem ofTreeText_shallow : ∃ s,
    parse "permit(principal,action,resource) when \x7b !true \x7d;" = .ok s ∧
      ofTreeText s.toTree.text = .ok s := by
  let p : Policy := ⟨"policy0", .permit, .any, .any, .any,
    [⟨.whenTrue, .unary .not (.lit (.bool true))⟩], []⟩
  have hparse : parse "permit(principal,action,resource) when \x7b !true \x7d;" =
      .ok ⟨[p], [], []⟩ := by
    decide +kernel
  have hdepth : ∀ e ∈ conditions ⟨[p], [], []⟩, e.depth ≤ 59 := by decide
  exact ⟨_, hparse, (ofTreeText_of_parse hparse).2.1 hdepth⟩

/-- A policy whose condition is a negation of a negation, and so on, of depth 61. -/
def negations : String :=
  String.ofList ("permit(principal,action,resource) when \x7b ".toList ++
    List.replicate 61 '!' ++ "true \x7d;".toList)

/-- The reader of texts refuses what the writer has written for 61 negations. -/
theorem ofTreeText_negations : ∃ s, parse negations = .ok s ∧
    ofTreeText s.toTree.text = .error .notJson := by
  have hlevels : (parse negations).toOption.any
      (fun s => decide (¬ s.toTree.levels ≤ maxLevels)) = true := by
    decide +kernel
  cases hparse : parse negations with
  | error e =>
      rw [hparse] at hlevels
      cases hlevels
  | ok s =>
      rw [hparse] at hlevels
      refine ⟨s, rfl, ?_⟩
      rw [ofTreeText_toTree (wellFormed_of_parse hparse), if_neg (of_decide_eq_true hlevels)]

end PolicySet

end AccessPolicy
