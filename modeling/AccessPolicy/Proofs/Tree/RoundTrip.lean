import AccessPolicy.Proofs.Except
import AccessPolicy.Proofs.Json.Merge
import AccessPolicy.Proofs.Policy.WellFormed
import AccessPolicy.Tree.Decode

/-!
# Trees decode to what they encode

* `Expr.sub_of_find` — the reader of a member is the decoder of its value, so that a node is decoded
  from the trees of its operands (`Expr.ofNode_unary`, `Expr.ofNode_binary`).
* **Expressions decode** (`Expr.ofTree_toTree`), at every path, and so do scopes
  (`Tree.scope_toTree`) and policies (`Tree.policy_toTree`) of the shapes that can be written.
* **Sets decode** (`PolicySet.Sound.ofTree_toTree`): the static policies, then the templates, then
  the links come back in their orders, if the links bind valid uids; and only then
  (`PolicySet.bindsValid_of_ofTree`).
-/

namespace AccessPolicy

open Json (Path)

/-! ### Single values -/

namespace Tree

theorem object_obj (ms : List (String × Json)) (path : Path) : object (.obj ms) path = .ok ms :=
  rfl

theorem string_str (s : String) (path : Path) : string (.str s) path = .ok s :=
  rfl

/-- The tree of a uid is decoded to what its parts make. -/
theorem uid_toJson_eq (u : Uid) (path : Path) : uid u.toJson path =
    match Uid.ofParts u.type u.id with
    | .ok u => .ok u
    | .error e => mismatch (path.member "type") e.message := by
  obtain ⟨ms, htree, hbare, htype, hid⟩ : ∃ ms, u.toJson = .obj ms ∧
      Json.find? Value.entityKey ms = none ∧ field ms "type" path = .ok (.str u.type) ∧
        field ms "id" path = .ok (.str u.id) :=
    ⟨_, rfl, rfl, rfl, rfl⟩
  unfold uid
  simp only [htree, object_obj, ok_bind, hbare]
  change (field ms "type" path >>= fun v => _) = _
  simp only [htype, hid, ok_bind, string_str]
  rfl

/-- The tree of a valid uid is decoded. -/
theorem uid_toJson {u : Uid} (h : u.isValid) (path : Path) : uid u.toJson path = .ok u := by
  have hparts : Uid.ofParts u.type u.id = .ok u := if_pos h
  rw [uid_toJson_eq, hparts]

/-- The tree of a uid is not decoded unless the uid is valid. -/
theorem isValid_of_uid_toJson {u v : Uid} {path : Path} (h : uid u.toJson path = .ok v) :
    u.isValid := by
  by_contra hinvalid
  have hparts : Uid.ofParts u.type u.id = .error _ := if_neg hinvalid
  rw [uid_toJson_eq, hparts] at h
  cases h

/-- A type name that is there is read as itself. -/
theorem typeName_of_find {members : List (String × Json)} {type : String}
    (h : Json.find? "entity_type" members = some (.str type)) (htype : Name.isTypeName type)
    (path : Path) : typeName members path = .ok type := by
  unfold typeName field
  rw [h]
  exact if_pos htype

/-- A list of encoded values is decoded item by item. -/
theorem eachItem_map {α : Type} {read : Json → Path → Except Error α} {write : α → Json}
    {xs : List α} (h : ∀ x ∈ xs, ∀ path, read (write x) path = .ok x) :
    ∀ (index : Nat) (path : Path), eachItem read (xs.map write) index path = .ok xs := by
  induction xs with
  | nil => exact fun _ _ => rfl
  | cons x xs ih =>
      intro index path
      have hrest := ih (fun y hy => h y (List.mem_cons_of_mem x hy)) (index + 1) path
      rw [List.map_cons, eachItem, h x List.mem_cons_self]
      simp only [hrest, Except.map]

end Tree

/-! ### Expressions

A node is an object with one key, and the decoder has a branch for each key. One equation for each
branch says which parts it asks for and in which order, so that the induction need not unfold the
decoder. -/

namespace Expr

open AccessPolicy.Tree

/-- A literal that can be written reads back from its tree. -/
theorem ofLiteral_toTree {l : Literal} (h : (lit l).isValidHere) (path : Path) :
    ofLiteral l.toTree path = .ok (lit l) := by
  cases l with
  | bool b => rfl
  | string s => rfl
  | long n => rw [Literal.toTree, ofLiteral, Long.ofInt?_toInt]
  | entity u =>
      have hkey : Json.hasKey Value.entityKey [(Value.entityKey, u.toJson)] := rfl
      have hu : Tree.uid (.obj [(Value.entityKey, u.toJson)]) path = .ok u := uid_toJson h path
      rw [Literal.toTree, ofLiteral, if_pos hkey, hu]
      rfl

theorem glob_toTree (g : Glob) (path : Path) : glob g.toTree path = .ok g := by
  cases g with
  | wildcard => rfl
  | char c =>
      have hc : (String.singleton c).toList = [c] := String.toList_singleton c
      have hfield : field [("Literal", .str (String.singleton c))] "Literal" path =
          .ok (.str (String.singleton c)) := rfl
      unfold glob
      simp only [Glob.toTree, hfield, ok_bind, string_str, hc]
      rfl

section nodes

variable {body : Json} {parts : Parts} {path : Path}

/-- A unary operation is decoded from its operand. -/
theorem ofNode_unary (op : UnaryOp) : ofNode op.key body parts path = (do
    let e ← parts.sub body (path.member op.key) "arg"
    pure (unary op e)) := by
  cases op <;> rfl

/-- A binary operation is decoded from its two operands, the left one first. -/
theorem ofNode_binary (op : BinaryOp) : ofNode op.symbol body parts path = (do
    let a ← parts.sub body (path.member op.symbol) "left"
    let b ← parts.sub body (path.member op.symbol) "right"
    pure (binary op a b)) := by
  cases op <;> rfl

/-- A conjunction is decoded as a binary operation is. -/
theorem ofNode_and : ofNode "&&" body parts path = (do
    let a ← parts.sub body (path.member "&&") "left"
    let b ← parts.sub body (path.member "&&") "right"
    pure (.and a b)) :=
  rfl

/-- A disjunction is decoded as a binary operation is. -/
theorem ofNode_or : ofNode "||" body parts path = (do
    let a ← parts.sub body (path.member "||") "left"
    let b ← parts.sub body (path.member "||") "right"
    pure (.or a b)) :=
  rfl

/-- A conditional is decoded from its condition and its two branches. -/
theorem ofNode_ite : ofNode "if-then-else" body parts path = (do
    let c ← parts.sub body (path.member "if-then-else") "if"
    let t ← parts.sub body (path.member "if-then-else") "then"
    let e ← parts.sub body (path.member "if-then-else") "else"
    pure (ite c t e)) :=
  rfl

/-- Access to an attribute is decoded from its operand, then the name. -/
theorem ofNode_getAttr : ofNode "." body parts path = (do
    let e ← parts.sub body (path.member ".") "left"
    let n ← attrName body (path.member ".")
    pure (getAttr e n)) :=
  rfl

/-- A match is decoded from its pattern, then its operand. -/
theorem ofNode_like : ofNode "like" body parts path = (do
    let members ← object body (path.member "like")
    let items ← array (← field members "pattern" (path.member "like"))
      ((path.member "like").member "pattern")
    let globs ← eachItem glob items 0 ((path.member "like").member "pattern")
    let e ← parts.sub body (path.member "like") "left"
    pure (like e globs)) :=
  rfl

/-- A type test is decoded from the type name, then its operand, and the group if there is one. -/
theorem ofNode_is : ofNode "is" body parts path = (do
    let members ← object body (path.member "is")
    let type ← Tree.typeName members (path.member "is")
    let e ← parts.sub body (path.member "is") "left"
    if Json.hasKey "in" members then
      let g ← parts.sub body (path.member "is") "in"
      pure (isMem e type g)
    else pure (is e type)) :=
  rfl

/-- A set is decoded item by item. -/
theorem ofNode_set : ofNode "Set" body parts path = (do
    let _ ← array body (path.member "Set")
    let items ← runItems parts.items 0 (path.member "Set")
    pure (set items)) :=
  rfl

/-- A record is decoded member by member. -/
theorem ofNode_record : ofNode "Record" body parts path = (do
    let _ ← object body (path.member "Record")
    let fields ← runMembers parts.members (path.member "Record")
    pure (record fields)) :=
  rfl

/-- A test for an attribute is decoded from its operand, then the name. -/
theorem ofNode_hasAttr : ofNode "has" body parts path = (do
    let e ← parts.sub body (path.member "has") "left"
    let n ← attrName body (path.member "has")
    pure (hasAttr e n)) :=
  rfl

/-- The reader of a member is the decoder of its value. -/
theorem sub_of_find {members : List (String × Json)} {key : String} {v : Json}
    (h : Json.find? key members = some v) :
    (partsOf (.obj members)).sub (.obj members) path key = ofTree v (path.member key) := by
  have hfind : (memberReaders members).find? (·.1 = key) = some (key, ofTree v) := by
    induction members with
    | nil => cases h
    | cons m ms ih =>
        obtain ⟨k, w⟩ := m
        rw [memberReaders, List.find?_cons]
        rw [Json.find?] at h
        by_cases hk : k = key
        · rw [if_pos hk] at h
          cases h
          simp [hk]
        · rw [if_neg hk] at h
          simp only [hk, decide_false]
          exact ih h
  rw [Parts.sub, partsOf, hfind]
  rfl

end nodes

mutual

/-- **A tree decodes to the expression that it encodes**, at every path. -/
theorem ofTree_toTree : (e : Expr) → e.Valid → (path : Path) → ofTree e.toTree path = .ok e
  | .lit l, h, path => by
      have hnode : ofTree (Expr.lit l).toTree path = ofLiteral l.toTree (path.member "Value") := rfl
      rw [hnode, ofLiteral_toTree h.here]
  | .var v, _, path => by cases v <;> rfl
  | .slot s, _, path => by cases s <;> rfl
  | .unary op e, h, path => by
      have he := ofTree_toTree e (h.operand (by simp [operands]))
      rw [toTree, node, ofTree, ofNode_unary, sub_of_find rfl, he]
      rfl
  | .binary op a b, h, path => by
      have ha := ofTree_toTree a (h.operand (by simp [operands]))
      have hb := ofTree_toTree b (h.operand (by simp [operands]))
      rw [toTree, node, ofTree, ofNode_binary, pair, sub_of_find rfl, sub_of_find rfl, ha, hb]
      rfl
  | .and a b, h, path => by
      have ha := ofTree_toTree a (h.operand (by simp [operands]))
      have hb := ofTree_toTree b (h.operand (by simp [operands]))
      rw [toTree, node, ofTree, ofNode_and, pair, sub_of_find rfl, sub_of_find rfl, ha, hb]
      rfl
  | .or a b, h, path => by
      have ha := ofTree_toTree a (h.operand (by simp [operands]))
      have hb := ofTree_toTree b (h.operand (by simp [operands]))
      rw [toTree, node, ofTree, ofNode_or, pair, sub_of_find rfl, sub_of_find rfl, ha, hb]
      rfl
  | .ite c t e, h, path => by
      have hc := ofTree_toTree c (h.operand (by simp [operands]))
      have ht := ofTree_toTree t (h.operand (by simp [operands]))
      have he := ofTree_toTree e (h.operand (by simp [operands]))
      rw [toTree, node, ofTree, ofNode_ite, sub_of_find rfl, sub_of_find rfl, sub_of_find rfl, hc,
        ht, he]
      rfl
  | .getAttr e n, h, path => by
      have he := ofTree_toTree e (h.operand (by simp [operands]))
      rw [toTree, node, ofTree, ofNode_getAttr, sub_of_find rfl, he]
      rfl
  | .hasAttr e n, h, path => by
      have he := ofTree_toTree e (h.operand (by simp [operands]))
      rw [toTree, node, ofTree, ofNode_hasAttr, sub_of_find rfl, he]
      rfl
  | .like e p, h, path => by
      have he := ofTree_toTree e (h.operand (by simp [operands]))
      have hp := eachItem_map fun g (_ : g ∈ p) => glob_toTree g
      rw [toTree, node, ofTree, ofNode_like, sub_of_find rfl, he]
      change (eachItem glob (p.map Glob.toTree) 0 _ >>= fun globs => pure (Expr.like e globs)) = _
      rw [hp]
      rfl
  | .is e t, h, path => by
      have he := ofTree_toTree e (h.operand (by simp [operands]))
      rw [toTree, node, ofTree, ofNode_is, sub_of_find rfl, he]
      change (typeName _ _ >>= fun type => pure (Expr.is e type)) = _
      rw [typeName_of_find rfl h.here]
      rfl
  | .isMem e t g, h, path => by
      have he := ofTree_toTree e (h.operand (by simp [operands]))
      have hg := ofTree_toTree g (h.operand (by simp [operands]))
      rw [toTree, node, ofTree, ofNode_is, sub_of_find rfl, sub_of_find rfl, he, hg]
      change (typeName _ _ >>= fun type => pure (Expr.isMem e type g)) = _
      rw [typeName_of_find rfl h.here]
      rfl
  | .set items, h, path => by
      have hitems := runItems_toTree items fun e he => h.operand he
      rw [toTree, node, ofTree, ofNode_set, partsOf, hitems]
      rfl
  | .record fields, h, path => by
      have hfields := runMembers_toTree fields fun f hf => h.operand (List.mem_map_of_mem hf)
      rw [toTree, node, ofTree, ofNode_record, partsOf, hfields]
      rfl

/-- The readers of encoded items give the items. -/
theorem runItems_toTree : (es : List Expr) → (∀ e ∈ es, e.Valid) → ∀ (index : Nat) (path : Path),
    runItems (itemReaders (toTreeItems es)) index path = .ok es
  | [], _ => fun _ _ => rfl
  | e :: es, h => by
      intro index path
      have he := ofTree_toTree e (h e List.mem_cons_self)
      have hes := runItems_toTree es fun x hx => h x (List.mem_cons_of_mem e hx)
      rw [toTreeItems, itemReaders, runItems, he]
      simp only [hes, Except.map]

/-- The readers of encoded fields give the fields. -/
theorem runMembers_toTree : (fs : List (String × Expr)) → (∀ f ∈ fs, f.2.Valid) →
    ∀ path : Path, runMembers (memberReaders (toTreeFields fs)) path = .ok fs
  | [], _ => fun _ => rfl
  | (k, e) :: fs, h => by
      intro path
      have he := ofTree_toTree e (h (k, e) List.mem_cons_self)
      have hfs := runMembers_toTree fs fun x hx => h x (List.mem_cons_of_mem _ hx)
      rw [toTreeFields, memberReaders, runMembers, he]
      simp only [hfs, Except.map]

end

end Expr

/-! ### Scopes -/

namespace Tree

section references

variable (front : List (String × Json)) (hentity : Json.find? "entity" front = none)

include hentity

/-- The member of a reference is decoded, whatever other members stand in front of it. -/
theorem reference_toTree (hslot : Json.find? "slot" front = none) {slot : Option Slot}
    {r : Reference} (h : r.Allowed slot) (path : Path) :
    reference (front ++ [r.toTree]) slot path = .ok r := by
  cases h with
  | @uid u hu =>
      have hfind : Json.find? "entity" (front ++ [(Reference.uid u).toTree]) = some u.toJson :=
        Json.find?_append hentity _
      rw [reference, hfind]
      simp only [uid_toJson hu, Except.map]
  | @slot s hs =>
      have hname : Slot.ofName? s.name = some s := by cases s <;> rfl
      have hnone : Json.find? "entity" (front ++ [(Reference.slot s).toTree]) = none :=
        Json.find?_append hentity _
      have hsome : Json.find? "slot" (front ++ [(Reference.slot s).toTree]) = some (.str s.name) :=
        Json.find?_append hslot _
      rw [reference, hnone, hsome]
      simp only [string, ok_bind, hname, hs, if_pos]
      rfl

end references

/-- **A scope decodes**, if it may stand in its place. -/
theorem scope_toTree {slot : Option Slot} {s : Scope} (h : s.Allowed slot) (path : Path) :
    scope s.toTree slot path = .ok s := by
  cases h with
  | any => rfl
  | @eq r hr =>
      change (reference ([("op", .str "==")] ++ [r.toTree]) _ _ >>= fun r => pure (Scope.eq r)) = _
      rw [reference_toTree _ rfl rfl hr]
      rfl
  | @mem r hr =>
      have hscope : scope (Scope.mem r).toTree slot path =
          reference ([("op", .str "in")] ++ [r.toTree]) slot path >>= fun r =>
            pure (Scope.mem r) := by
        cases r <;> rfl
      rw [hscope, reference_toTree _ rfl rfl hr]
      rfl
  | @memAny us hnone hus =>
      subst hnone
      have hitems := eachItem_map fun u hu => uid_toJson (hus u hu)
      change (eachItem uid (us.map Uid.toJson) 0 _ >>= fun us => pure (Scope.memAny us)) = _
      rw [hitems]
      rfl
  | is hsome htype =>
      obtain ⟨t, rfl⟩ := Option.isSome_iff_exists.mp hsome
      change (typeName _ _ >>= fun type => pure (Scope.is type)) = _
      rw [typeName_of_find rfl htype]
      rfl
  | @isMem type r hsome htype hr =>
      obtain ⟨t, rfl⟩ := Option.isSome_iff_exists.mp hsome
      change (typeName _ _ >>= fun type => reference ([] ++ [r.toTree]) _ _ >>= fun r =>
        pure (Scope.isMem type r)) = _
      rw [typeName_of_find rfl htype, reference_toTree _ rfl rfl hr]
      rfl

/-! ### Policies -/

/-- A clause reads back from its tree if its body is valid and not too deep. -/
theorem clause_toTree {c : Clause} (hvalid : c.body.Valid)
    (hdepth : c.body.depth ≤ Grammar.nestingLimit) (path : Path) :
    clause c.toTree path = .ok c := by
  have hkind : ClauseKind.ofName? c.kind.name = some c.kind := by cases c.kind <;> rfl
  have hkindField : field [("kind", .str c.kind.name), ("body", c.body.toTree)] "kind" path =
      .ok (.str c.kind.name) := rfl
  have hbodyField : field [("kind", .str c.kind.name), ("body", c.body.toTree)] "body" path =
      .ok c.body.toTree := rfl
  unfold clause
  simp only [Clause.toTree, object_obj, ok_bind, hkindField, string_str, hkind, hbodyField,
    Expr.ofTree_toTree c.body hvalid, if_neg (Nat.not_lt_of_le hdepth)]
  rfl

/-- Annotations with ascending keys are put in their order. -/
theorem annotations_toTree : (as : List (String × String)) → (∀ a ∈ as, Name.isIdent a.1) →
    Ascending.Sorted (Ascending.keys as) → ∀ path : Path,
    annotations (as.map fun a => (a.1, .str a.2)) path = .ok as
  | [], _, _ => fun _ => rfl
  | (k, v) :: as, hident, hsorted => by
      intro path
      obtain ⟨hk, hsorted⟩ := Ascending.sorted_cons.mp hsorted
      have hrest := annotations_toTree as (fun a ha => hident a (List.mem_cons_of_mem _ ha)) hsorted
        path
      have hput : Ascending.put k v as = (k, v) :: as :=
        Ascending.put_cons_of_lt fun a ha => hk a.1 (List.mem_map_of_mem ha)
      rw [List.map_cons, annotations, if_pos (hident _ List.mem_cons_self), hrest]
      simp only [string, ok_bind, hput]
      rfl

/-- The annotations that an encoded policy may lack are decoded from what stands last in it. -/
theorem notes_toTree {as : List (String × String)} (hident : ∀ a ∈ as, Name.isIdent a.1)
    (hsorted : Ascending.Sorted (Ascending.keys as)) (front : List (String × Json))
    (hfront : Json.find? "annotations" front = none) (path : Path) :
    notes (front ++ if as.isEmpty then [] else
      [("annotations", .obj (as.map fun a => (a.1, .str a.2)))]) path = .ok as := by
  unfold notes
  rw [Json.find?_append hfront]
  by_cases hempty : as.isEmpty
  · rw [if_pos hempty, List.isEmpty_iff.mp hempty]
    rfl
  · rw [if_neg hempty]
    exact annotations_toTree as hident hsorted _

/-- **A policy decodes**, given the id that its tree does not hold. -/
theorem policy_toTree {p : Policy} (h : p.WellFormed) (path : Path) :
    policy p.toTree p.id path = .ok p := by
  have heffect : Effect.ofName? p.effect.name = some p.effect := by cases p.effect <;> rfl
  have hconditions := eachItem_map fun c hc =>
    clause_toTree (h.conditions c hc).1 (h.conditions c hc).2
  have hid : Ascending.get? "id" p.annotations = none := by
    rw [Option.eq_none_iff_forall_not_mem]
    intro v hv
    exact (h.keys _ (Ascending.mem_of_get? hv)).2 rfl
  have hfilter : p.annotations.filter (·.1 ≠ "id") = p.annotations :=
    List.filter_eq_self.mpr fun a ha => by simpa using (h.keys a ha).2
  have hnotes : notes _ path = .ok p.annotations :=
    notes_toTree (fun a ha => (h.keys a ha).1) h.sorted
      [("effect", .str p.effect.name), ("principal", p.principal.toTree),
        ("action", p.action.toTree), ("resource", p.resource.toTree),
        ("conditions", .arr (p.conditions.map Clause.toTree))] rfl path
  -- The members by name, so that the tree itself is not unfolded below.
  obtain ⟨ms, htree, heffectField, hprincipal, haction, hresource, hcs, hnotes⟩ :
      ∃ ms, p.toTree = .obj ms ∧ field ms "effect" path = .ok (.str p.effect.name) ∧
        field ms "principal" path = .ok p.principal.toTree ∧
        field ms "action" path = .ok p.action.toTree ∧
        field ms "resource" path = .ok p.resource.toTree ∧
        conditions ms path = eachItem clause (p.conditions.map Clause.toTree) 0 _ ∧
        notes ms path = .ok p.annotations :=
    ⟨_, rfl, rfl, rfl, rfl, rfl, rfl, hnotes⟩
  unfold policy
  simp only [htree, object_obj, ok_bind, heffectField, string_str, heffect, hprincipal, haction,
    hresource, hcs, hnotes, scope_toTree (Scope.allowed_iff_fitsEntity.mpr h.principal),
    scope_toTree (Scope.allowed_iff_fitsAction.mpr h.action),
    scope_toTree (Scope.allowed_iff_fitsEntity.mpr h.resource), hconditions, hid, hfilter]
  rfl

/-! ### Sets

The decoder adds the static policies, then the templates, and then links. Each of these steps finds
the ids new, as they were in the set that was encoded. -/

/-- A section of encoded policies is added in order. -/
theorem addSection_toTree {templates : Bool} : (ps : List Policy) →
    (∀ p ∈ ps, p.WellFormed ∧ p.isTemplate = templates) → ∀ (path : Path) (s : PolicySet),
    addSection templates path (ps.map fun p => (p.id, p.toTree)) s = s.addAll ps
  | [], _ => fun _ _ => rfl
  | p :: ps, h => by
      intro path s
      obtain ⟨hp, ht⟩ := h p List.mem_cons_self
      have hrest := addSection_toTree ps fun q hq => h q (List.mem_cons_of_mem p hq)
      rw [List.map_cons, addSection, policy_toTree hp, PolicySet.addAll]
      simp only [ok_bind]
      rw [if_neg (by simp [ht]), if_neg (by simp [ht])]
      cases hs : s.add p with
      | error e => rfl
      | ok t => exact hrest path t

/-- The uids that a link binds read back from their JSON forms if they are valid. -/
theorem linkValues_toTree : (values : List (Slot × Uid)) → (∀ v ∈ values, v.2.isValid) →
    Ascending.Sorted (Ascending.keys values) → ∀ path : Path,
    linkValues path (values.map fun v => (v.1.name, v.2.toJson)) = .ok values
  | [], _, _ => fun _ => rfl
  | (s, u) :: values, hvalid, hsorted => by
      intro path
      obtain ⟨hs, hsorted⟩ := Ascending.sorted_cons.mp hsorted
      have hrest := linkValues_toTree values (fun v hv => hvalid v (List.mem_cons_of_mem _ hv))
        hsorted path
      have hname : Slot.ofName? s.name = some s := by cases s <;> rfl
      have hput : Ascending.put s u values = (s, u) :: values :=
        Ascending.put_cons_of_lt fun v hv => hs v.1 (List.mem_map_of_mem hv)
      rw [List.map_cons, linkValues, hname]
      simp only [uid_toJson (hvalid _ List.mem_cons_self), hrest, ok_bind, hput]
      rfl

/-- The values of a link are not decoded unless their uids are valid. -/
theorem isValid_of_linkValues {path : Path} : (values : List (Slot × Uid)) →
    {decoded : List (Slot × Uid)} →
    linkValues path (values.map fun v => (v.1.name, v.2.toJson)) = .ok decoded →
    ∀ v ∈ values, v.2.isValid
  | [], _, _ => nofun
  | (s, u) :: values, decoded, h => by
      have hname : Slot.ofName? s.name = some s := by cases s <;> rfl
      rw [List.map_cons, linkValues, hname] at h
      obtain ⟨u', hu, h⟩ := bind_eq_ok.mp h
      obtain ⟨rest, hrest, -⟩ := bind_eq_ok.mp h
      exact List.forall_mem_cons.mpr ⟨isValid_of_uid_toJson hu, isValid_of_linkValues values hrest⟩

/-- The tree of a link is decoded and linked. -/
theorem addLinks_cons (l : Link) (ls : List Json) (index : Nat) (s : PolicySet) :
    addLinks (l.toTree :: ls) index s =
      (linkValues ((((Path.root "$").member "templateLinks").item index).member "values")
        (l.values.map fun v => (v.1.name, v.2.toJson)) >>= fun values =>
          s.link l.template l.id values >>= fun s => addLinks ls (index + 1) s) :=
  rfl

/-- Links that bind the slots of their templates to valid uids, with new ids, are linked again in
order. -/
theorem addLinks_toTree : (ls : List Link) → ∀ s : PolicySet, (∀ l ∈ ls, s.LinkBinds l) →
    (∀ l ∈ ls, ∀ v ∈ l.values, v.2.isValid) → (s.ids ++ ls.map (·.id)).Nodup → ∀ index : Nat,
    addLinks (ls.map Link.toTree) index s = .ok { s with links := s.links ++ ls }
  | [], s, _, _, _ => fun _ => by simp [addLinks]
  | l :: ls, s, h, hvalid, hids => by
      intro index
      obtain ⟨hlinks, hsorted⟩ := h l List.mem_cons_self
      obtain ⟨hvalues, hvalid⟩ := List.forall_mem_cons.mp hvalid
      have hnew : l.id ∉ s.ids := fun hin =>
        (List.nodup_append.mp hids).2.2 _ hin _ List.mem_cons_self rfl
      have hlink : s.link l.template l.id l.values = .ok { s with links := s.links ++ [l] } :=
        PolicySet.link_eq_ok_iff.mpr ⟨hlinks, hnew, rfl⟩
      have hrest := addLinks_toTree ls { s with links := s.links ++ [l] }
        (fun m hm => (h m (List.mem_cons_of_mem l hm)).of_append (List.append_nil _).symm) hvalid
        (by simpa [PolicySet.ids] using hids) (index + 1)
      rw [List.map_cons, addLinks_cons, linkValues_toTree l.values hvalues hsorted, ok_bind, hlink,
        ok_bind, hrest]
      simp

/-- Links are not linked again unless they bind valid uids. -/
theorem isValid_of_addLinks : (ls : List Link) → {index : Nat} → {s t : PolicySet} →
    addLinks (ls.map Link.toTree) index s = .ok t → ∀ l ∈ ls, ∀ v ∈ l.values, v.2.isValid
  | [], _, _, _, _ => nofun
  | l :: ls, index, s, t, h => by
      rw [List.map_cons, addLinks_cons] at h
      obtain ⟨values, hvalues, h⟩ := bind_eq_ok.mp h
      obtain ⟨s', -, hrest⟩ := bind_eq_ok.mp h
      exact List.forall_mem_cons.mpr
        ⟨isValid_of_linkValues l.values hvalues, isValid_of_addLinks ls hrest⟩

end Tree

namespace PolicySet

open AccessPolicy.Tree

variable {s t : PolicySet}

/-- The tree of a set is decoded section by section. -/
theorem ofTree_toTree_eq (s : PolicySet) : ofTree s.toTree =
    (addSection false ((Path.root "$").member "staticPolicies")
      (s.policies.map fun p => (p.id, p.toTree)) empty >>= fun set =>
    addSection true ((Path.root "$").member "templates")
      (s.templates.map fun p => (p.id, p.toTree)) set >>= fun set =>
    addLinks (s.links.map Link.toTree) 0 set) :=
  rfl

/-- **A set decodes**: its tree gives the same policies, templates and links in the same orders, if
its links bind valid uids. -/
theorem Sound.ofTree_toTree (h : s.Sound) (hvalid : s.BindsValid) : ofTree s.toTree = .ok s := by
  have hids : ((s.policies ++ s.templates).map (·.id)).Nodup := by
    rw [List.map_append]
    exact (List.nodup_append.mp h.ids).1
  have policies := addAll_append_eq_ok hids (fun p hp => (h.policies p hp).2)
    fun p hp => (h.templates p hp).2
  rw [addAll_append] at policies
  have links := addLinks_toTree s.links ⟨s.policies, s.templates, []⟩
    (fun l hl => (h.links l hl).of_append (List.append_nil _).symm) hvalid
    (by simpa [PolicySet.ids] using h.ids) 0
  obtain ⟨t, ht, hs⟩ := bind_eq_ok.mp policies
  rw [ofTree_toTree_eq, addSection_toTree s.policies h.policies, ht, ok_bind,
    addSection_toTree s.templates h.templates, hs, ok_bind, links]
  rfl

/-- **A set does not decode** unless its links bind valid uids. -/
theorem bindsValid_of_ofTree (h : ofTree s.toTree = .ok t) : s.BindsValid := by
  rw [ofTree_toTree_eq] at h
  obtain ⟨_, -, h⟩ := bind_eq_ok.mp h
  obtain ⟨_, -, h⟩ := bind_eq_ok.mp h
  exact isValid_of_addLinks s.links h

end PolicySet

end AccessPolicy
