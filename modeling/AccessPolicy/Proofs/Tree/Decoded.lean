import AccessPolicy.Proofs.Except
import AccessPolicy.Proofs.Json.Merge
import AccessPolicy.Proofs.Policy.WellFormed
import AccessPolicy.Tree.Decode

/-!
# What is decoded is well-formed

* **Expressions** (`Expr.valid_of_ofTree`): every expression that is decoded from a merged tree has
  valid names and records without repeated keys. The readers of the parts of a node are assumed to
  give such expressions (`Expr.Parts.Sound`), so that a node is a single step.
* **Scopes** (`Tree.allowed_of_scope`) may stand where they are decoded.
* **Policies** (`Tree.wellFormed_of_policy`) and **sets** (`PolicySet.wellFormed_of_ofTree`) that
  are decoded are well-formed.
-/

namespace AccessPolicy

open Json (Path)

variable {path : Path}

namespace Tree

/-- What is taken for an object is one. -/
theorem eq_of_object {v : Json} {ms : List (String × Json)} (h : object v path = .ok ms) :
    v = .obj ms := by
  unfold object at h
  split at h <;> cases h
  rfl

/-- What is taken for an array is one. -/
theorem eq_of_array {v : Json} {vs : List Json} (h : array v path = .ok vs) : v = .arr vs := by
  unfold array at h
  split at h <;> cases h
  rfl

/-- In a merged tree the members of an object are merged. -/
theorem merged_of_object {v : Json} (hv : v.Merged) {ms : List (String × Json)}
    (h : object v path = .ok ms) : ∀ m ∈ ms, m.2.Merged :=
  (Json.merged_obj_iff.mp (eq_of_object h ▸ hv)).2

/-- In a merged tree the items of an array are merged. -/
theorem merged_of_array {v : Json} (hv : v.Merged) {vs : List Json}
    (h : array v path = .ok vs) : ∀ v ∈ vs, v.Merged :=
  Json.merged_arr_iff.mp (eq_of_array h ▸ hv)

/-- In a merged tree what is found under a key is merged. -/
theorem merged_of_field {ms : List (String × Json)} (hms : ∀ m ∈ ms, m.2.Merged) {key : String}
    {v : Json} (h : field ms key path = .ok v) : v.Merged := by
  unfold field at h
  split at h
  · rename_i hv
    cases h
    exact .of_find hms hv
  · cases h

/-- A uid is made only of a type name. -/
theorem isValid_of_ofParts {type id : String} {u : Uid} (h : Uid.ofParts type id = .ok u) :
    u.isValid := by
  unfold Uid.ofParts at h
  split at h
  · rename_i htype
    cases h
    exact htype
  · cases h

/-- A decoded uid is valid. -/
theorem isValid_of_uid {v : Json} {u : Uid} (h : uid v path = .ok u) : u.isValid := by
  unfold uid at h
  obtain ⟨outer, -, h⟩ := bind_eq_ok.mp h
  -- The members stand alone or inside an object, and are read in the same way.
  split at h
  all_goals
    obtain ⟨members, -, h⟩ := bind_eq_ok.mp h
    obtain ⟨_, -, h⟩ := bind_eq_ok.mp h
    obtain ⟨type, -, h⟩ := bind_eq_ok.mp h
    obtain ⟨_, -, h⟩ := bind_eq_ok.mp h
    obtain ⟨id, -, h⟩ := bind_eq_ok.mp h
    split at h
    · rename_i hu
      cases h
      exact isValid_of_ofParts hu
    · cases h

/-- The type of a test is decoded only if it is a type name. -/
theorem isTypeName_of_typeName {members : List (String × Json)} {type : String}
    (h : typeName members path = .ok type) : Name.isTypeName type := by
  unfold typeName at h
  obtain ⟨_, -, h⟩ := bind_eq_ok.mp h
  obtain ⟨type', -, h⟩ := bind_eq_ok.mp h
  split at h
  · rename_i htype
    cases h
    exact htype
  · cases h

/-- What holds of every decoded item holds of the items of a decoded list. -/
theorem forall_of_eachItem {α : Type} {read : Json → Path → Except Error α} {P : α → Prop}
    {vs : List Json} (h : ∀ v ∈ vs, ∀ path x, read v path = .ok x → P x) :
    ∀ {index : Nat} {xs : List α}, eachItem read vs index path = .ok xs → ∀ x ∈ xs, P x := by
  induction vs with
  | nil =>
      intro index xs hxs
      cases hxs
      nofun
  | cons v vs ih =>
      intro index xs hxs
      rw [eachItem] at hxs
      split at hxs
      · cases hxs
      · rename_i x hx
        obtain ⟨ys, hys, rfl⟩ := map_eq_ok.mp hxs
        exact List.forall_mem_cons.mpr ⟨h v List.mem_cons_self _ x hx,
          ih (fun w hw => h w (List.mem_cons_of_mem v hw)) hys⟩

end Tree

/-! ### Literals -/

namespace Expr

open AccessPolicy.Tree

mutual

/-- **A literal value** is decoded to a valid expression: uids are checked, and an object of a
merged tree repeats no key. -/
theorem valid_of_ofLiteral : (v : Json) → v.Merged → {path : Path} → {e : Expr} →
    ofLiteral v path = .ok e → e.Valid
  | .bool b, _, _, e, h => by
      cases h
      exact .of_operands rfl nofun
  | .int n, _, _, e, h => by
      rw [ofLiteral] at h
      split at h
      · cases h
        exact .of_operands rfl nofun
      · cases h
  | .float bits, _, _, _, h => by cases h
  | .str s, _, _, e, h => by
      cases h
      exact .of_operands rfl nofun
  | .arr items, hv, path, e, h => by
      rw [ofLiteral] at h
      obtain ⟨es, hes, rfl⟩ := map_eq_ok.mp h
      exact .of_operands rfl (valid_of_ofLiteralItems items (Json.merged_arr_iff.mp hv) hes)
  | .obj members, hv, path, e, h => by
      rw [ofLiteral] at h
      split at h
      · obtain ⟨u, hu, rfl⟩ := map_eq_ok.mp h
        exact .of_operands (isValid_of_uid hu) nofun
      · obtain ⟨fs, hfs, rfl⟩ := map_eq_ok.mp h
        obtain ⟨hnodup, hms⟩ := Json.merged_obj_iff.mp hv
        obtain ⟨hkeys, hvalid⟩ := valid_of_ofLiteralFields members hms hfs
        refine .of_operands (decide_eq_true (hkeys ▸ hnodup)) ?_
        exact List.forall_mem_map.mpr hvalid
  | .null, _, _, _, h => by cases h

theorem valid_of_ofLiteralItems : (vs : List Json) → (∀ v ∈ vs, v.Merged) → {index : Nat} →
    {path : Path} → {es : List Expr} → ofLiteralItems vs index path = .ok es → ∀ e ∈ es, e.Valid
  | [], _, _, _, es, h => by
      cases h
      nofun
  | v :: vs, hvs, index, path, es, h => by
      rw [ofLiteralItems] at h
      split at h
      · cases h
      · rename_i e he
        obtain ⟨es, hes, rfl⟩ := map_eq_ok.mp h
        exact List.forall_mem_cons.mpr ⟨valid_of_ofLiteral v (hvs v List.mem_cons_self) he,
          valid_of_ofLiteralItems vs (fun w hw => hvs w (List.mem_cons_of_mem v hw)) hes⟩

/-- The keys of a record are those of the object, in order. -/
theorem valid_of_ofLiteralFields : (ms : List (String × Json)) → (∀ m ∈ ms, m.2.Merged) →
    {path : Path} → {fs : List (String × Expr)} → ofLiteralFields ms path = .ok fs →
    Ascending.keys fs = ms.map (·.1) ∧ ∀ f ∈ fs, f.2.Valid
  | [], _, _, fs, h => by
      cases h
      exact ⟨rfl, nofun⟩
  | (k, v) :: ms, hms, path, fs, h => by
      rw [ofLiteralFields] at h
      split at h
      · cases h
      · rename_i e he
        obtain ⟨fs, hfs, rfl⟩ := map_eq_ok.mp h
        obtain ⟨hkeys, hvalid⟩ :=
          valid_of_ofLiteralFields ms (fun m hm => hms m (List.mem_cons_of_mem _ hm)) hfs
        refine ⟨congrArg (k :: ·) hkeys, List.forall_mem_cons.mpr ⟨?_, hvalid⟩⟩
        exact valid_of_ofLiteral v (hms (k, v) List.mem_cons_self) he

end

/-! ### Nodes -/

/-- The readers of the parts of a body give valid expressions, and no key is repeated. -/
structure Parts.Sound (parts : Parts) : Prop where
  /-- What the reader of a member gives is valid. -/
  members : ∀ m ∈ parts.members, ∀ path e, m.2 path = .ok e → e.Valid
  /-- No key is repeated. -/
  keys : (parts.members.map (·.1)).Nodup
  /-- What the reader of an item gives is valid. -/
  items : ∀ f ∈ parts.items, ∀ path e, f path = .ok e → e.Valid

section nodes

variable {parts : Parts} {body : Json} {key : String} {e : Expr}

/-- What is found under a key of a body is valid. -/
theorem valid_of_sub (hp : parts.Sound) (h : parts.sub body path key = .ok e) : e.Valid := by
  unfold Parts.sub at h
  obtain ⟨_, -, h⟩ := bind_eq_ok.mp h
  split at h
  · rename_i m hm
    exact hp.members m (List.mem_of_find?_eq_some hm) _ e h
  · cases h

/-- The items of a body are read in order. -/
theorem valid_of_runItems {fs : List (Path → Except Error Expr)}
    (hfs : ∀ f ∈ fs, ∀ path e, f path = .ok e → e.Valid) : ∀ {index : Nat} {es : List Expr},
    runItems fs index path = .ok es → ∀ e ∈ es, e.Valid := by
  induction fs with
  | nil =>
      intro index es h
      cases h
      nofun
  | cons f fs ih =>
      intro index es h
      rw [runItems] at h
      split at h
      · cases h
      · rename_i e he
        obtain ⟨es, hes, rfl⟩ := map_eq_ok.mp h
        exact List.forall_mem_cons.mpr ⟨hfs f List.mem_cons_self _ e he,
          ih (fun g hg => hfs g (List.mem_cons_of_mem f hg)) hes⟩

/-- The members of a body are read in order and keep their keys. -/
theorem valid_of_runMembers {ms : List (String × (Path → Except Error Expr))}
    (hms : ∀ m ∈ ms, ∀ path e, m.2 path = .ok e → e.Valid) : ∀ {fs : List (String × Expr)},
    runMembers ms path = .ok fs → Ascending.keys fs = ms.map (·.1) ∧ ∀ f ∈ fs, f.2.Valid := by
  induction ms with
  | nil =>
      intro fs h
      cases h
      exact ⟨rfl, nofun⟩
  | cons m ms ih =>
      intro fs h
      rw [runMembers] at h
      split at h
      · cases h
      · rename_i e he
        obtain ⟨fs, hfs, rfl⟩ := map_eq_ok.mp h
        obtain ⟨hkeys, hvalid⟩ := ih (fun n hn => hms n (List.mem_cons_of_mem m hn)) hfs
        exact ⟨congrArg (m.1 :: ·) hkeys,
          List.forall_mem_cons.mpr ⟨hms m List.mem_cons_self _ e he, hvalid⟩⟩

/-- **A node is valid**, if what the readers of its parts give is. -/
theorem valid_of_ofNode (hp : parts.Sound) (hbody : body.Merged)
    (h : ofNode key body parts path = .ok e) : e.Valid := by
  unfold ofNode at h
  -- The key tells the node. Its operands were decoded before, so each case only has to look at
  -- what the node itself needs.
  split at h
  · obtain ⟨a, ha, h⟩ := bind_eq_ok.mp h
    cases h
    exact .of_operands rfl (by simpa [operands] using valid_of_sub hp ha)
  split at h
  case h_1 => exact valid_of_ofLiteral body hbody h
  case h_2 =>
    obtain ⟨name, -, h⟩ := bind_eq_ok.mp h
    split at h <;> cases h
    exact .of_operands rfl nofun
  case h_3 =>
    obtain ⟨name, -, h⟩ := bind_eq_ok.mp h
    split at h <;> cases h
    exact .of_operands rfl nofun
  case h_4 | h_5 =>
    obtain ⟨a, ha, h⟩ := bind_eq_ok.mp h
    obtain ⟨b, hb, h⟩ := bind_eq_ok.mp h
    cases h
    exact .of_operands rfl (by simpa [operands] using ⟨valid_of_sub hp ha, valid_of_sub hp hb⟩)
  case h_6 | h_7 =>
    obtain ⟨a, ha, h⟩ := bind_eq_ok.mp h
    obtain ⟨n, -, h⟩ := bind_eq_ok.mp h
    cases h
    exact .of_operands rfl (by simpa [operands] using valid_of_sub hp ha)
  case h_8 =>
    obtain ⟨members, -, h⟩ := bind_eq_ok.mp h
    obtain ⟨_, -, h⟩ := bind_eq_ok.mp h
    obtain ⟨items, -, h⟩ := bind_eq_ok.mp h
    obtain ⟨globs, -, h⟩ := bind_eq_ok.mp h
    obtain ⟨a, ha, h⟩ := bind_eq_ok.mp h
    cases h
    exact .of_operands rfl (by simpa [operands] using valid_of_sub hp ha)
  case h_9 =>
    obtain ⟨members, -, h⟩ := bind_eq_ok.mp h
    obtain ⟨type, htype, h⟩ := bind_eq_ok.mp h
    obtain ⟨a, ha, h⟩ := bind_eq_ok.mp h
    split at h
    · obtain ⟨g, hg, h⟩ := bind_eq_ok.mp h
      cases h
      exact .of_operands (isTypeName_of_typeName htype)
        (by simpa [operands] using ⟨valid_of_sub hp ha, valid_of_sub hp hg⟩)
    · cases h
      exact .of_operands (isTypeName_of_typeName htype)
        (by simpa [operands] using valid_of_sub hp ha)
  case h_10 =>
    obtain ⟨c, hc, h⟩ := bind_eq_ok.mp h
    obtain ⟨a, ha, h⟩ := bind_eq_ok.mp h
    obtain ⟨b, hb, h⟩ := bind_eq_ok.mp h
    cases h
    exact .of_operands rfl
      (by simpa [operands] using ⟨valid_of_sub hp hc, valid_of_sub hp ha, valid_of_sub hp hb⟩)
  case h_11 =>
    obtain ⟨_, -, h⟩ := bind_eq_ok.mp h
    obtain ⟨items, hitems, h⟩ := bind_eq_ok.mp h
    cases h
    exact .of_operands rfl (valid_of_runItems hp.items hitems)
  case h_12 =>
    obtain ⟨_, -, h⟩ := bind_eq_ok.mp h
    obtain ⟨fields, hfields, h⟩ := bind_eq_ok.mp h
    cases h
    obtain ⟨hkeys, hvalid⟩ := valid_of_runMembers hp.members hfields
    exact .of_operands (decide_eq_true (hkeys ▸ hp.keys)) (List.forall_mem_map.mpr hvalid)
  case h_13 =>
    split at h
    · obtain ⟨a, ha, h⟩ := bind_eq_ok.mp h
      obtain ⟨b, hb, h⟩ := bind_eq_ok.mp h
      cases h
      exact .of_operands rfl (by simpa [operands] using ⟨valid_of_sub hp ha, valid_of_sub hp hb⟩)
    · cases h

end nodes

/-- The readers of members stand under the keys of the members. -/
theorem keys_memberReaders (ms : List (String × Json)) :
    (memberReaders ms).map (·.1) = ms.map (·.1) := by
  induction ms with
  | nil => rfl
  | cons m ms ih => simp [memberReaders, ih]

mutual

/-- **A decoded expression is valid.** -/
theorem valid_of_ofTree : (v : Json) → v.Merged → {path : Path} → {e : Expr} →
    ofTree v path = .ok e → e.Valid
  | .obj [(key, body)], hv, path, e, h => by
      have hbody : body.Merged := (Json.merged_obj_iff.mp hv).2 _ List.mem_cons_self
      rw [ofTree] at h
      exact valid_of_ofNode (sound_partsOf body hbody) hbody h
  | .obj [], _, _, _, h => by cases h
  | .obj (_ :: _ :: _), _, _, _, h => by cases h
  | .null, _, _, _, h | .bool _, _, _, _, h | .int _, _, _, _, h | .float _, _, _, _, h
  | .str _, _, _, _, h | .arr _, _, _, _, h => by cases h

/-- **The parts of a merged tree** are sound, by recursion on the tree: the readers of the parts of
a node are made of the parts of what stands there. -/
theorem sound_partsOf : (v : Json) → v.Merged → (partsOf v).Sound
  | .obj members, hv => by
      obtain ⟨hnodup, hms⟩ := Json.merged_obj_iff.mp hv
      rw [partsOf]
      exact ⟨sound_memberReaders members hms, keys_memberReaders members ▸ hnodup, nofun⟩
  | .arr items, hv => by
      rw [partsOf]
      exact ⟨nofun, List.Pairwise.nil, sound_itemReaders items (Json.merged_arr_iff.mp hv)⟩
  | .null, _ | .bool _, _ | .int _, _ | .float _, _ | .str _, _ => ⟨nofun, List.Pairwise.nil, nofun⟩

theorem sound_itemReaders : (vs : List Json) → (∀ v ∈ vs, v.Merged) →
    ∀ f ∈ itemReaders vs, ∀ path e, f path = .ok e → e.Valid
  | [], _ => nofun
  | v :: vs, h =>
      List.forall_mem_cons.mpr ⟨fun _ _ he => valid_of_ofTree v (h v List.mem_cons_self) he,
        sound_itemReaders vs fun w hw => h w (List.mem_cons_of_mem v hw)⟩

theorem sound_memberReaders : (ms : List (String × Json)) → (∀ m ∈ ms, m.2.Merged) →
    ∀ m ∈ memberReaders ms, ∀ path e, m.2 path = .ok e → e.Valid
  | [], _ => nofun
  | (k, v) :: ms, h =>
      List.forall_mem_cons.mpr ⟨fun _ _ he => valid_of_ofTree v (h (k, v) List.mem_cons_self) he,
        sound_memberReaders ms fun m hm => h m (List.mem_cons_of_mem _ hm)⟩

end

end Expr

/-! ### Scopes -/

namespace Tree

section scopes

variable {members : List (String × Json)} {slot : Option Slot}

/-- A reference has the slot of its scope or none. -/
theorem allowed_of_reference {r : Reference} (h : reference members slot path = .ok r) :
    r.Allowed slot := by
  unfold reference at h
  split at h
  · obtain ⟨u, hu, rfl⟩ := map_eq_ok.mp h
    exact .uid (isValid_of_uid hu)
  · split at h
    · obtain ⟨name, -, h⟩ := bind_eq_ok.mp h
      split at h
      · cases h
      · split at h
        · rename_i hs
          cases h
          exact .slot hs
        · cases h
    · cases h

/-- Decoded scopes are allowed where they stand. -/
theorem allowed_of_scope {v : Json} {s : Scope} (h : scope v slot path = .ok s) :
    s.Allowed slot := by
  unfold scope at h
  obtain ⟨members, -, h⟩ := bind_eq_ok.mp h
  obtain ⟨_, -, h⟩ := bind_eq_ok.mp h
  obtain ⟨op, -, h⟩ := bind_eq_ok.mp h
  -- The cases are the operators of scopes.
  split at h
  · cases h
    exact .any
  split at h
  · obtain ⟨r, hr, h⟩ := bind_eq_ok.mp h
    cases h
    exact .eq (allowed_of_reference hr)
  split at h
  · split at h
    · obtain ⟨r, hr, h⟩ := bind_eq_ok.mp h
      cases h
      exact .mem (allowed_of_reference hr)
    · split at h
      · obtain ⟨us, hus, h⟩ := bind_eq_ok.mp h
        cases h
        exact .memAny rfl (forall_of_eachItem (fun _ _ _ _ => isValid_of_uid) hus)
      · cases h
  split at h
  · rename_i hop
    obtain ⟨type, htype, h⟩ := bind_eq_ok.mp h
    split at h
    · cases h
      exact .is hop.2 (isTypeName_of_typeName htype)
    · obtain ⟨inner, -, h⟩ := bind_eq_ok.mp h
      obtain ⟨r, hr, h⟩ := bind_eq_ok.mp h
      cases h
      exact .isMem hop.2 (isTypeName_of_typeName htype) (allowed_of_reference hr)
  · cases h

end scopes

/-! ### Policies -/

/-- A condition is checked for its depth when it is decoded. -/
theorem valid_of_clause {v : Json} (hv : v.Merged) {c : Clause} (h : clause v path = .ok c) :
    c.body.Valid ∧ c.body.depth ≤ Grammar.nestingLimit := by
  unfold clause at h
  obtain ⟨members, hmembers, h⟩ := bind_eq_ok.mp h
  obtain ⟨_, -, h⟩ := bind_eq_ok.mp h
  obtain ⟨_, -, h⟩ := bind_eq_ok.mp h
  split at h
  · cases h
  · obtain ⟨raw, hraw, h⟩ := bind_eq_ok.mp h
    obtain ⟨body, hbody, h⟩ := bind_eq_ok.mp h
    split at h
    · cases h
    · rename_i hdepth
      cases h
      have hraw' := merged_of_field (merged_of_object hv hmembers) hraw
      exact ⟨Expr.valid_of_ofTree raw hraw' hbody, Nat.le_of_not_lt hdepth⟩

/-- Decoded annotations have identifiers for keys, which ascend. -/
theorem sorted_of_annotations : (ms : List (String × Json)) → {path : Path} →
    {as : List (String × String)} → annotations ms path = .ok as →
    (∀ a ∈ as, Name.isIdent a.1) ∧ Ascending.Sorted (Ascending.keys as)
  | [], _, as, h => by
      cases h
      exact ⟨nofun, .nil⟩
  | (k, v) :: ms, path, as, h => by
      rw [annotations] at h
      split at h
      · rename_i hk
        obtain ⟨value, -, h⟩ := bind_eq_ok.mp h
        obtain ⟨rest, hrest, h⟩ := bind_eq_ok.mp h
        cases h
        obtain ⟨hident, hsorted⟩ := sorted_of_annotations ms hrest
        refine ⟨fun a ha => ?_, hsorted.put⟩
        rcases Ascending.mem_of_mem_put ha with rfl | ha
        · exact hk
        · exact hident a ha
      · cases h

/-- Without the annotation of the id, decoded annotations are those of a policy. -/
theorem sorted_filter {as : List (String × String)} (hident : ∀ a ∈ as, Name.isIdent a.1)
    (hsorted : Ascending.Sorted (Ascending.keys as)) :
    (∀ a ∈ as.filter (·.1 ≠ "id"), Name.isIdent a.1 ∧ a.1 ≠ "id") ∧
      Ascending.Sorted (Ascending.keys (as.filter (·.1 ≠ "id"))) := by
  refine ⟨fun a ha => ?_, List.pairwise_map.mpr ((List.pairwise_map.mp hsorted).filter _)⟩
  obtain ⟨ha, hid⟩ := List.mem_filter.mp ha
  exact ⟨hident a ha, by simpa using hid⟩

theorem valid_of_conditions {members : List (String × Json)} (hms : ∀ m ∈ members, m.2.Merged)
    {cs : List Clause} (h : conditions members path = .ok cs) :
    ∀ c ∈ cs, c.body.Valid ∧ c.body.depth ≤ Grammar.nestingLimit := by
  unfold conditions at h
  split at h
  · cases h
    nofun
  · rename_i list hlist
    obtain ⟨items, hitems, h⟩ := bind_eq_ok.mp h
    have hvs := merged_of_array (.of_find hms hlist) hitems
    exact forall_of_eachItem (fun v hv _ _ hc => valid_of_clause (hvs v hv) hc) h

/-- Annotations are sorted by name, and their names are identifiers. -/
theorem sorted_of_notes {members : List (String × Json)} {as : List (String × String)}
    (h : notes members path = .ok as) :
    (∀ a ∈ as, Name.isIdent a.1) ∧ Ascending.Sorted (Ascending.keys as) := by
  unfold notes at h
  split at h
  · cases h
    exact ⟨nofun, .nil⟩
  · obtain ⟨raw, -, h⟩ := bind_eq_ok.mp h
    exact sorted_of_annotations raw h

/-- The scopes and the annotations of a decoded policy can be written, and its clauses are decoded
from its members. -/
theorem shaped_of_policy {v : Json} {id : String} {p : Policy} (h : policy v id path = .ok p) :
    p.Shaped ∧
      ∃ members, object v path = .ok members ∧ conditions members path = .ok p.conditions := by
  unfold policy at h
  obtain ⟨members, hmembers, h⟩ := bind_eq_ok.mp h
  obtain ⟨_, -, h⟩ := bind_eq_ok.mp h
  obtain ⟨_, -, h⟩ := bind_eq_ok.mp h
  split at h
  · cases h
  obtain ⟨_, -, h⟩ := bind_eq_ok.mp h
  obtain ⟨principal, hprincipal, h⟩ := bind_eq_ok.mp h
  obtain ⟨_, -, h⟩ := bind_eq_ok.mp h
  obtain ⟨action, haction, h⟩ := bind_eq_ok.mp h
  obtain ⟨_, -, h⟩ := bind_eq_ok.mp h
  obtain ⟨resource, hresource, h⟩ := bind_eq_ok.mp h
  obtain ⟨cs, hcs, h⟩ := bind_eq_ok.mp h
  obtain ⟨as, has, h⟩ := bind_eq_ok.mp h
  cases h
  obtain ⟨hident, hsorted⟩ := sorted_of_notes has
  obtain ⟨hkeys, hsorted⟩ := sorted_filter hident hsorted
  exact ⟨⟨Scope.allowed_iff_fitsEntity.mp (allowed_of_scope hprincipal),
    Scope.allowed_iff_fitsAction.mp (allowed_of_scope haction),
    Scope.allowed_iff_fitsEntity.mp (allowed_of_scope hresource), hkeys, hsorted⟩,
    members, hmembers, hcs⟩

/-- **A decoded policy is well-formed.** -/
theorem wellFormed_of_policy {v : Json} (hv : v.Merged) {id : String} {p : Policy}
    (h : policy v id path = .ok p) : p.WellFormed := by
  obtain ⟨hshaped, members, hmembers, hconditions⟩ := shaped_of_policy h
  exact ⟨hshaped, valid_of_conditions (merged_of_object hv hmembers) hconditions⟩

/-! ### Sets -/

/-- Decoded values of a link are valid uids under ascending slots. -/
theorem sorted_of_linkValues : (ms : List (String × Json)) → {values : List (Slot × Uid)} →
    linkValues path ms = .ok values →
    Ascending.Sorted (Ascending.keys values) ∧ ∀ v ∈ values, v.2.isValid
  | [], values, h => by
      cases h
      exact ⟨.nil, nofun⟩
  | (k, v) :: ms, values, h => by
      rw [linkValues] at h
      split at h
      · cases h
      · obtain ⟨u, hu, h⟩ := bind_eq_ok.mp h
        obtain ⟨rest, hrest, h⟩ := bind_eq_ok.mp h
        cases h
        obtain ⟨hsorted, hvalid⟩ := sorted_of_linkValues ms hrest
        refine ⟨hsorted.put, fun w hw => ?_⟩
        rcases Ascending.mem_of_mem_put hw with rfl | hw
        · exact isValid_of_uid hu
        · exact hvalid w hw

section sets

variable {J : Json → Prop} {A : Policy → Prop}

/-- Adding a section adds policies that are decoded from its members. -/
theorem built_of_addSection
    (hpolicy : ∀ {v id path p}, J v → policy v id path = .ok p → A p) {templates : Bool} :
    (ms : List (String × Json)) → (∀ m ∈ ms, J m.2) → {s t : PolicySet} → s.Built A →
    addSection templates path ms s = .ok t → t.Built A
  | [], _, s, t, hs, h => by
      cases h
      exact hs
  | (id, v) :: ms, hms, s, t, hs, h => by
      rw [addSection] at h
      obtain ⟨p, hp, h⟩ := bind_eq_ok.mp h
      have hadded : A p := hpolicy (hms (id, v) List.mem_cons_self) hp
      split at h
      · cases h
      split at h
      · cases h
      obtain ⟨s', hs', h⟩ := bind_eq_ok.mp h
      exact built_of_addSection hpolicy ms (fun m hm => hms m (List.mem_cons_of_mem _ hm))
        (hs.add hadded hs') h

/-- A section that is missing adds nothing. -/
theorem built_of_addOptional
    (hobject : ∀ {v ms path}, J v → object v path = .ok ms → ∀ m ∈ ms, J m.2)
    (hpolicy : ∀ {v id path p}, J v → policy v id path = .ok p → A p) {templates : Bool}
    {members : List (String × Json)} (hms : ∀ m ∈ members, J m.2) {s t : PolicySet}
    (hs : s.Built A) (h : addOptional templates members s = .ok t) : t.Built A := by
  unfold addOptional at h
  dsimp only at h
  split at h
  · cases h
    exact hs
  · rename_i v hv
    obtain ⟨ms, hsection, h⟩ := bind_eq_ok.mp h
    have hv' : J v := hms _ (Json.mem_of_find hv)
    exact built_of_addSection hpolicy ms (hobject hv' hsection) hs h

/-- Adding links links templates to valid uids. -/
theorem built_of_addLinks : (vs : List Json) → {index : Nat} → {s t : PolicySet} →
    s.Built A → addLinks vs index s = .ok t → t.Built A
  | [], index, s, t, hs, h => by
      cases h
      exact hs
  | v :: vs, index, s, t, hs, h => by
      rw [addLinks] at h
      obtain ⟨_, -, h⟩ := bind_eq_ok.mp h
      obtain ⟨_, -, h⟩ := bind_eq_ok.mp h
      obtain ⟨template, -, h⟩ := bind_eq_ok.mp h
      obtain ⟨_, -, h⟩ := bind_eq_ok.mp h
      obtain ⟨id, -, h⟩ := bind_eq_ok.mp h
      obtain ⟨_, -, h⟩ := bind_eq_ok.mp h
      obtain ⟨ms, -, h⟩ := bind_eq_ok.mp h
      obtain ⟨values, hvalues, h⟩ := bind_eq_ok.mp h
      obtain ⟨s', hs', h⟩ := bind_eq_ok.mp h
      obtain ⟨hsorted, hvalid⟩ := sorted_of_linkValues ms hvalues
      exact built_of_addLinks vs (hs.link hsorted hvalid hs') h

end sets

end Tree

/-- **A decoded set is built step by step** of the policies that are decoded, where what is decoded
passes from objects to their members. -/
theorem PolicySet.built_of_ofTree {J : Json → Prop} {A : Policy → Prop}
    (hobject : ∀ {v ms path}, J v → Tree.object v path = .ok ms → ∀ m ∈ ms, J m.2)
    (hpolicy : ∀ {v id path p}, J v → Tree.policy v id path = .ok p → A p) {v : Json} (hv : J v)
    {s : PolicySet} (h : ofTree v = .ok s) : s.Built A := by
  unfold ofTree at h
  obtain ⟨members, hmembers, h⟩ := bind_eq_ok.mp h
  have hms := hobject hv hmembers
  obtain ⟨s₁, h₁, h⟩ := bind_eq_ok.mp h
  obtain ⟨s₂, h₂, h⟩ := bind_eq_ok.mp h
  have hs₁ := Tree.built_of_addOptional hobject hpolicy hms .empty h₁
  have hs₂ := Tree.built_of_addOptional hobject hpolicy hms hs₁ h₂
  split at h
  · cases h
    exact hs₂
  · obtain ⟨vs, -, h⟩ := bind_eq_ok.mp h
    exact Tree.built_of_addLinks vs hs₂ h

/-- **A decoded set is well-formed.** -/
theorem PolicySet.wellFormed_of_ofTree {v : Json} (hv : v.Merged) {s : PolicySet}
    (h : ofTree v = .ok s) : s.WellFormed :=
  (built_of_ofTree (fun hv h => Tree.merged_of_object hv h)
    (fun hv h => Tree.wellFormed_of_policy hv h) hv h).wellFormed

end AccessPolicy
