import AccessPolicy.Proofs.Expr.Limit
import AccessPolicy.Proofs.Tree.Decoded
import AccessPolicy.Proofs.Value.Json

/-!
# Literals in trees and in entity data

A JSON value is read as an expression in a tree (`Expr.ofLiteral`) and as a value in entity data
(`Value.ofJson`).

* `Json.marksAlone j` — wherever an object of `j` marks an entity, it does so with its only member.
* `Expr.Renders j e` — the expression means a value, which the JSON value stands for if it marks
  entities alone; otherwise the JSON value stands for nothing. **Every expression of a literal
  renders it** (`Expr.renders_of_ofLiteral`), so that the two readings agree where entities are
  marked alone (`Expr.eval_of_ofTree_value`), and only there (`Expr.ofTree_value_beside_mark`).
-/

namespace AccessPolicy

open Json (Path)

/-! ### Marks of entities -/

namespace Json

mutual

/-- Whether each object that marks an entity does so with its only member. What is inside such a
member is not looked at. -/
def marksAlone : Json → Bool
  | arr items => itemsMarkAlone items
  | obj members =>
    if hasKey Value.entityKey members then members.length == 1 else membersMarkAlone members
  | _ => true

/-- Whether each of the items marks entities alone. -/
def itemsMarkAlone : List Json → Bool
  | [] => true
  | j :: js => marksAlone j && itemsMarkAlone js

/-- Whether each of the members marks entities alone. -/
def membersMarkAlone : List (String × Json) → Bool
  | [] => true
  | (_, j) :: ms => marksAlone j && membersMarkAlone ms

end

variable {items : List Json} {members : List (String × Json)}

/-- An array marks entities alone if its items do. -/
theorem marksAlone_arr : (arr items).marksAlone ↔ ∀ j ∈ items, j.marksAlone := by
  rw [marksAlone]
  induction items with
  | nil => simp [itemsMarkAlone]
  | cons j js ih => simp [itemsMarkAlone, ih]

/-- An object that marks no entity marks entities alone if its members do. -/
theorem marksAlone_obj (h : Value.entityKey ∉ members.map (·.1)) :
    (obj members).marksAlone ↔ ∀ m ∈ members, m.2.marksAlone := by
  rw [marksAlone, if_neg fun hkey => h (hasKey_iff.mp hkey)]
  clear h
  induction members with
  | nil => simp [membersMarkAlone]
  | cons m ms ih => simpa [membersMarkAlone] using fun _ => ih

/-- An object that marks an entity does so alone if it has one member. -/
theorem marksAlone_mark (h : Value.entityKey ∈ members.map (·.1)) :
    (obj members).marksAlone ↔ members.length = 1 := by
  rw [marksAlone, if_pos (hasKey_iff.mpr h), beq_iff_eq]

end Json

/-! ### Entities -/

namespace Tree

variable {members : List (String × Json)} {path : Path} {u : Uid}

/-- A text that was read from a member is the value of that member. -/
theorem find_of_text {key text : String} {j : Json} {path' : Path}
    (hfield : field members key path = .ok j) (htext : string j path' = .ok text) :
    Json.find? key members = some (.str text) := by
  have hj : Json.find? key members = some j := by
    unfold field at hfield
    split at hfield
    · rename_i hfind
      rw [hfind, Except.ok.inj hfield]
    · cases hfield
  rw [hj]
  unfold string at htext
  split at htext
  · rw [Except.ok.inj htext]
  · cases htext

/-- The uid that a marking object gives is what its marking member stands for. -/
theorem exists_of_uid_mark (hmembers : (Json.obj members).Merged)
    (hkey : Value.entityKey ∈ members.map (·.1)) (h : uid (.obj members) path = .ok u) :
    ∃ j, (Value.entityKey, j) ∈ members ∧ Uid.ofJson j = .ok u := by
  unfold uid at h
  obtain ⟨_, houter, h⟩ := bind_eq_ok.mp h
  cases Json.obj.inj (eq_of_object houter)
  split at h
  · rename_i j hj
    have hmem := Json.mem_of_find hj
    obtain ⟨ms, hms, h⟩ := bind_eq_ok.mp h
    have hj' : j = .obj ms := eq_of_object hms
    have hmerged : j.Merged := (Json.merged_obj_iff.mp hmembers).2 _ hmem
    rw [hj'] at hmem hmerged
    have hnodup := (Json.merged_obj_iff.mp hmerged).1
    obtain ⟨_, htypeField, h⟩ := bind_eq_ok.mp h
    obtain ⟨type, htype, h⟩ := bind_eq_ok.mp h
    obtain ⟨_, hidField, h⟩ := bind_eq_ok.mp h
    obtain ⟨id, hid, h⟩ := bind_eq_ok.mp h
    split at h
    · rename_i hu
      cases h
      obtain ⟨rfl, hvalid⟩ := Uid.ofParts_eq_ok_iff.mp hu
      exact ⟨_, hmem, (Uid.ofJson_obj_eq_ok_iff hnodup).mpr
        ⟨⟨find_of_text htypeField htype, find_of_text hidField hid⟩, hvalid⟩⟩
    · cases h
  · rename_i hnone
    exact absurd hkey (Json.find?_eq_none_iff.mp hnone)

end Tree

/-! ### Literals -/

namespace Expr

variable {j : Json} {e : Expr} {path : Path}

/-- The expression means a value. The JSON value stands for that value if it marks entities alone,
and else for nothing. -/
def Renders (j : Json) (e : Expr) : Prop :=
  ∃ v, e.Means v ∧ ∀ w, Value.ofJson j = .ok w ↔ j.marksAlone ∧ w = v

/-- A literal renders a JSON value that stands for its value and marks entities alone. -/
theorem renders_lit {l : Literal} (hj : Value.ofJson j = .ok l.value) (halone : j.marksAlone) :
    Renders j (lit l) := by
  refine ⟨l.value, means_lit l, fun w => ?_⟩
  rw [hj, Except.ok.injEq, and_iff_right halone, eq_comm]

/-- An object that marks an entity and has other members stands for nothing. -/
theorem renders_entity {members : List (String × Json)} {u : Uid}
    (hmem : (Value.entityKey, j) ∈ members) (hu : Uid.ofJson j = .ok u) :
    Renders (.obj members) (lit (.entity u)) := by
  have hkey : Value.entityKey ∈ members.map (·.1) := List.mem_map_of_mem hmem
  refine ⟨.entity u, means_lit _, fun w => ?_⟩
  rw [Value.ofJson_obj_eq_ok_iff, Json.marksAlone_mark hkey,
    or_iff_left fun h => absurd hkey h.1]
  constructor
  · rintro ⟨j', u', rfl, hu', rfl⟩
    cases List.mem_singleton.mp hmem
    rw [← Except.ok.inj (hu.symm.trans hu')]
    exact ⟨rfl, rfl⟩
  · rintro ⟨hlength, rfl⟩
    obtain ⟨m, rfl⟩ := List.length_eq_one_iff.mp hlength
    cases List.mem_singleton.mp hmem
    exact ⟨j, u, rfl, hu, rfl⟩

/-- The expression of a set renders an array if the expressions of its items do. -/
theorem renders_set {items : List Json} {es : List Expr} (h : List.Forall₂ Renders items es) :
    Renders (.arr items) (set es) := by
  obtain ⟨vs, hmeans, hread⟩ := exists_forall₂_iff_eq h
  refine ⟨.ofItems vs, means_set hmeans, fun w => ?_⟩
  rw [Value.ofJson_arr_eq_ok_iff, Json.marksAlone_arr]
  constructor
  · rintro ⟨ws, hws, rfl⟩
    obtain ⟨halone, rfl⟩ := (hread ws).mp hws
    exact ⟨halone, rfl⟩
  · rintro ⟨halone, rfl⟩
    exact ⟨vs, (hread vs).mpr ⟨halone, rfl⟩, rfl⟩

/-- The expression of a record renders an object that marks no entity if the expressions of its
fields do. -/
theorem renders_record {members : List (String × Json)} {fs : List (String × Expr)}
    (hkey : Value.entityKey ∉ members.map (·.1)) (h : Ascending.Agree Renders members fs) :
    Renders (.obj members) (record fs) := by
  have hfields : List.Forall₂ (fun (m : String × Json) (f : String × Expr) =>
      ∃ c : String × Value, (f.1 = c.1 ∧ f.2.Means c.2) ∧
        ∀ d : String × Value, (m.1 = d.1 ∧ Value.ofJson m.2 = .ok d.2) ↔ m.2.marksAlone ∧ d = c)
      members fs := by
    refine List.Forall₂.imp ?_ h
    rintro ⟨k, j⟩ ⟨_, e⟩ ⟨rfl, v, hv, hj⟩
    refine ⟨(k, v), ⟨rfl, hv⟩, ?_⟩
    rintro ⟨l, w⟩
    rw [hj, Prod.mk.injEq, and_left_comm]
    exact and_congr_right fun _ => and_congr_left' eq_comm
  obtain ⟨vs, hmeans, hread⟩ := exists_forall₂_iff_eq hfields
  refine ⟨.ofFields vs, means_record hmeans, fun w => ?_⟩
  rw [Value.ofJson_obj_eq_ok_iff, Json.marksAlone_obj hkey, or_iff_right]
  · constructor
    · rintro ⟨-, ws, hws, rfl⟩
      obtain ⟨halone, rfl⟩ := (hread ws).mp hws
      exact ⟨halone, rfl⟩
    · rintro ⟨halone, rfl⟩
      exact ⟨hkey, vs, (hread vs).mpr ⟨halone, rfl⟩, rfl⟩
  · rintro ⟨j, u, rfl, -⟩
    exact hkey List.mem_cons_self

/-! ### Reading literals -/

section lists

variable {R : Json → Expr → Prop}

/-- What holds of an item and its expression, for any item, holds of the items and their
expressions. -/
theorem forall₂_of_ofLiteralItems {items : List Json} {i : Nat} {es : List Expr}
    (hR : ∀ j ∈ items, ∀ {path e}, ofLiteral j path = .ok e → R j e)
    (h : ofLiteralItems items i path = .ok es) : List.Forall₂ R items es := by
  induction items generalizing i es with
  | nil =>
      cases h
      exact .nil
  | cons j js ih =>
      obtain ⟨hj, hjs⟩ := List.forall_mem_cons.mp hR
      rw [ofLiteralItems] at h
      split at h
      · cases h
      · rename_i e he
        obtain ⟨es, hes, rfl⟩ := map_eq_ok.mp h
        exact .cons (hj he) (ih hjs hes)

/-- What holds of a member and its expression, for any member, holds of the fields. -/
theorem agree_of_ofLiteralFields {members : List (String × Json)} {fs : List (String × Expr)}
    (hR : ∀ m ∈ members, ∀ {path e}, ofLiteral m.2 path = .ok e → R m.2 e)
    (h : ofLiteralFields members path = .ok fs) : Ascending.Agree R members fs := by
  unfold Ascending.Agree
  induction members generalizing fs with
  | nil =>
      cases h
      exact .nil
  | cons m ms ih =>
      obtain ⟨hm, hms⟩ := List.forall_mem_cons.mp hR
      rw [ofLiteralFields] at h
      split at h
      · cases h
      · rename_i e he
        obtain ⟨fs, hfs, rfl⟩ := map_eq_ok.mp h
        exact .cons ⟨rfl, hm he⟩ (ih hms hfs)

end lists

/-- **Every expression of a literal renders it.** -/
theorem renders_of_ofLiteral (hj : j.Merged) (h : ofLiteral j path = .ok e) : Renders j e := by
  induction j using Json.induct generalizing path e with
  | null | float bits => cases h
  | bool b | str s =>
      cases h
      exact renders_lit rfl rfl
  | int n =>
      rw [ofLiteral] at h
      split at h
      · rename_i l hl
        cases h
        refine renders_lit ?_ rfl
        rw [Value.ofJson, Value.ofJsonAt, hl]
        rfl
      · cases h
  | arr items ih =>
      rw [ofLiteral] at h
      obtain ⟨es, hes, rfl⟩ := map_eq_ok.mp h
      have hitems := Json.merged_arr_iff.mp hj
      exact renders_set (forall₂_of_ofLiteralItems (fun j hmem => ih j hmem (hitems j hmem)) hes)
  | obj members ih =>
      rw [ofLiteral] at h
      split at h
      · rename_i hkey
        obtain ⟨u, hu, rfl⟩ := map_eq_ok.mp h
        obtain ⟨j, hmem, hread⟩ := Tree.exists_of_uid_mark hj (Json.hasKey_iff.mp hkey) hu
        exact renders_entity hmem hread
      · rename_i hkey
        obtain ⟨fs, hfs, rfl⟩ := map_eq_ok.mp h
        have hmembers := (Json.merged_obj_iff.mp hj).2
        exact renders_record (fun hmem => hkey (Json.hasKey_iff.mpr hmem))
          (agree_of_ofLiteralFields (fun m hmem => ih m hmem (hmembers m hmem)) hfs)

/-- **A literal means the same in a tree as in entity data**, if it marks entities alone. Evaluating
the expression that the tree gives it comes to a value, under every limit that is not below the
depth of the expression. In entity data the literal stands for that value if each object in it that
marks an entity has no other member, and for nothing else. -/
theorem eval_of_ofTree_value (hj : j.Merged) (h : ofTree (.obj [("Value", j)]) path = .ok e) :
    ∃ v, (∀ env limit, e.depth ≤ limit → e.eval env limit = .ok v) ∧
      ∀ w, Value.ofJson j = .ok w ↔ j.marksAlone ∧ w = v := by
  obtain ⟨v, hmeans, hread⟩ := renders_of_ofLiteral hj h
  exact ⟨v, fun env _ hlimit => hmeans.eval env hlimit, hread⟩

/-- A set of a record with an entity and of the least integer, twice, is the same set in a tree and
in entity data. -/
theorem eval_of_ofTree_value_owners :
    let mark : Json := .obj [(Value.entityKey, .obj [("type", .str "User"), ("id", .str "a")])]
    let least : Long := ⟨-9223372036854775808, by decide, by decide⟩
    let j : Json := .arr [.obj [("owner", mark)], .int least.toInt, .int least.toInt]
    let e : Expr := .set [.record [("owner", .lit (.entity ⟨"User", "a"⟩))], .lit (.long least),
      .lit (.long least)]
    let v : Value := .set [.long least, .record [("owner", .entity ⟨"User", "a"⟩)]]
    j.Merged ∧ ofTree (.obj [("Value", j)]) (.root "$") = .ok e ∧ Value.ofJson j = .ok v ∧
      ∀ env limit, 2 ≤ limit → e.eval env limit = .ok v := by
  intro mark least j e v
  have hj : j.Merged := rfl
  have he : ofTree (.obj [("Value", j)]) (.root "$") = .ok e := by decide +kernel
  have hv : Value.ofJson j = .ok v := by decide +kernel
  obtain ⟨w, heval, hread⟩ := eval_of_ofTree_value hj he
  obtain ⟨-, rfl⟩ := (hread v).mp hv
  exact ⟨hj, he, hv, heval⟩

/-- A tree takes an entity that is marked beside other members, and entity data does not. -/
theorem ofTree_value_beside_mark :
    ¬∀ (j : Json) (path : Path) (e : Expr), j.Merged → ofTree (.obj [("Value", j)]) path = .ok e →
      ∃ v, Value.ofJson j = .ok v ∧ ∀ env limit, e.depth ≤ limit → e.eval env limit = .ok v := by
  intro h
  let mark : Json := .obj [("type", .str "User"), ("id", .str "alice")]
  obtain ⟨v, hv, -⟩ := h (.obj [(Value.entityKey, mark), ("x", .int 1)]) (.root "$")
    (.lit (.entity ⟨"User", "alice"⟩)) rfl (by decide +kernel)
  rw [Value.ofJson_obj_eq_ok_iff] at hv
  rcases hv with ⟨j, u, hj, -⟩ | ⟨hkey, -⟩
  · cases hj
  · exact absurd List.mem_cons_self hkey

end Expr

end AccessPolicy
