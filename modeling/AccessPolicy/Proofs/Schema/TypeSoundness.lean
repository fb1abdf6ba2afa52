import AccessPolicy.Expr.Eval
import AccessPolicy.Proofs.Expr.Parts
import AccessPolicy.Proofs.Schema.Inhabits
import AccessPolicy.Schema.Typing

/-!
# The typing of expressions is sound

* `Env.Fits env s shape` — what an evaluation reads has the types that the schema gives it; checked
  requests and checked entities do (`Env.fits_of_checked`).
* `Expr.Precise` — every part of an expression has a type that says everything of its values, and
  every group is an entity or a set of entities.
* `Sound optional precise post x` — the outcome `x` is a result with the property `post`, or an
  error, which is one of the expected ones if `precise` holds.
* **Operations** (`Env.unary_sound`, `Env.binary_sound`, `Env.getAttr_sound`): one lemma for each
  place at which the evaluation looks into a value.
* `Expr.EvaluatesSoundly` — what is proved of every expression, with one lemma for each constructor
  that takes it there from the operands.
* **Soundness** (`Expr.evaluatesSoundly`, `Expr.typeIn_sound`): the value of a typed expression
  inhabits its type, and a precise expression fails only for reasons that no type can exclude.
-/

namespace AccessPolicy

/-! ### Precise expressions

The typing lets a value of unknown type stand anywhere, so that a typed expression may still find an
operand of a wrong kind. It does not if every part has a type that says everything of its values. -/

namespace StaticType

mutual

/-- Whether a type says everything of its values: there is no value of unknown type and no entity of
unknown type in it. -/
def isKnown : StaticType → Bool
  | bool | long | string => true
  | entity type => type.isSome
  | set element => isKnown element
  | record fields => areKnown fields
  | any => false

/-- Whether the types of fields say everything of their values. -/
def areKnown : List (String × StaticType) → Bool
  | [] => true
  | (_, t) :: fs => isKnown t && areKnown fs

end

/-- Whether a type is that of an entity or of a set of entities. -/
def isGroup : StaticType → Bool
  | entity _ | set (entity _) => true
  | _ => false

end StaticType

namespace Expr

/-- The group that a membership test names: the right operand of `in` and of `is … in`. -/
def group? : Expr → Option Expr
  | binary .mem _ g => some g
  | isMem _ _ g => some g
  | _ => none

variable {s : Schema} {shape : RequestShape}

/-- Every part has a type that says everything of its values, and every group is an entity or a set
of entities. -/
structure Precise (s : Schema) (shape : RequestShape) (e : Expr) : Prop where
  /-- The types of the parts are known. -/
  known : ∀ p ∈ e.parts, ∀ t, p.typeIn s shape = .ok t → t.isKnown
  /-- The groups are entities or sets of entities. -/
  groups : ∀ p ∈ e.parts, ∀ g, p.group? = some g → ∀ t, g.typeIn s shape = .ok t → t.isGroup

/-- What an expression needs to be precise, apart from its operands. -/
def isPreciseHere (s : Schema) (shape : RequestShape) (e : Expr) : Bool :=
  let holds (e : Expr) (test : StaticType → Bool) : Bool :=
    match e.typeIn s shape with
    | .ok t => test t
    | .error _ => true
  holds e (·.isKnown) && e.group?.all fun g => holds g (·.isGroup)

/-- An expression is precise if each of its parts is. -/
theorem precise_iff {e : Expr} :
    e.Precise s shape ↔ ∀ p ∈ e.parts, p.isPreciseHere s shape := by
  have holds : ∀ (p : Expr) (test : StaticType → Bool),
      (match p.typeIn s shape with
        | .ok t => test t
        | .error _ => true) = true ↔ ∀ t, p.typeIn s shape = .ok t → test t := by
    intro p test
    cases p.typeIn s shape <;> simp
  simp only [isPreciseHere, Bool.and_eq_true, holds, Option.all_eq_true]
  exact ⟨fun h p hp => ⟨h.known p hp, h.groups p hp⟩,
    fun h => ⟨fun p hp => (h p hp).1, fun p hp => (h p hp).2⟩⟩

instance (e : Expr) : Decidable (e.Precise s shape) :=
  decidable_of_iff _ precise_iff.symm

/-- The operands of a precise expression are precise. -/
theorem Precise.operand {e p : Expr} (h : e.Precise s shape) (hp : p ∈ e.operands) :
    p.Precise s shape where
  known q hq := h.known q (parts_subset_of_mem_operands hp hq)
  groups q hq := h.groups q (parts_subset_of_mem_operands hp hq)

/-- The type of a precise expression says everything of its values. -/
theorem Precise.isKnown {e : Expr} (h : e.Precise s shape) {t : StaticType}
    (ht : e.typeIn s shape = .ok t) : t.isKnown :=
  h.known e e.self_mem_parts t ht

/-- The group that a precise expression names is an entity or a set of entities. -/
theorem Precise.isGroup {e g : Expr} (h : e.Precise s shape) (hg : e.group? = some g)
    {t : StaticType} (ht : g.typeIn s shape = .ok t) : t.isGroup :=
  h.groups e e.self_mem_parts g hg t ht

end Expr

/-! ### Outcomes

That a value has its type and that an error is an expected one are proved side by side: both are
needed of the operands, the one for the operation and the other for its failures. -/

/-- An error that no static type can exclude: no operand of a wrong kind, no slot, and a missing
attribute only where its name is optional. -/
def EvalError.Expected (optional : String → Prop) : EvalError → Prop
  | typeMismatch _ _ => False
  | unlinkedSlot _ => False
  | attributeNotFound _ name => optional name
  | unknownEntity _ | integerOverflow _ | recursionLimit _ => True

/-- The outcome is a result with a property, or an error; in the `precise` case an expected one. -/
def Sound {α : Type} (optional : String → Prop) (precise : Prop) (post : α → Prop) :
    Except EvalError α → Prop
  | .ok a => post a
  | .error e => precise → e.Expected optional

section sound

variable {α β : Type} {optional : String → Prop} {p q : Prop} {post : α → Prop} {post' : β → Prop}

/-- What is sound under one condition on errors is sound under a stronger one. -/
theorem Sound.of_imp {x : Except EvalError α} (h : Sound optional p post x) (hqp : q → p) :
    Sound optional q post x := by
  cases x with
  | ok a => exact h
  | error e => exact fun hq => h (hqp hq)

/-- What is known of a sound result may be weakened. -/
theorem Sound.weaken {post₂ : α → Prop} {x : Except EvalError α} (h : Sound optional p post x)
    (hpost : ∀ a, post a → post₂ a) : Sound optional p post₂ x := by
  cases x with
  | ok a => exact hpost a h
  | error e => exact h

/-- A sequence is sound if its first part is, and its second part is for every result of it. -/
theorem Sound.bind {x : Except EvalError α} {f : α → Except EvalError β}
    (hx : Sound optional p post x) (hf : ∀ a, post a → Sound optional p post' (f a)) :
    Sound optional p post' (x >>= f) := by
  cases x with
  | ok a => exact hf a hx
  | error e => exact hx

/-- Applying a function to a sound result leaves its errors as they are. -/
theorem Sound.map {x : Except EvalError α} {f : α → β} (hx : Sound optional p post x)
    (hf : ∀ a, post a → post' (f a)) : Sound optional p post' (x.map f) := by
  cases x with
  | ok a => exact hf a hx
  | error e => exact hx

/-- Where nothing is precise, every outcome is sound whose result needs no property. -/
theorem sound_of_not {x : Except EvalError α} (hp : ¬ p) (h : ∀ a, post a) :
    Sound optional p post x := by
  cases x with
  | ok a => exact h a
  | error e => exact fun h => absurd h hp

/-- Exceeding the limit is always expected. -/
theorem sound_limit {x : Except EvalError α} {limit depth : Nat} (h : Sound optional p post x) :
    Sound optional p post (if limit < depth then .error (.recursionLimit limit) else x) := by
  split
  · exact fun _ => trivial
  · exact h

end sound

/-! ### Operands

Each operation looks for a value of one kind. The check of its operand lets pass what is of that
kind and what is of unknown type, so that a precise operand is found to be of that kind. -/

/-- An operand passes a check exactly if its type admits what is wanted. -/
theorem Demand.check_eq_ok {d : Demand} {t : StaticType} {u : Unit} :
    d.check t = .ok u ↔ d.admits t := by
  unfold Demand.check
  split <;> simp [*]

namespace Value

variable {optional : String → Prop} {v : Value} {t : StaticType}

/-- A value of a known type that admits a truth value is one; and so for the other kinds that are
wanted. -/
theorem asBool_sound (hv : v.Inhabits optional t) (ht : Demand.bool.admits t) :
    Sound optional t.isKnown (fun _ => True) v.asBool := by
  cases hv <;>
    first | trivial | exact sound_of_not Bool.false_ne_true fun _ => trivial

theorem asLong_sound (hv : v.Inhabits optional t) (ht : Demand.long.admits t) :
    Sound optional t.isKnown (fun _ => True) v.asLong := by
  cases hv <;>
    first | trivial | exact sound_of_not Bool.false_ne_true fun _ => trivial

theorem asString_sound (hv : v.Inhabits optional t) (ht : Demand.string.admits t) :
    Sound optional t.isKnown (fun _ => True) v.asString := by
  cases hv <;>
    first | trivial | exact sound_of_not Bool.false_ne_true fun _ => trivial

theorem asSet_sound (hv : v.Inhabits optional t) (ht : Demand.set.admits t) :
    Sound optional t.isKnown (fun _ => True) v.asSet := by
  cases hv <;>
    first | trivial | exact sound_of_not Bool.false_ne_true fun _ => trivial

theorem asEntity_sound (hv : v.Inhabits optional t) (ht : Demand.entity.admits t) :
    Sound optional t.isKnown (fun _ => True) v.asEntity := by
  cases hv <;>
    first | trivial | exact sound_of_not Bool.false_ne_true fun _ => trivial

/-- Entities are what a set of entities has for items. -/
theorem asEntities_sound {p : Prop} {items : List Value} {type : Option String}
    (h : ∀ v ∈ items, v.Inhabits optional (.entity type)) :
    Sound optional p (fun _ => True) (asEntities items) := by
  induction items with
  | nil => trivial
  | cons v vs ih =>
      have hv : Sound optional p (fun _ => True) v.asEntity := by
        cases h v List.mem_cons_self <;> trivial
      exact hv.bind fun u _ => (ih fun w hw => h w (List.mem_cons_of_mem v hw)).bind fun _ _ => trivial

end Value

namespace Env

variable {optional : String → Prop} {env : Env} {v w : Value} {t t' : StaticType}

/-- A value whose type is that of a group names entities. -/
theorem groupOf_sound (hv : v.Inhabits optional t) :
    Sound optional t.isGroup (fun _ => True) (groupOf v) := by
  cases hv with
  | anyEntity u => trivial
  | entity u => trivial
  | @set items element h =>
      cases element with
      | entity type => exact Value.asEntities_sound h
      | _ => exact sound_of_not Bool.false_ne_true fun _ => trivial
  | _ => exact sound_of_not Bool.false_ne_true fun _ => trivial

/-- A membership test can only fail since an entity is unknown, which no type excludes. -/
theorem memAny_sound {p : Prop} (u : Uid) (groups : List Uid) :
    Sound optional p (fun _ => True) (env.memAny u groups) := by
  unfold memAny
  split
  · trivial
  · split
    · trivial
    · split
      · trivial
      · exact fun _ => trivial

/-- Membership in a value whose type is that of a group is decided, or an entity is unknown. -/
theorem mem_sound (u : Uid) (hw : w.Inhabits optional t) :
    Sound optional t.isGroup (fun _ => True) (env.mem u w) :=
  (groupOf_sound hw).bind fun groups _ => memAny_sound u groups

/-! ### Operations

Here and nowhere else it is looked into values. With this the induction on expressions only has to
put outcomes in sequence. -/

/-- A unary operation on a value of a type that meets its demand. -/
theorem unary_sound {op : UnaryOp} (hv : v.Inhabits optional t) (ht : op.demand.admits t) :
    Sound optional t.isKnown (·.Inhabits optional op.resultType) (unary op v) := by
  cases op with
  | not => exact (Value.asBool_sound hv ht).bind fun b _ => .bool _
  | neg =>
      refine (Value.asLong_sound hv ht).bind fun n _ => ?_
      cases n.neg? with
      | none => exact fun _ => trivial
      | some m => exact .long m
  | isEmpty => exact (Value.asSet_sound hv ht).bind fun items _ => .bool _

/-- Comparing two numbers gives a truth value. -/
theorem compareLongs_sound {test : Int → Int → Bool} (hv : v.Inhabits optional t)
    (hw : w.Inhabits optional t') (ht : Demand.long.admits t) (ht' : Demand.long.admits t') :
    Sound optional (t.isKnown ∧ t'.isKnown) (·.Inhabits optional .bool) (compareLongs test v w) := by
  refine ((Value.asLong_sound hv ht).of_imp And.left).bind fun x _ => ?_
  exact ((Value.asLong_sound hw ht').of_imp And.right).bind fun y _ => .bool _

/-- Arithmetic on two numbers gives a number or overflows, which no type excludes. -/
theorem combineLongs_sound {op : BinaryOp} {f : Long → Long → Option Long}
    (hv : v.Inhabits optional t) (hw : w.Inhabits optional t') (ht : Demand.long.admits t)
    (ht' : Demand.long.admits t') :
    Sound optional (t.isKnown ∧ t'.isKnown) (·.Inhabits optional .long)
      (combineLongs op f v w) := by
  refine ((Value.asLong_sound hv ht).of_imp And.left).bind fun x _ => ?_
  refine ((Value.asLong_sound hw ht').of_imp And.right).bind fun y _ => ?_
  cases f x y with
  | none => exact fun _ => trivial
  | some n => exact .long n

/-- A binary operation on values of types that meet its demands. -/
theorem binary_sound {op : BinaryOp} (hv : v.Inhabits optional t) (hw : w.Inhabits optional t')
    (ht : ∀ d, op.demands.1 = some d → d.admits t)
    (ht' : ∀ d, op.demands.2 = some d → d.admits t') :
    Sound optional ((t.isKnown ∧ t'.isKnown) ∧ (op = .mem → t'.isGroup))
      (·.Inhabits optional op.resultType) (env.binary op v w) := by
  cases op with
  | eq | notEq => exact .bool _
  | less | lessEq | greater | greaterEq =>
      unfold binary
      exact (compareLongs_sound hv hw (ht _ rfl) (ht' _ rfl)).of_imp And.left
  | add | sub | mul =>
      exact (combineLongs_sound hv hw (ht _ rfl) (ht' _ rfl)).of_imp And.left
  | mem =>
      refine ((Value.asEntity_sound hv (ht _ rfl)).of_imp fun h => h.1.1).bind fun u _ => ?_
      exact ((mem_sound u hw).of_imp fun h => h.2 rfl).bind fun b _ => .bool b
  | contains =>
      exact ((Value.asSet_sound hv (ht _ rfl)).of_imp fun h => h.1.1).bind fun xs _ => .bool _
  | containsAll | containsAny =>
      refine ((Value.asSet_sound hv (ht _ rfl)).of_imp fun h => h.1.1).bind fun xs _ => ?_
      exact ((Value.asSet_sound hw (ht' _ rfl)).of_imp fun h => h.1.2).bind fun ys _ => .bool _

/-- A field of a record, of which only an optional one may be missing. -/
theorem field_sound {p : Prop} {values : List (String × Value)}
    {fields : List (String × StaticType)} {name target : String}
    (h : (Value.record values).Inhabits optional (.record fields))
    (ht : Ascending.get? name fields = some t) :
    Sound optional p (·.Inhabits optional t)
      (match Ascending.get? name values with
       | some x => .ok x
       | none => .error (.attributeNotFound target name)) := by
  cases h with
  | record inhabits missing _ =>
      cases hx : Ascending.get? name values with
      | some x => exact inhabits name t ht x hx
      | none => exact fun _ => missing name t ht hx

/-- Asking for an attribute of an entity or a record is answered. -/
theorem hasAttr_sound {name : String} (hv : v.Inhabits optional t)
    (ht : Demand.entityOrRecord.admits t) :
    Sound optional t.isKnown (fun _ => True) (env.hasAttr v name) := by
  cases hv <;>
    first | trivial | exact sound_of_not Bool.false_ne_true fun _ => trivial

/-! ### What an evaluation reads

Types say nothing of a request or a record by themselves: the checks of requests and of entities do.
An action is an entity of no declared type, which is why its record may have any attributes. -/

/-- What an evaluation reads has the types that the schema gives it for a kind of request: the
variables have theirs, and the records of entities of declared types have the declared
attributes. -/
structure Fits (env : Env) (s : Schema) (shape : RequestShape) : Prop where
  /-- The variables. -/
  var : ∀ x, (env.var x).Inhabits (s.declaresOptional ·) (shape.typeOf x)
  /-- The attributes of entities. -/
  attrs : ∀ u d e, s.entityType? u.type = some d → env.entities.find? u = some e →
    (Value.record e.attrs).Inhabits (s.declaresOptional ·)
      (.record (StaticType.ofAttributes d.attributes))

variable {s : Schema} {shape : RequestShape}

/-- An attribute of a value of a type that has it. -/
theorem getAttr_sound (hf : env.Fits s shape) {of : Expr} {name : String}
    (hv : v.Inhabits (s.declaresOptional ·) t) (ht : Expr.typeOfAttr s of name t = .ok t') :
    Sound (s.declaresOptional ·) t.isKnown (·.Inhabits (s.declaresOptional ·) t')
      (env.getAttr v name) := by
  cases hv with
  | any v =>
      cases ht
      exact sound_of_not Bool.false_ne_true .any
  | anyEntity u =>
      cases ht
      exact sound_of_not Bool.false_ne_true .any
  | entity u =>
      simp only [Expr.typeOfAttr] at ht
      split at ht
      · rename_i r d hd
        cases ht
        obtain ⟨decl, hdecl, hget⟩ := Option.bind_eq_some_iff.mp hd
        simp only [getAttr]
        -- No type says that an entity has a record.
        cases he : env.entities.find? u with
        | none => exact fun _ => trivial
        | some e =>
            refine field_sound (hf.attrs u decl e hdecl he) ?_
            simp [StaticType.get?_ofAttributes, hget]
      · cases ht
  | @record values fields inhabits missing declared =>
      simp only [Expr.typeOfAttr] at ht
      split at ht
      · rename_i hget
        cases ht
        exact field_sound (.record inhabits missing declared) hget
      · cases ht
  | _ => cases ht

end Env

section checked

variable {s : Schema} {env : Env}

/-- A schema does not use the type of an action for entities. -/
def Schema.SeparatesActions (s : Schema) : Prop :=
  ∀ u, s.hasAction u → ¬ s.hasType u.type

/-- Whether a schema keeps the types of its actions apart can be decided by its declarations. -/
theorem Schema.separatesActions_iff :
    s.SeparatesActions ↔ ∀ a ∈ s.actions, ¬ s.hasType a.1.type := by
  refine ⟨fun h a ha => h a.1 (Ascending.hasKey_of_mem ha), fun h u hu => ?_⟩
  obtain ⟨d, hd⟩ := Option.isSome_iff_exists.mp hu
  exact h (u, d) (Ascending.mem_of_get? hd)

instance : Decidable s.SeparatesActions :=
  decidable_of_iff _ Schema.separatesActions_iff.symm

/-- The kind of a request whose action has the given declaration. -/
def Request.shapeFor (r : Request) (d : ActionDecl) : RequestShape :=
  ⟨r.action, r.principal.type, r.resource.type, d.context⟩

/-- What the context of an action declares as optional, the schema does. -/
theorem Schema.declaresOptional_of_context {u : Uid} {d : ActionDecl}
    (hd : s.action? u = some d) {name : String}
    (h : SchemaType.fieldsDeclareOptional name d.context) : s.declaresOptional name := by
  refine Bool.or_eq_true_iff.mpr (.inr (List.any_eq_true.mpr ⟨(u, d), ?_, h⟩))
  exact Ascending.mem_of_get? hd

/-- What the attributes of an entity type declare as optional, the schema does. -/
theorem Schema.declaresOptional_of_attributes {type : String} {d : EntityDecl}
    (hd : s.entityType? type = some d) {name : String}
    (h : SchemaType.fieldsDeclareOptional name d.attributes) : s.declaresOptional name := by
  refine Bool.or_eq_true_iff.mpr (.inl (List.any_eq_true.mpr ⟨(type, d), ?_, h⟩))
  exact Ascending.mem_of_get? hd

/-- What an accepted request and accepted entities give an evaluation has the types of the
schema. -/
theorem Env.fits_of_checked (hs : s.SeparatesActions) {d : ActionDecl}
    (hd : s.action? env.request.action = some d) (hr : s.checkRequest env.request = .ok ())
    (he : ∀ e ∈ env.entities.records, s.checkEntity e = .ok ()) :
    env.Fits s (env.request.shapeFor d) where
  var x := by
    cases x with
    | principal | action | resource => exact .entity _
    | context =>
        simp only [Schema.checkRequest, hd, bind_eq_ok, mapError_eq_ok] at hr
        obtain ⟨-, -, -, -, hc⟩ := hr
        exact Attributes.inhabits_of_check (fun name => s.declaresOptional_of_context hd) hc
  attrs u decl e hdecl hfind := by
    have hu : e.uid = u := by simpa using List.find?_some hfind
    have hmem : e ∈ env.entities.records := List.mem_of_find?_eq_some hfind
    subst hu
    have hchecked := he e hmem
    unfold Schema.checkEntity at hchecked
    split at hchecked
    · rename_i haction
      refine absurd ?_ (hs e.uid haction)
      simp only [Schema.hasType, hdecl, Option.isSome_some]
    · rw [hdecl] at hchecked
      obtain ⟨⟨⟩, hc, -⟩ := bind_eq_ok.mp hchecked
      exact Attributes.inhabits_of_check (fun name => s.declaresOptional_of_attributes hdecl)
        (mapError_eq_ok.mp hc)

end checked

/-! ### Sets and records -/

/-- An item of a set has the type of the elements. -/
theorem inhabits_elementOf {optional : String → Prop} {v : Value} {t : StaticType}
    {ts : List StaticType} (ht : t ∈ ts) (hv : v.Inhabits optional t) :
    v.Inhabits optional (.elementOf ts) := by
  cases ts with
  | nil => cases ht
  | cons t' ts =>
      simp only [StaticType.elementOf]
      split
      · rename_i hall
        rcases List.mem_cons.mp ht with rfl | ht
        · exact hv
        · obtain rfl : t = t' := by simpa using List.all_eq_true.mp hall t ht
          exact hv
      · exact .any v

/-- Each item has one of the types. -/
theorem exists_inhabits {optional : String → Prop} {items : List Value} {ts : List StaticType}
    (h : List.Forall₂ (Value.Inhabits optional) items ts) {v : Value} (hv : v ∈ items) :
    ∃ t ∈ ts, v.Inhabits optional t := by
  induction h with
  | nil => cases hv
  | cons hw h ih =>
      rcases List.mem_cons.mp hv with rfl | hv
      · exact ⟨_, List.mem_cons_self, hw⟩
      · obtain ⟨t, ht, hvt⟩ := ih hv
        exact ⟨t, List.mem_cons_of_mem _ ht, hvt⟩

/-- The set of some items has the type of a set of their types. -/
theorem inhabits_ofItems {optional : String → Prop} {items : List Value} {ts : List StaticType}
    (h : List.Forall₂ (Value.Inhabits optional) items ts) :
    (Value.ofItems items).Inhabits optional (.set (.elementOf ts)) := by
  refine .set fun v hv => ?_
  obtain ⟨t, ht, hvt⟩ := exists_inhabits h (Ascending.mem_of_mem_ofList hv)
  exact inhabits_elementOf ht hvt

/-- The record of some fields has the type of a record with the types of the fields; none of them is
missing. -/
theorem inhabits_ofFields {optional : String → Prop} {fields : List (String × Value)}
    {ts : List (String × StaticType)}
    (h : Ascending.Agree (Value.Inhabits optional) fields ts) :
    (Value.ofFields fields).Inhabits optional (.record (Ascending.ofPairs ts)) := by
  have hagree := fun k => h.ofPairs.get? k
  refine .record (fun k t ht v hv => ?_) (fun k t ht hv => ?_) fun m hm => ?_
  · have := hagree k
    rw [ht, hv] at this
    cases this with
    | some hvt => exact hvt
  · have := hagree k
    rw [ht, hv] at this
    cases this
  · obtain ⟨v, hv⟩ := Option.isSome_iff_exists.mp (Ascending.hasKey_of_mem hm)
    have := hagree m.1
    rw [hv] at this
    generalize hget : Ascending.get? m.1 (Ascending.ofPairs ts) = o at this
    cases this with
    | some _ => simp only [Ascending.hasKey, hget, Option.isSome_some]

/-! ### Soundness -/

section soundness

variable {s : Schema} {shape : RequestShape} {env : Env} {limit : Nat}

/-- Without a demand every type passes; with one, the types that admit it do. -/
theorem checkOption_eq_ok {d : Option Demand} {t : StaticType} {u : Unit} :
    Demand.checkOption d t = .ok u ↔ ∀ d', d = some d' → d'.admits t := by
  cases d <;> simp [Demand.checkOption, Demand.check_eq_ok]

namespace Expr

/-- Whatever type an expression has, its evaluation is sound for it at every depth: a value inhabits
the type, and if the expression is precise an error is an expected one. This is what an induction on
expressions takes from operands to expressions; each constructor has a lemma for its step. -/
def EvaluatesSoundly (env : Env) (s : Schema) (shape : RequestShape) (limit : Nat) (e : Expr) : Prop :=
  ∀ t, e.typeIn s shape = .ok t → ∀ depth,
    Sound (s.declaresOptional ·) (e.Precise s shape) (·.Inhabits (s.declaresOptional ·) t)
      (e.evalAt env limit depth)

/-! #### Operands -/

section operands

variable {e p : Expr} {t : StaticType}

/-- The types of the operands of a precise expression are known. -/
theorem Precise.isKnown_operand (h : e.Precise s shape) (hp : p ∈ e.operands)
    (ht : p.typeIn s shape = .ok t) : t.isKnown :=
  (h.operand hp).isKnown ht

/-- An operand is sound as far as the expression around it is precise. -/
theorem EvaluatesSoundly.operand (h : p.EvaluatesSoundly env s shape limit) (hp : p ∈ e.operands)
    (ht : p.typeIn s shape = .ok t) (depth : Nat) :
    Sound (s.declaresOptional ·) (e.Precise s shape) (·.Inhabits (s.declaresOptional ·) t)
      (p.evalAt env limit depth) :=
  (h t ht depth).of_imp fun he => he.operand hp

/-- An operand that has to be a truth value, and what is done with it. -/
theorem EvaluatesSoundly.bind_asBool {α : Type} {f : Bool → Except EvalError α} {post : α → Prop}
    (h : p.EvaluatesSoundly env s shape limit) (hp : p ∈ e.operands)
    (ht : p.typeIn s shape = .ok t) (hd : Demand.bool.admits t) (depth : Nat)
    (hf : ∀ b, Sound (s.declaresOptional ·) (e.Precise s shape) post (f b)) :
    Sound (s.declaresOptional ·) (e.Precise s shape) post
      (p.evalAt env limit depth >>= fun v => v.asBool >>= f) := by
  refine (h.operand hp ht depth).bind fun v hv => ?_
  exact ((Value.asBool_sound hv hd).of_imp fun he => he.isKnown_operand hp ht).bind fun b _ => hf b

end operands

/-! #### Literals, variables and slots -/

/-- A literal comes to a value of its type. -/
theorem evaluatesSoundly_lit (l : Literal) : (lit l).EvaluatesSoundly env s shape limit := by
  intro t h depth
  rw [evalAt]
  refine sound_limit ?_
  cases l with
  | bool b => cases h; exact .bool b
  | long n => cases h; exact .long n
  | string x => cases h; exact .string x
  | entity u =>
      -- the type of the entity is declared, or the entity is a declared action
      simp only [typeIn, Schema.typeOfLiteral] at h
      split at h
      · cases h
        exact .entity u
      · split at h <;> cases h

/-- A variable has the type that the kind of the request gives it. -/
theorem evaluatesSoundly_var (hf : env.Fits s shape) (x : Var) :
    (var x).EvaluatesSoundly env s shape limit := by
  intro t h depth
  cases h
  rw [evalAt]
  exact sound_limit (hf.var x)

/-- A slot has no value, and its type is not known: an expression with a slot is not precise. -/
theorem evaluatesSoundly_slot (x : Slot) : (slot x).EvaluatesSoundly env s shape limit := by
  intro t h depth
  cases h
  rw [evalAt]
  exact sound_limit fun hp => absurd (hp.isKnown rfl) Bool.false_ne_true

/-! #### Operators -/

/-- A unary operation checks its operand, so that its evaluation finds the kind it wants. -/
theorem evaluatesSoundly_unary {op : UnaryOp} {e : Expr} (he : e.EvaluatesSoundly env s shape limit) :
    (unary op e).EvaluatesSoundly env s shape limit := by
  intro t h depth
  simp only [typeIn_unary, bind_eq_ok, pure_eq_ok, Demand.check_eq_ok] at h
  obtain ⟨te, hte, -, hd, rfl⟩ := h
  have hmem : e ∈ (unary op e).operands := by simp [operands]
  rw [evalAt]
  refine sound_limit ((he.operand hmem hte _).bind fun v hv => ?_)
  exact (Env.unary_sound hv hd).of_imp fun hp => hp.isKnown_operand hmem hte

/-- A binary operation checks both operands, so that its evaluation finds the kinds it wants. -/
theorem evaluatesSoundly_binary {op : BinaryOp} {a b : Expr}
    (ha : a.EvaluatesSoundly env s shape limit) (hb : b.EvaluatesSoundly env s shape limit) :
    (binary op a b).EvaluatesSoundly env s shape limit := by
  intro t h depth
  simp only [typeIn, bind_eq_ok, pure_eq_ok, checkOption_eq_ok] at h
  obtain ⟨ta, hta, tb, htb, -, hda, -, hdb, rfl⟩ := h
  have hmemA : a ∈ (binary op a b).operands := by simp [operands]
  have hmemB : b ∈ (binary op a b).operands := by simp [operands]
  rw [evalAt]
  refine sound_limit ((ha.operand hmemA hta _).bind fun v hv => ?_)
  refine (hb.operand hmemB htb _).bind fun w hw => ?_
  refine (Env.binary_sound hv hw hda hdb).of_imp fun hp => ?_
  refine ⟨⟨hp.isKnown_operand hmemA hta, hp.isKnown_operand hmemB htb⟩, ?_⟩
  rintro rfl
  exact hp.isGroup rfl htb

/-- The right operand of a conjunction counts only where the left one holds. -/
theorem evaluatesSoundly_and {a b : Expr} (ha : a.EvaluatesSoundly env s shape limit)
    (hb : b.EvaluatesSoundly env s shape limit) : (and a b).EvaluatesSoundly env s shape limit := by
  intro t h depth
  simp only [typeIn, bind_eq_ok, pure_eq_ok, Demand.check_eq_ok] at h
  obtain ⟨ta, hta, -, hda, tb, htb, -, hdb, rfl⟩ := h
  rw [evalAt]
  refine sound_limit (ha.bind_asBool (by simp [operands]) hta hda _ fun x => ?_)
  split
  · exact hb.bind_asBool (by simp [operands]) htb hdb _ fun y => .bool y
  · exact .bool false

/-- The right operand of a disjunction counts only where the left one does not hold. -/
theorem evaluatesSoundly_or {a b : Expr} (ha : a.EvaluatesSoundly env s shape limit)
    (hb : b.EvaluatesSoundly env s shape limit) : (or a b).EvaluatesSoundly env s shape limit := by
  intro t h depth
  simp only [typeIn, bind_eq_ok, pure_eq_ok, Demand.check_eq_ok] at h
  obtain ⟨ta, hta, -, hda, tb, htb, -, hdb, rfl⟩ := h
  rw [evalAt]
  refine sound_limit (ha.bind_asBool (by simp [operands]) hta hda _ fun x => ?_)
  split
  · exact .bool true
  · exact hb.bind_asBool (by simp [operands]) htb hdb _ fun y => .bool y

/-- The type of both branches is the type of either; branches of different types have one that says
nothing. -/
theorem evaluatesSoundly_ite {c a b : Expr} (hc : c.EvaluatesSoundly env s shape limit)
    (ha : a.EvaluatesSoundly env s shape limit) (hb : b.EvaluatesSoundly env s shape limit) :
    (ite c a b).EvaluatesSoundly env s shape limit := by
  intro t h depth
  simp only [typeIn, bind_eq_ok, pure_eq_ok, Demand.check_eq_ok] at h
  obtain ⟨tc, htc, -, hdc, ta, hta, tb, htb, rfl⟩ := h
  rw [evalAt]
  refine sound_limit (hc.bind_asBool (by simp [operands]) htc hdc _ fun x => ?_)
  have join : ∀ {t : StaticType} {w : Value}, (ta = tb → t = ta) →
      w.Inhabits (s.declaresOptional ·) t →
      w.Inhabits (s.declaresOptional ·) (if ta = tb then ta else .any) := by
    intro t w ht hw
    split
    · rename_i heq
      exact ht heq ▸ hw
    · exact .any w
  cases x with
  | true => exact (ha.operand (by simp [operands]) hta _).weaken fun w => join fun _ => rfl
  | false => exact (hb.operand (by simp [operands]) htb _).weaken fun w => join Eq.symm

/-! #### Attributes, patterns and types -/

/-- The value of an attribute has the type that is declared for it, and only an attribute that may
be missing is missing. -/
theorem evaluatesSoundly_getAttr (hf : env.Fits s shape) {e : Expr} {name : String}
    (he : e.EvaluatesSoundly env s shape limit) :
    (getAttr e name).EvaluatesSoundly env s shape limit := by
  intro t h depth
  simp only [typeIn, bind_eq_ok] at h
  obtain ⟨te, hte, hattr⟩ := h
  have hmem : e ∈ (getAttr e name).operands := by simp [operands]
  rw [evalAt]
  refine sound_limit ?_
  split
  · rename_i hcontext
    -- the context is read in place, where the type of a record is known
    obtain rfl : e = .var .context := by
      unfold isContext at hcontext
      split at hcontext
      · rfl
      · cases hcontext
    cases hte
    simp only [typeOfAttr, RequestShape.typeOf] at hattr
    split at hattr
    · rename_i hget
      cases hattr
      exact Env.field_sound (hf.var .context) hget
    · cases hattr
  · refine (he.operand hmem hte _).bind fun v hv => ?_
    exact (Env.getAttr_sound hf hv hattr).of_imp fun hp => hp.isKnown_operand hmem hte

/-- Asking for an attribute gives a truth value. -/
theorem evaluatesSoundly_hasAttr {e : Expr} {name : String}
    (he : e.EvaluatesSoundly env s shape limit) :
    (hasAttr e name).EvaluatesSoundly env s shape limit := by
  intro t h depth
  simp only [typeIn, bind_eq_ok, pure_eq_ok, Demand.check_eq_ok] at h
  obtain ⟨te, hte, -, hd, rfl⟩ := h
  have hmem : e ∈ (hasAttr e name).operands := by simp [operands]
  rw [evalAt]
  refine sound_limit ?_
  split
  · exact .bool _
  · refine (he.operand hmem hte _).bind fun v hv => ?_
    exact ((Env.hasAttr_sound hv hd).of_imp fun hp => hp.isKnown_operand hmem hte).bind
      fun b _ => .bool b

/-- Matching a string gives a truth value. -/
theorem evaluatesSoundly_like {e : Expr} {pattern : List Glob}
    (he : e.EvaluatesSoundly env s shape limit) :
    (like e pattern).EvaluatesSoundly env s shape limit := by
  intro t h depth
  simp only [typeIn, bind_eq_ok, pure_eq_ok, Demand.check_eq_ok] at h
  obtain ⟨te, hte, -, hd, rfl⟩ := h
  have hmem : e ∈ (like e pattern).operands := by simp [operands]
  rw [evalAt]
  refine sound_limit ((he.operand hmem hte _).bind fun v hv => ?_)
  exact ((Value.asString_sound hv hd).of_imp fun hp => hp.isKnown_operand hmem hte).bind
    fun x _ => .bool _

/-- Testing the type of an entity gives a truth value. -/
theorem evaluatesSoundly_is {e : Expr} {type : String} (he : e.EvaluatesSoundly env s shape limit) :
    (is e type).EvaluatesSoundly env s shape limit := by
  intro t h depth
  simp only [typeIn, bind_eq_ok, Demand.check_eq_ok] at h
  obtain ⟨te, hte, -, hd, hres⟩ := h
  have hmem : e ∈ (is e type).operands := by simp [operands]
  obtain rfl : .bool = t := by
    split at hres <;> cases hres
    rfl
  rw [evalAt]
  refine sound_limit ((he.operand hmem hte _).bind fun v hv => ?_)
  exact ((Value.asEntity_sound hv hd).of_imp fun hp => hp.isKnown_operand hmem hte).bind
    fun u _ => .bool _

/-- The group is looked at only where the entity has the type. -/
theorem evaluatesSoundly_isMem {e g : Expr} {type : String}
    (he : e.EvaluatesSoundly env s shape limit) (hg : g.EvaluatesSoundly env s shape limit) :
    (isMem e type g).EvaluatesSoundly env s shape limit := by
  intro t h depth
  simp only [typeIn, bind_eq_ok, Demand.check_eq_ok] at h
  obtain ⟨te, hte, -, hd, hres⟩ := h
  have hmemE : e ∈ (isMem e type g).operands := by simp [operands]
  have hmemG : g ∈ (isMem e type g).operands := by simp [operands]
  split at hres
  · simp only [bind_eq_ok, pure_eq_ok, Demand.check_eq_ok] at hres
    obtain ⟨tg, htg, -, -, rfl⟩ := hres
    rw [evalAt]
    refine sound_limit ((he.operand hmemE hte _).bind fun v hv => ?_)
    refine ((Value.asEntity_sound hv hd).of_imp fun hp => hp.isKnown_operand hmemE hte).bind
      fun u _ => ?_
    split
    · refine (hg.operand hmemG htg _).bind fun w hw => ?_
      exact ((Env.mem_sound u hw).of_imp fun hp => hp.isGroup rfl htg).bind fun b _ => .bool b
    · exact .bool false
  · cases hres

/-! #### Sets and records -/

/-- The items of a list, one after the other. -/
theorem evalItems_sound {es : List Expr} (h : ∀ e ∈ es, e.EvaluatesSoundly env s shape limit)
    (depth : Nat) : ∀ {ts : List StaticType}, typesIn s shape es = .ok ts →
    Sound (s.declaresOptional ·) (∀ e ∈ es, e.Precise s shape)
      (List.Forall₂ (Value.Inhabits (s.declaresOptional ·)) · ts) (evalItems env limit es depth) := by
  induction es with
  | nil =>
      rintro ts ⟨⟩
      exact .nil
  | cons e es ih =>
      intro ts hts
      rw [List.forall_mem_cons] at h
      simp only [typesIn, bind_eq_ok, pure_eq_ok] at hts
      obtain ⟨t, ht, ts, hts, rfl⟩ := hts
      rw [evalItems]
      refine ((h.1 t ht _).of_imp fun hp => hp e List.mem_cons_self).bind fun v hv => ?_
      exact ((ih h.2 hts).of_imp fun hp x hx => hp x (List.mem_cons_of_mem e hx)).bind
        fun vs hvs => .cons hv hvs

/-- The fields of a list, one after the other. -/
theorem evalFields_sound {fs : List (String × Expr)}
    (h : ∀ f ∈ fs, f.2.EvaluatesSoundly env s shape limit) (depth : Nat) :
    ∀ {ts : List (String × StaticType)}, fieldTypesIn s shape fs = .ok ts →
    Sound (s.declaresOptional ·) (∀ f ∈ fs, f.2.Precise s shape)
      (Ascending.Agree (Value.Inhabits (s.declaresOptional ·)) · ts)
      (evalFields env limit fs depth) := by
  induction fs with
  | nil =>
      rintro ts ⟨⟩
      exact .nil
  | cons f fs ih =>
      obtain ⟨k, e⟩ := f
      intro ts hts
      rw [List.forall_mem_cons] at h
      simp only [fieldTypesIn, bind_eq_ok, pure_eq_ok] at hts
      obtain ⟨t, ht, ts, hts, rfl⟩ := hts
      rw [evalFields]
      refine ((h.1 t ht _).of_imp fun hp => hp (k, e) List.mem_cons_self).bind fun v hv => ?_
      exact ((ih h.2 hts).of_imp fun hp f hf => hp f (List.mem_cons_of_mem _ hf)).bind
        fun vs hvs => .cons ⟨rfl, hv⟩ hvs

/-- A set has items of the type that the types of its expressions join to. -/
theorem evaluatesSoundly_set {items : List Expr}
    (h : ∀ e ∈ items, e.EvaluatesSoundly env s shape limit) :
    (set items).EvaluatesSoundly env s shape limit := by
  intro t ht depth
  simp only [typeIn, bind_eq_ok, pure_eq_ok] at ht
  obtain ⟨ts, hts, rfl⟩ := ht
  rw [evalAt]
  refine sound_limit (Sound.map ?_ fun vs hvs => inhabits_ofItems hvs)
  exact (evalItems_sound h _ hts).of_imp fun hp e he => hp.operand he

/-- A record has fields of the types of its expressions. -/
theorem evaluatesSoundly_record {fields : List (String × Expr)}
    (h : ∀ f ∈ fields, f.2.EvaluatesSoundly env s shape limit) :
    (record fields).EvaluatesSoundly env s shape limit := by
  intro t ht depth
  simp only [typeIn, bind_eq_ok, pure_eq_ok] at ht
  obtain ⟨ts, hts, rfl⟩ := ht
  rw [evalAt]
  refine sound_limit (Sound.map ?_ fun vs hvs => inhabits_ofFields hvs)
  exact (evalFields_sound h _ hts).of_imp fun hp f hf => hp.operand (List.mem_map_of_mem hf)

/-! #### All expressions -/

/-- **Every expression evaluates soundly**, by induction: each constructor takes soundness from its
operands. -/
theorem evaluatesSoundly (hf : env.Fits s shape) (e : Expr) :
    e.EvaluatesSoundly env s shape limit := by
  induction e using induction_operands with
  | step e ih =>
      cases e with
      | lit l => exact evaluatesSoundly_lit l
      | var x => exact evaluatesSoundly_var hf x
      | slot x => exact evaluatesSoundly_slot x
      | set items => exact evaluatesSoundly_set ih
      | record fields =>
          exact evaluatesSoundly_record fun f hmem => ih f.2 (List.mem_map_of_mem hmem)
      | unary op e => exact evaluatesSoundly_unary (ih e (by simp [operands]))
      | getAttr e name => exact evaluatesSoundly_getAttr hf (ih e (by simp [operands]))
      | hasAttr e name => exact evaluatesSoundly_hasAttr (ih e (by simp [operands]))
      | like e pattern => exact evaluatesSoundly_like (ih e (by simp [operands]))
      | is e type => exact evaluatesSoundly_is (ih e (by simp [operands]))
      | binary op a b =>
          exact evaluatesSoundly_binary (ih a (by simp [operands])) (ih b (by simp [operands]))
      | and a b =>
          exact evaluatesSoundly_and (ih a (by simp [operands])) (ih b (by simp [operands]))
      | or a b => exact evaluatesSoundly_or (ih a (by simp [operands])) (ih b (by simp [operands]))
      | isMem e type g =>
          exact evaluatesSoundly_isMem (ih e (by simp [operands])) (ih g (by simp [operands]))
      | ite c a b =>
          exact evaluatesSoundly_ite (ih c (by simp [operands])) (ih a (by simp [operands]))
            (ih b (by simp [operands]))

end Expr

/-- **The typing of expressions is sound**: let a schema not use the types of its actions for
entities, and let it accept a request and every record of a store. Whenever an expression has a
static type for the kind of that request, then its value inhabits the type, and if the expression is
precise its evaluation fails at most with an expected error: neither with an operand of a wrong kind
nor with a slot, and with a missing attribute only if the name is declared as optional. -/
theorem Expr.typeIn_sound (hs : s.SeparatesActions) {d : ActionDecl}
    (hd : s.action? env.request.action = some d) (hr : s.checkRequest env.request = .ok ())
    (he : ∀ e ∈ env.entities.records, s.checkEntity e = .ok ()) {e : Expr} {t : StaticType}
    (ht : e.typeIn s (env.request.shapeFor d) = .ok t) :
    (∀ v, e.eval env limit = .ok v → v.Inhabits (s.declaresOptional ·) t) ∧
      (e.Precise s (env.request.shapeFor d) →
        ∀ err, e.eval env limit = .error err → err.Expected (s.declaresOptional ·)) := by
  have h : Sound (s.declaresOptional ·) (e.Precise s (env.request.shapeFor d))
      (·.Inhabits (s.declaresOptional ·) t) (e.evalAt env limit 0) :=
    Expr.evaluatesSoundly (Env.fits_of_checked hs hd hr he) e t ht 0
  refine ⟨fun v hv => ?_, fun hp err herr => ?_⟩
  · rw [eval] at hv
    rwa [hv] at h
  · rw [eval] at herr
    rw [herr] at h
    exact h hp

/-- An attribute that may be missing, read from an entity that lacks it: the expression is precise,
and its error is an expected one. -/
theorem Expr.typeIn_sound_missingAttribute :
    let user : EntityDecl := ⟨[], [("age", false, .long)]⟩
    let view : ActionDecl := ⟨[], ["User"], ["User"], []⟩
    let s : Schema := ⟨[("User", user)], [(⟨"Action", "view"⟩, view)]⟩
    let r : Request := .ofUids ⟨"User", "ann"⟩ ⟨"Action", "view"⟩ ⟨"User", "bob"⟩
    let env : Env := ⟨r, ⟨[.ofUid ⟨"User", "ann"⟩]⟩⟩
    let e : Expr := .binary .less (.lit (.long ⟨17, by decide, by decide⟩))
      (.getAttr (.var .principal) "age")
    e.typeIn s (r.shapeFor view) = .ok .bool ∧ e.Precise s (r.shapeFor view) ∧
      e.eval env 8 = .error (.attributeNotFound "User::\"ann\"" "age") ∧
      (EvalError.attributeNotFound "User::\"ann\"" "age").Expected (s.declaresOptional ·) := by
  intro user view s r env e
  have ht : e.typeIn s (env.request.shapeFor view) = .ok .bool := by decide +kernel
  have hp : e.Precise s (env.request.shapeFor view) := by decide +kernel
  have he : e.eval env 8 = .error (.attributeNotFound "User::\"ann\"" "age") := by decide +kernel
  have hs : s.SeparatesActions := by decide +kernel
  have hd : s.action? env.request.action = some view := by decide +kernel
  exact ⟨ht, hp, he,
    (Expr.typeIn_sound hs hd (by decide +kernel) (by decide +kernel) ht).2 hp _ he⟩

end soundness

end AccessPolicy
