import AccessPolicy.Grammar.Policy
import AccessPolicy.Proofs.Parse.Legible
import AccessPolicy.Proofs.Policy.WellFormed

/-!
# What is parsed is well-formed

* `Policy.Parsed` — a policy has the shapes that can be written, and its conditions can be read
  again; every policy that is read is such (`ensures_policy`).
* **Policies** (`Policy.wellFormed_of_parse`) and **sets** (`PolicySet.wellFormed_of_parse`) that
  are read are well-formed, and the set of a text has no links (`PolicySet.parsed_of_parse`).
-/

namespace AccessPolicy

/-- A policy as it is read. -/
structure Policy.Parsed (p : Policy) : Prop extends p.Shaped where
  /-- The conditions can be read again. -/
  conditions : ∀ c ∈ p.conditions, Grammar.Condition c.body

end AccessPolicy

namespace AccessPolicy.Grammar

open Grammar.Parser

/-! ### Policies -/

/-- The keys of annotations are identifiers other than `id`, and they ascend. -/
structure Header.Valid (h : Header) : Prop where
  /-- The keys are identifiers other than `id`. -/
  keys : ∀ a ∈ h.annotations, Name.isIdent a.1 ∧ a.1 ≠ "id"
  /-- The keys ascend. -/
  sorted : Ascending.Sorted (Ascending.keys h.annotations)

/-- Annotations that are read on top of valid ones are valid: `id` is kept apart, and a key that is
there is refused. -/
theorem ensures_header {count : Nat} : ∀ {h : Header}, h.Valid →
    Ensures (header count h) Header.Valid := by
  induction count with
  | zero => exact fun hh => .pure hh
  | succ count ih =>
      intro h hh
      unfold header
      refine ensures_eat.seq fun eaten => ?_
      split
      · apply ensures_ident.bind
        intro key hkey
        apply ensures_expect.seq
        intro _
        apply ensures_string.seq
        intro text
        apply ensures_expect.seq
        intro _
        split
        · exact ih ⟨hh.keys, hh.sorted⟩
        rename_i hid
        split
        · exact .fail
        · refine ih ⟨fun a ha => ?_, hh.sorted.put⟩
          rcases Ascending.mem_of_mem_put ha with rfl | ha
          · exact ⟨hkey, hid⟩
          · exact hh.keys a ha
      · exact .pure hh

theorem ensures_effect : Ensures effect fun _ => True := by
  unfold effect
  refine ensures_peek.bind fun found _ => ?_
  split
  · split
    · exact ensures_advance.seq fun _ => .pure trivial
    · exact ensures_unexpected
  · exact ensures_unexpected

/-- A reference that is read fits the slot of its place: a uid is valid, and no other slot is
taken. -/
theorem ensures_reference {slot : Slot} : Ensures (reference slot) fun r => r.fits slot := by
  unfold reference
  refine ensures_eat.seq fun eaten => ?_
  split
  · refine ensures_ident.bind fun name _ => ?_
    dsimp only
    split
    · exact .pure (decide_eq_true rfl)
    · exact .fail
  · exact ensures_uid.bind fun u hu => .pure hu

/-- The scope of a principal or a resource that is read can stand there. -/
theorem ensures_entityScope {var : Var} {slot : Slot} :
    Ensures (entityScope var slot) fun s => s.fitsEntity slot := by
  unfold entityScope
  refine ensures_expect.seq fun _ => ensures_eat.seq fun eqEq => ?_
  split
  · exact ensures_reference.bind fun r hr => .pure hr
  refine ensures_eat.seq fun mem => ?_
  split
  · exact ensures_reference.bind fun r hr => .pure hr
  refine ensures_eat.seq fun is => ?_
  split
  · apply ensures_typeName.bind
    intro type htype
    apply ensures_eat.seq
    intro mem
    split
    · apply ensures_reference.bind
      intro r hr
      exact .pure (Bool.and_eq_true_iff.mpr ⟨htype, hr⟩)
    · exact .pure htype
  · exact .pure rfl

/-- The scope of an action that is read can stand there. -/
theorem ensures_actionScope : Ensures actionScope fun s => s.fitsAction := by
  unfold actionScope
  refine ensures_expect.seq fun _ => ensures_eat.seq fun eqEq => ?_
  split
  · exact ensures_uid.bind fun u hu => .pure hu
  refine ensures_eat.seq fun mem => ?_
  split
  · refine ensures_eat.seq fun opened => ?_
    split
    · exact (ensures_listUntil ensures_uid).bind fun us hus => .pure (List.all_eq_true.mpr hus)
    · exact ensures_uid.bind fun u hu => .pure hu
  refine ensures_peek.bind fun found _ => ?_
  split
  · exact .fail
  · exact .pure rfl

theorem ensures_clauseKind? : Ensures clauseKind? fun _ => True := by
  unfold clauseKind?
  refine ensures_eat.seq fun whenTrue => ?_
  split
  · exact .pure trivial
  refine ensures_eat.seq fun unlessTrue => ?_
  split
  · exact .pure trivial
  · exact .pure trivial

/-- The bodies of the clauses that are read can be read again. -/
theorem ensures_clauses {count : Nat} :
    Ensures (clauses count) fun cs => ∀ c ∈ cs, Condition c.body := by
  induction count with
  | zero => exact .pure nofun
  | succ count ih =>
      unfold clauses
      refine ensures_clauseKind?.seq fun kind => ?_
      split
      · exact .pure nofun
      · apply ensures_expect.seq
        intro _
        apply ensures_bounded.bind
        intro body hbody
        apply ensures_expect.seq
        intro _
        apply ih.bind
        intro rest hrest
        exact .pure (List.forall_mem_cons.mpr ⟨hbody, hrest⟩)

/-- **A policy that was read** has the shapes that can be written. -/
theorem ensures_policy {id : String} : Ensures (policy id) Policy.Parsed := by
  have hnone : Header.Valid ⟨id, []⟩ := ⟨nofun, .nil⟩
  unfold policy
  apply ensures_remaining.seq
  intro count
  apply (ensures_header hnone).bind
  intro h hh
  apply ensures_effect.seq
  intro e
  apply ensures_expect.seq
  intro _
  apply ensures_entityScope.bind
  intro principal hprincipal
  apply ensures_expect.seq
  intro _
  apply ensures_actionScope.bind
  intro action haction
  apply ensures_expect.seq
  intro _
  apply ensures_entityScope.bind
  intro resource hresource
  apply ensures_expect.seq
  intro _
  apply ensures_remaining.seq
  intro count
  apply ensures_clauses.bind
  intro cs hcs
  apply ensures_expect.seq
  intro _
  exact .pure ⟨⟨hprincipal, haction, hresource, hh.keys, hh.sorted⟩, hcs⟩

/-- What adding policies keeps is kept while policies are read, by induction on the policies. -/
theorem ensures_policies {I : PolicySet → Prop}
    (hadd : ∀ set p set', I set → p.Parsed → set.add p = .ok set' → I set') {count : Nat} :
    ∀ {place : Nat} {set : PolicySet}, I set →
      Ensures (policies count place set) fun r => ∀ set', r = .ok set' → I set' := by
  induction count with
  | zero =>
      intro place set hset
      refine .pure ?_
      rintro _ ⟨⟩
      exact hset
  | succ count ih =>
      intro place set hset
      unfold policies
      refine ensures_peek.bind fun found _ => ?_
      split
      · refine .pure ?_
        rintro _ ⟨⟩
        exact hset
      · refine ensures_policy.bind fun p hp => ?_
        split
        · exact .pure nofun
        · rename_i set' hset'
          exact ih (hadd _ _ _ hset hp hset')

end AccessPolicy.Grammar

namespace AccessPolicy

open Grammar

/-- A policy that was read is well-formed. -/
theorem Policy.Parsed.wellFormed {p : Policy} (h : p.Parsed) : p.WellFormed :=
  ⟨h.toShaped, fun c hc => ⟨(h.conditions c hc).legible.valid, (h.conditions c hc).depth⟩⟩

/-- **The policy of a text** is well-formed. -/
theorem Policy.wellFormed_of_parse {text : String} {id : Option String} {p : Policy}
    (h : parse text id = .ok p) : p.WellFormed :=
  (post_of_readAll ensures_policy h).wellFormed

namespace PolicySet

variable {text : String} {s : PolicySet}

/-- What adding policies to the empty set keeps holds of the set of a text. -/
theorem invariant_of_parse {I : PolicySet → Prop} (hempty : I empty)
    (hadd : ∀ set p set', I set → p.Parsed → set.add p = .ok set' → I set')
    (h : parse text = .ok s) : I s :=
  post_of_readText (ensures_remaining.seq fun _ => ensures_policies hadd hempty) h

/-- **The set of a text** is well-formed. -/
theorem wellFormed_of_parse (h : parse text = .ok s) : s.WellFormed :=
  invariant_of_parse wellFormed_empty (fun _ _ _ hset hp hadd => hset.add hp.wellFormed hadd) h

/-- The set of a text has no links, and its policies are as they are read. -/
theorem parsed_of_parse (h : parse text = .ok s) :
    s.links = [] ∧ ∀ p ∈ s.policies ++ s.templates, p.Parsed := by
  have hempty : empty.links = [] ∧ ∀ p ∈ empty.policies ++ empty.templates, p.Parsed :=
    ⟨rfl, fun _ hp => (List.not_mem_nil hp).elim⟩
  refine invariant_of_parse (I := fun set => set.links = [] ∧
    ∀ p ∈ set.policies ++ set.templates, p.Parsed) hempty (fun set p set' hset hp hadd => ?_) h
  obtain ⟨-, rfl⟩ := add_eq_ok_iff.mp hadd
  obtain ⟨hlinks, hset⟩ := hset
  rw [List.forall_mem_append] at hset
  unfold push
  split
  · exact ⟨hlinks, List.forall_mem_append.mpr ⟨hset.1, List.forall_mem_append.mpr
      ⟨hset.2, List.forall_mem_singleton.mpr hp⟩⟩⟩
  · exact ⟨hlinks, List.forall_mem_append.mpr ⟨List.forall_mem_append.mpr
      ⟨hset.1, List.forall_mem_singleton.mpr hp⟩, hset.2⟩⟩

end PolicySet

end AccessPolicy
