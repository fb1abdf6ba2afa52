import AccessPolicy.Proofs.Schema.Built
import AccessPolicy.Proofs.Text.Name

/-!
# Names of declarations

A declaration has a qualified name, its namespace and an identifier, and inside a namespace names
are written relative to it.

* **Qualifying and splitting are inverse** (`Schema.splitName_qualify`), so that a qualified name
  belongs to one namespace, and a name is written in full outside of it
  (`Schema.relativeName_qualify`).
* `Declared.Qualified declared` — all that is declared has a qualified name.
* **What a name was resolved to is found again by its relative name**, in the namespace where it was
  resolved (`Declared.typeName_relativeName`, `Declared.group_relativeName`). It is not so in other
  namespaces, where a local declaration may take the place of a global one.
-/

namespace AccessPolicy

namespace Schema

/-! ### Cutting names -/

/-- Characters without a colon among them are passed over. -/
theorem splitReversed_append {cs ds : List Char} (h : ∀ c ∈ cs, c ≠ ':') (seen : List Char) :
    splitReversed seen (cs ++ ':' :: ':' :: ds) = some (ds.reverse, cs.reverse ++ seen) := by
  induction cs generalizing seen with
  | nil => rw [List.nil_append, splitReversed, if_pos ⟨rfl, rfl⟩, List.reverse_nil, List.nil_append]
  | cons c cs ih =>
      obtain ⟨hc, hcs⟩ := List.forall_mem_cons.mp h
      have hstep : splitReversed seen (c :: (cs ++ ':' :: ':' :: ds)) =
          splitReversed (c :: seen) (cs ++ ':' :: ':' :: ds) := by
        cases cs with
        | nil => rw [List.nil_append, splitReversed, if_neg fun hcolon => hc hcolon.1]
        | cons d cs => rw [List.cons_append, splitReversed, if_neg fun hcolon => hc hcolon.1]
      rw [List.cons_append, hstep, ih hcs]
      simp

/-- Where there is no colon, there is no pair of colons to split at. -/
theorem splitReversed_of_forall_ne {cs : List Char} (h : ∀ c ∈ cs, c ≠ ':') (seen : List Char) :
    splitReversed seen cs = none := by
  induction cs generalizing seen with
  | nil => rfl
  | cons c cs ih =>
      obtain ⟨hc, hcs⟩ := List.forall_mem_cons.mp h
      cases cs with
      | nil => rfl
      | cons d cs => rw [splitReversed, if_neg fun hcolon => hc hcolon.1, ih hcs]

/-- Where there is no colon, there is no separator. -/
theorem hasSeparator_of_forall_ne {cs : List Char} (h : ∀ c ∈ cs, c ≠ ':') :
    hasSeparator cs = false := by
  induction cs with
  | nil => rfl
  | cons c cs ih =>
      obtain ⟨hc, hcs⟩ := List.forall_mem_cons.mp h
      cases cs with
      | nil => rfl
      | cons d cs =>
          have hcolon : (c == ':') = false := beq_eq_false_iff_ne.mpr hc
          rw [hasSeparator, hcolon, Bool.false_and, Bool.false_or, ih hcs]

/-- A pair of colons between two texts is found. -/
theorem hasSeparator_append (cs ds : List Char) : hasSeparator (cs ++ ':' :: ':' :: ds) := by
  induction cs with
  | nil => rfl
  | cons c cs ih =>
      cases cs with
      | nil => rw [List.cons_append, List.nil_append, hasSeparator, Bool.or_eq_true]; exact .inr rfl
      | cons d cs =>
          rw [List.cons_append, List.cons_append, hasSeparator, Bool.or_eq_true]
          exact .inr ih

/-- An identifier has no colon. -/
theorem ne_colon_of_isIdent {name : String} (h : Name.isIdent name) :
    ∀ c ∈ name.toList, c ≠ ':' := by
  rintro c hc rfl
  exact absurd (Name.isRest_of_isIdentChars h ':' hc) (by decide)

/-! ### Qualified names -/

section qualified

variable {space space' name name' : String}

/-- The characters of a name in a namespace that has a name. -/
theorem toList_qualify (h : space ≠ "") :
    (Name.qualify space name).toList = space.toList ++ ':' :: ':' :: name.toList := by
  have hempty : ¬space.isEmpty := by simpa using h
  simp [Name.qualify, hempty]

@[simp] theorem qualify_empty : Name.qualify "" name = name := rfl

/-- **Qualifying and splitting are inverse.** -/
theorem splitName_qualify (h : Name.isIdent name) :
    splitName (Name.qualify space name) = (space, name) := by
  have hname := ne_colon_of_isIdent h
  have hreverse : ∀ c ∈ name.toList.reverse, c ≠ ':' :=
    fun c hc => hname c (List.mem_reverse.mp hc)
  by_cases hspace : space = ""
  · subst hspace
    rw [qualify_empty, splitName, splitReversed_of_forall_ne hreverse]
  · rw [splitName, toList_qualify hspace, List.reverse_append, List.reverse_cons,
      List.reverse_cons]
    simp only [List.append_assoc, List.cons_append, List.nil_append]
    rw [splitReversed_append hreverse]
    simp

/-- The namespace of a qualified identifier is the one it was qualified with. -/
@[simp] theorem spaceOf_qualify (h : Name.isIdent name) :
    spaceOf (Name.qualify space name) = space := by
  rw [spaceOf, splitName_qualify h]

/-- Qualified names are equal only if their parts are. -/
theorem qualify_injective (h : Name.isIdent name) (h' : Name.isIdent name')
    (heq : Name.qualify space name = Name.qualify space' name') : space = space' ∧ name = name' := by
  have hsplit : splitName (Name.qualify space name) = (space, name) := splitName_qualify h
  rw [heq, splitName_qualify h'] at hsplit
  exact ⟨(congrArg Prod.fst hsplit).symm, (congrArg Prod.snd hsplit).symm⟩

/-- An identifier has no separator. -/
theorem hasSeparator_of_isIdent (h : Name.isIdent name) : hasSeparator name.toList = false :=
  hasSeparator_of_forall_ne (ne_colon_of_isIdent h)

/-- A name in a namespace that has a name has a separator. -/
theorem hasSeparator_qualify (h : space ≠ "") : hasSeparator (Name.qualify space name).toList := by
  rw [toList_qualify h]
  exact hasSeparator_append _ _

/-- **A qualified name inside a namespace** is its last segment in its own, and is in full in any
other. -/
theorem relativeName_qualify (h : Name.isIdent name) :
    relativeName space' (Name.qualify space name) =
      if space = space' then name else Name.qualify space name := by
  rw [relativeName, splitName_qualify h]

theorem isIdent_action : Name.isIdent "Action" := by
  decide

end qualified

/-! ### Declared names -/

/-- All that is declared has a qualified name. -/
structure Declared.Qualified (declared : Declared) : Prop where
  /-- Entity types are identifiers in namespaces. -/
  types : ∀ t ∈ declared.types, ∃ space name, Name.isIdent name ∧ t = Name.qualify space name
  /-- Actions have the type of actions of a namespace. -/
  actions : ∀ u ∈ declared.actions, ∃ space, u.type = Name.qualify space "Action"

namespace Declared

variable {declared : Declared} {space path path' name t : String}

/-- **A type that a name was resolved to** is found again by its relative name. A name that stands
for a global type has not been taken for a local one, and so it will not be. -/
theorem typeName_relativeName (hdeclared : declared.Qualified)
    (h : declared.typeName space path name = .ok t) :
    declared.typeName space path' (relativeName space t) = .ok t := by
  have ht := mem_of_typeName h
  obtain ⟨space₁, base, hbase, rfl⟩ := hdeclared.types t ht
  have hmem := List.contains_iff_mem.mpr ht
  rw [relativeName_qualify hbase]
  by_cases hspace : space₁ = space
  · subst hspace
    rw [if_pos rfl, typeName]
    simp only [hasSeparator_of_isIdent hbase, hmem, Bool.not_false, Bool.and_self, if_true]
  · rw [if_neg hspace]
    by_cases hglobal : space₁ = ""
    · subst hglobal
      rw [qualify_empty] at h hmem ⊢
      rw [typeName] at h ⊢
      simp only [hmem, if_true]
      split at h
      · rename_i hlocal
        -- What was found in the namespace has a separator, which an identifier lacks.
        have hseparator : hasSeparator (Name.qualify space name).toList :=
          hasSeparator_qualify (Ne.symm hspace)
        rw [Except.ok.inj h, hasSeparator_of_isIdent hbase] at hseparator
        cases hseparator
      · rename_i hlocal
        split at h
        · obtain rfl := Except.ok.inj h
          rw [if_neg hlocal]
        · cases h
    · rw [typeName]
      simp only [hasSeparator_qualify hglobal, hmem, Bool.not_true, Bool.false_and, if_true,
        Bool.false_eq_true, if_false]

/-- A group is resolved to a declared one. -/
theorem group_eq_ok_iff {u g g' : Uid} : declared.group space u g = .ok g' ↔
    (if g.type = "Action" then actionUid space g.id else g) = g' ∧ g' ∈ declared.actions := by
  unfold group
  generalize (if g.type = "Action" then actionUid space g.id else g) = resolved
  by_cases hmem : declared.actions.contains resolved
  · simp only [if_pos hmem, Except.ok.injEq]
    refine ⟨fun h => ⟨h, ?_⟩, fun h => h.1⟩
    rw [← h]
    exact List.contains_iff_mem.mp hmem
  · simp only [if_neg hmem]
    refine iff_of_false nofun fun h => hmem ?_
    rw [h.1]
    exact List.contains_iff_mem.mpr h.2

/-- **A group that was resolved** is found again by its relative name. -/
theorem group_relativeName (hdeclared : declared.Qualified) {u u' g g' : Uid}
    (h : declared.group space u g = .ok g') :
    declared.group space u' ⟨relativeName space g'.type, g'.id⟩ = .ok g' := by
  obtain ⟨hwritten, hmem⟩ := group_eq_ok_iff.mp h
  refine group_eq_ok_iff.mpr ⟨?_, hmem⟩
  obtain ⟨space₁, htype⟩ := hdeclared.actions g' hmem
  by_cases hspace : space₁ = space
  · have hrelative : relativeName space g'.type = "Action" := by
      rw [htype, relativeName_qualify isIdent_action, if_pos hspace]
    rw [if_pos hrelative, actionUid, ← hspace, ← htype]
  · have hrelative : relativeName space g'.type = g'.type := by
      rw [htype, relativeName_qualify isIdent_action, if_neg hspace]
    rw [hrelative, if_neg]
    -- A group of type `Action` is global, but was written as one of its namespace.
    intro haction
    split at hwritten
    · rw [← hwritten, actionUid] at htype
      exact hspace (qualify_injective isIdent_action isIdent_action htype).1.symm
    · rename_i hne
      rw [hwritten] at hne
      exact hne haction

end Declared

end Schema

end AccessPolicy
