import Mathlib.Data.List.Forall2
import Mathlib.Data.List.Perm.Basic

/-!
# Sequences that may fail

What it takes for a sequence of steps in `Except` to succeed: `bind_eq_ok` opens one step,
`check_bind_eq_ok` one that only checks, and `map_eq_ok` the last one. `mapM_eq_ok` opens the steps
over a list; where a step is known on each item, `mapM_eq_ok_iff_map_eq` gives the list that comes
of it. Parts of the steps over a list may be done before the others: all the checks
(`mapM_check_then_map`), or what every step starts with (`mapM_of_start`).
-/

namespace AccessPolicy

variable {ε α β : Type}

@[simp] theorem ok_bind (a : α) (f : α → Except ε β) : (Except.ok a >>= f) = f a :=
  rfl

/-- A sequence succeeds exactly if both of its parts do. -/
theorem bind_eq_ok {x : Except ε α} {f : α → Except ε β} {b : β} :
    (x >>= f) = .ok b ↔ ∃ a, x = .ok a ∧ f a = .ok b := by
  cases x <;> simp [bind, Except.bind]

/-- A check in front of a sequence has to pass. -/
theorem check_bind_eq_ok {check : Except ε Unit} {f : Unit → Except ε β} {b : β} :
    (check >>= f) = .ok b ↔ check = .ok () ∧ f () = .ok b := by
  cases check <;> simp [bind, Except.bind]

/-- A sequence fails exactly if it does not succeed. -/
theorem exists_error_iff {x : Except ε α} : (∃ e, x = .error e) ↔ ¬∃ a, x = .ok a := by
  cases x with
  | error e => exact iff_of_true ⟨e, rfl⟩ nofun
  | ok a => exact iff_of_false nofun fun h => h ⟨a, rfl⟩

/-- A mapped result is there exactly if the result is. -/
theorem map_eq_ok {x : Except ε α} {f : α → β} {b : β} :
    x.map f = .ok b ↔ ∃ a, x = .ok a ∧ f a = b := by
  cases x <;> simp [Except.map]

/-- Renaming errors makes no result. -/
theorem mapError_eq_ok {ε' : Type} {x : Except ε α} {f : ε → ε'} {a : α} :
    x.mapError f = .ok a ↔ x = .ok a := by
  rcases x with e | b <;> constructor <;> intro h <;> cases h <;> rfl

theorem pure_eq_ok {a b : α} : (pure a : Except ε α) = .ok b ↔ a = b := by
  simp [pure, Except.pure]

/-- A step over a list succeeds exactly if it does on each item. -/
theorem mapM_eq_ok {f : α → Except ε β} {as : List α} {bs : List β} :
    as.mapM f = .ok bs ↔ List.Forall₂ (fun a b => f a = .ok b) as bs := by
  induction as generalizing bs with
  | nil =>
      rw [List.forall₂_nil_left_iff, List.mapM_nil, pure_eq_ok]
      exact eq_comm
  | cons a as ih =>
      rw [List.forall₂_cons_left_iff, List.mapM_cons, bind_eq_ok]
      constructor
      · rintro ⟨b, hb, h⟩
        obtain ⟨bs', hbs', h⟩ := bind_eq_ok.mp h
        exact ⟨b, bs', hb, ih.mp hbs', (pure_eq_ok.mp h).symm⟩
      · rintro ⟨b, bs', hb, hbs', rfl⟩
        exact ⟨b, hb, bind_eq_ok.mpr ⟨bs', ih.mpr hbs', rfl⟩⟩

/-- Items can be paired off exactly if each of them has a partner. -/
theorem exists_forall₂_iff {R : α → β → Prop} {as : List α} :
    (∃ bs, List.Forall₂ R as bs) ↔ ∀ a ∈ as, ∃ b, R a b := by
  induction as with
  | nil => exact ⟨fun _ => nofun, fun _ => ⟨[], .nil⟩⟩
  | cons a as ih =>
      rw [List.forall_mem_cons, ← ih]
      constructor
      · rintro ⟨_, h⟩
        obtain ⟨b, bs, hb, hbs, -⟩ := List.forall₂_cons_left_iff.mp h
        exact ⟨⟨b, hb⟩, bs, hbs⟩
      · rintro ⟨⟨b, hb⟩, bs, hbs⟩
        exact ⟨b :: bs, .cons hb hbs⟩

/-- What items are paired off with has a partner among them. -/
theorem exists_of_mem_forall₂ {R : α → β → Prop} {as : List α} {bs : List β}
    (h : List.Forall₂ R as bs) {b : β} (hb : b ∈ bs) : ∃ a ∈ as, R a b := by
  induction h with
  | nil => cases hb
  | cons ha _ ih =>
      rcases List.mem_cons.mp hb with rfl | hb
      · exact ⟨_, List.mem_cons_self, ha⟩
      · obtain ⟨a, ha, hab⟩ := ih hb
        exact ⟨a, List.mem_cons_of_mem _ ha, hab⟩

/-- If each item can be paired off with one thing, on a condition, then the items can be paired off
with one list, if all of them meet the condition. -/
theorem exists_forall₂_iff_eq {γ : Type} {R : α → γ → Prop} {S : β → γ → Prop} {P : α → Prop}
    {as : List α} {bs : List β}
    (h : List.Forall₂ (fun a b => ∃ c, S b c ∧ ∀ d, R a d ↔ P a ∧ d = c) as bs) :
    ∃ cs, List.Forall₂ S bs cs ∧ ∀ ds, List.Forall₂ R as ds ↔ (∀ a ∈ as, P a) ∧ ds = cs := by
  induction h with
  | nil => exact ⟨[], .nil, by simp⟩
  | @cons a b as bs hab _ ih =>
      obtain ⟨c, hc, hR⟩ := hab
      obtain ⟨cs, hcs, hRs⟩ := ih
      refine ⟨c :: cs, .cons hc hcs, fun ds => ?_⟩
      simp only [List.forall₂_cons_left_iff, hR, hRs, List.forall_mem_cons]
      constructor
      · rintro ⟨_, _, ⟨hP, rfl⟩, ⟨hPs, rfl⟩, rfl⟩
        exact ⟨⟨hP, hPs⟩, rfl⟩
      · rintro ⟨⟨hP, hPs⟩, rfl⟩
        exact ⟨c, cs, ⟨hP, rfl⟩, ⟨hPs, rfl⟩, rfl⟩

/-- Where items are put in another order, what they are paired off with can be put in that order. -/
theorem exists_forall₂_of_perm {R : α → β → Prop} {as as' : List α} {bs : List β}
    (h : List.Forall₂ R as bs) (hperm : as.Perm as') : ∃ bs', List.Forall₂ R as' bs' ∧ bs'.Perm bs :=
  List.perm_comp_forall₂ hperm.symm h

/-- An item may be replaced by one that is paired off with everything that it is paired off with. -/
theorem forall₂_replace {R : α → β → Prop} {a a' : α} {front back : List α} {bs : List β}
    (h : List.Forall₂ R (front ++ a :: back) bs) (ha : ∀ b, R a b → R a' b) :
    List.Forall₂ R (front ++ a' :: back) bs := by
  induction front generalizing bs with
  | nil =>
      obtain ⟨b, bs', hb, hbs, rfl⟩ := List.forall₂_cons_left_iff.mp h
      exact .cons (ha b hb) hbs
  | cons c front ih =>
      obtain ⟨b, bs', hb, hbs, rfl⟩ := List.forall₂_cons_left_iff.mp h
      exact .cons hb (ih hbs)

/-- Items that are paired off with nothing but their images, on a condition, are paired off with the
list of the images. -/
theorem forall₂_iff_map_eq {R : α → β → Prop} {P : α → Prop} {f : α → β}
    (h : ∀ a b, R a b ↔ P a ∧ f a = b) {as : List α} {bs : List β} :
    List.Forall₂ R as bs ↔ (∀ a ∈ as, P a) ∧ as.map f = bs := by
  have hR : R = fun a b => P a ∧ f a = b := funext₂ fun a b => propext (h a b)
  rw [hR, List.forall₂_and_left, ← List.forall₂_map_left_iff, List.forall₂_eq_eq_eq]

/-- A step over a list that gives nothing but the image of an item, on a condition, gives the list
of the images. -/
theorem mapM_eq_ok_iff_map_eq {f : α → Except ε β} {P : α → Prop} {g : α → β}
    (h : ∀ a b, f a = .ok b ↔ P a ∧ g a = b) {as : List α} {bs : List β} :
    as.mapM f = .ok bs ↔ (∀ a ∈ as, P a) ∧ as.map g = bs :=
  mapM_eq_ok.trans (forall₂_iff_map_eq h)

/-- Where items are checked one after the other, it does not matter whether what comes of an item is
made at once or after the checks. -/
theorem mapM_check_then_map (check : α → Except ε Unit) (f : α → β) (as : List α) :
    (as.mapM check >>= fun _ => pure (as.map f)) =
      as.mapM fun a => check a >>= fun _ => pure (f a) := by
  induction as with
  | nil => rfl
  | cons a as ih =>
      rw [List.mapM_cons, List.mapM_cons, ← ih]
      cases check a with
      | error e => rfl
      | ok u =>
          cases as.mapM check with
          | error e => rfl
          | ok us => rfl

/-- What every item starts with may as well be done once, where there are items. -/
theorem mapM_of_start {γ : Type} (start : Except ε γ) (f : γ → α → Except ε β) {as : List α}
    (hne : as ≠ []) :
    (start >>= fun c => as.mapM (f c)) = as.mapM fun a => start >>= fun c => f c a := by
  cases start with
  | ok c => rfl
  | error e =>
      cases as with
      | nil => exact absurd rfl hne
      | cons a as =>
          rw [List.mapM_cons]
          rfl

/-- What a step over a list gives, it gives on an item. -/
theorem exists_of_mem_mapM {f : α → Except ε β} {as : List α} {bs : List β}
    (h : as.mapM f = .ok bs) {b : β} (hb : b ∈ bs) : ∃ a ∈ as, f a = .ok b :=
  exists_of_mem_forall₂ (mapM_eq_ok.mp h) hb

end AccessPolicy
