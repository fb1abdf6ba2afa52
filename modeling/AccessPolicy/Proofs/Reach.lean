import AccessPolicy.Proofs.Ascending
import AccessPolicy.Reach
import Mathlib.Logic.Relation

/-!
# What a search finds

* `Reach.Leads next a b` — there is a way from `a` to `b` by one edge or more.
* **Everything found can be reached** (`Reach.leads_of_mem_nodes`), whatever the bound on the steps.
* `Reach.Explores next queue seen found` — a search without a bound on its steps ends, with `found`.
* **A search ends** (`Reach.explores_nodes_iff`) where the edges are those of a map with distinct
  keys. Each step takes a node from the queue or sees the edges of a new key, so that
  `Reach.pending` and the length of the queue bound the steps that are left.
* **Everything that can be reached is found** (`Reach.mem_nodes_successors_iff`), as a search that
  has ended has found with every node the successors of the node (`Reach.Explores.closed`).
* `Reach.Seeks next target queue marked b` — a search for one node without a bound on its steps
  ends, with the answer `b`. It **ends** (`Reach.seeks_finds_iff`), as each step takes a node from
  the queue and each node that is put there is marked for the first time; and it **finds exactly
  what can be reached** (`Reach.finds_successors_iff`).
-/

namespace AccessPolicy.Reach

variable {α δ : Type} {next : α → List α} {a b : α}

/-- There is a way from one node to another by one edge or more. -/
def Leads (next : α → List α) : α → α → Prop :=
  Relation.TransGen fun x y => y ∈ next x

/-- There is a way from one node to another by any number of edges exactly if they are the same or
there is a way by one edge or more. -/
theorem eq_or_leads_iff :
    a = b ∨ Leads next a b ↔ Relation.ReflTransGen (fun x y => y ∈ next x) a b := by
  rw [Relation.reflTransGen_iff_eq_or_transGen, eq_comm]
  exact Iff.rfl

/-! ### Searches without a bound

The search of the program is bounded by the number of edges. It is compared with one that has no
bound, which is a relation, as nothing says beforehand that it ends. -/

section

variable [Ord α] {queue seen found found' : List α}

/-- A search that is not bounded takes nodes from the queue until none is left, and comes to the
nodes that it has seen then. -/
inductive Explores (next : α → List α) : (queue seen found : List α) → Prop
  /-- Nothing is left. -/
  | done (seen : List α) : Explores next [] seen seen
  /-- The next node was seen before. -/
  | skip {a : α} {queue seen found : List α} (ha : a ∈ seen) (h : Explores next queue seen found) :
      Explores next (a :: queue) seen found
  /-- The next node is new, and its successors are put at the end of the queue. -/
  | visit {a : α} {queue seen found : List α} (ha : a ∉ seen)
      (h : Explores next (queue ++ next a) (Ascending.insert a seen) found) :
      Explores next (a :: queue) seen found

/-- A search comes to one end. -/
theorem Explores.unique (h : Explores next queue seen found)
    (h' : Explores next queue seen found') : found = found' := by
  induction h with
  | done seen =>
      cases h'
      rfl
  | skip ha _ ih =>
      cases h' with
      | skip _ h' => exact ih h'
      | visit hna _ => exact absurd ha hna
  | visit hna _ ih =>
      cases h' with
      | skip ha _ => exact absurd ha hna
      | visit _ h' => exact ih h'

/-- A search finds the queue and what was seen, and with every node the successors of the node. -/
theorem Explores.closed [Std.LawfulEqOrd α] (h : Explores next queue seen found)
    (hseen : ∀ x ∈ seen, ∀ y ∈ next x, y ∈ seen ∨ y ∈ queue) :
    (∀ x, x ∈ queue ∨ x ∈ seen → x ∈ found) ∧ ∀ x ∈ found, ∀ y ∈ next x, y ∈ found := by
  induction h with
  | done seen =>
      refine ⟨fun x hx => hx.resolve_left List.not_mem_nil, fun x hx y hy => ?_⟩
      exact (hseen x hx y hy).resolve_right List.not_mem_nil
  | @skip a queue seen found ha _ ih =>
      obtain ⟨hfound, hclosed⟩ := ih fun x hx y hy => by
        rcases hseen x hx y hy with hy | hy
        · exact .inl hy
        · rcases List.mem_cons.mp hy with rfl | hy
          · exact .inl ha
          · exact .inr hy
      refine ⟨fun x hx => hfound x ?_, hclosed⟩
      rcases hx with hx | hx
      · rcases List.mem_cons.mp hx with rfl | hx
        · exact .inr ha
        · exact .inl hx
      · exact .inr hx
  -- What the visited element leads to is in the queue from now on.
  | @visit a queue seen found ha _ ih =>
      obtain ⟨hfound, hclosed⟩ := ih fun x hx y hy => by
        rcases Ascending.mem_insert.mp hx with rfl | hx
        · exact .inr (List.mem_append_right queue hy)
        · rcases hseen x hx y hy with hy | hy
          · exact .inl (Ascending.mem_insert.mpr (.inr hy))
          · rcases List.mem_cons.mp hy with rfl | hy
            · exact .inl (Ascending.mem_insert.mpr (.inl rfl))
            · exact .inr (List.mem_append_left _ hy)
      refine ⟨fun x hx => hfound x ?_, hclosed⟩
      rcases hx with hx | hx
      · rcases List.mem_cons.mp hx with rfl | hx
        · exact .inr (Ascending.mem_insert.mpr (.inl rfl))
        · exact .inl (List.mem_append_left _ hx)
      · exact .inr (Ascending.mem_insert.mpr (.inr hx))

end

/-! ### The edges of a map -/

variable [DecidableEq α]

section

variable (f : δ → List α)

/-- The successors of a node, where a map gives each node its edges. -/
def successors (ms : List (α × δ)) (a : α) : List α :=
  match Ascending.get? a ms with
  | none => []
  | some d => f d

/-- The number of the edges that start at keys which were not seen yet. -/
def pending (seen : List α) : List (α × δ) → Nat
  | [] => 0
  | m :: ms => (if m.1 ∈ seen then 0 else (f m.2).length) + pending seen ms

end

variable {f : δ → List α} {ms : List (α × δ)} {seen : List α}

theorem pending_nil (ms : List (α × δ)) : pending f [] ms = (ms.flatMap fun m => f m.2).length := by
  induction ms with
  | nil => rfl
  | cons m ms ih => rw [pending, ih, if_neg List.not_mem_nil, List.flatMap_cons, List.length_append]

theorem length_successors_le (ms : List (α × δ)) (a : α) :
    (successors f ms a).length ≤ pending f [] ms := by
  induction ms with
  | nil => exact Nat.le_refl 0
  | cons m ms ih =>
      rw [successors] at ih ⊢
      rw [pending, Ascending.get?, if_neg List.not_mem_nil]
      by_cases heq : a = m.1
      · rw [if_pos heq]
        exact Nat.le_add_right _ _
      · rw [if_neg heq]
        exact Nat.le_trans ih (Nat.le_add_left _ _)

/-- The successors of a node are what an entry of the node names, where no key comes twice. -/
theorem mem_successors_iff (hms : (Ascending.keys ms).Nodup) :
    b ∈ successors f ms a ↔ ∃ d, (a, d) ∈ ms ∧ b ∈ f d := by
  unfold successors
  constructor
  · intro h
    cases hd : Ascending.get? a ms with
    | none =>
        rw [hd] at h
        cases h
    | some d =>
        rw [hd] at h
        exact ⟨d, Ascending.mem_of_get? hd, h⟩
  · rintro ⟨d, hd, hb⟩
    rw [Ascending.get?_of_mem hms hd]
    exact hb

/-- How many of the nodes are not marked, each as often as it is listed. -/
def unmarked (marked : List α) (nodes : List α) : Nat :=
  nodes.countP (· ∉ marked)

/-- Marking more nodes leaves no more that are not marked. -/
theorem unmarked_le {marked marked' : List α} (nodes : List α) (h : ∀ x ∈ marked, x ∈ marked') :
    unmarked marked' nodes ≤ unmarked marked nodes :=
  List.countP_mono_left fun x _ hx => by
    rw [decide_eq_true_eq] at hx ⊢
    exact fun hmem => hx (h x hmem)

variable [Ord α]

/-! ### What is found can be reached -/

/-- What holds of the queue and of the seen nodes, and passes along edges, holds of what is
found. -/
theorem explore_forall {P : α → Prop} (hnext : ∀ x, P x → ∀ y ∈ next x, P y) (count : Nat)
    (queue seen : List α) (hqueue : ∀ x ∈ queue, P x) (hseen : ∀ x ∈ seen, P x) :
    ∀ x ∈ explore next count queue seen, P x := by
  induction count generalizing queue seen with
  | zero => exact hseen
  | succ count ih =>
      cases queue with
      | nil => exact hseen
      | cons a queue =>
          obtain ⟨ha, hqueue⟩ := List.forall_mem_cons.mp hqueue
          rw [explore]
          by_cases hmem : a ∈ seen
          · rw [if_pos hmem]
            exact ih queue seen hqueue hseen
          · rw [if_neg hmem]
            refine ih _ _ (List.forall_mem_append.mpr ⟨hqueue, hnext a ha⟩) fun x hx => ?_
            rcases Ascending.mem_of_mem_insert hx with rfl | hx
            · exact ha
            · exact hseen x hx

/-- **Everything found can be reached.** -/
theorem leads_of_mem_nodes {edges : Nat} (h : b ∈ nodes next edges a) : Leads next a b := by
  refine explore_forall (P := Leads next a) ?_ _ _ [] ?_ (List.forall_mem_nil _) b h
  · exact fun x hx y hy => hx.tail hy
  · exact fun x hx => .single hx

theorem sorted_explore [Std.TransOrd α] (count : Nat) (queue seen : List α)
    (h : Ascending.Sorted seen) : Ascending.Sorted (explore next count queue seen) := by
  induction count generalizing queue seen with
  | zero => exact h
  | succ count ih =>
      cases queue with
      | nil => exact h
      | cons a queue =>
          rw [explore]
          split
          · exact ih queue seen h
          · exact ih _ _ h.insert

/-- What is found is listed in order, and once. -/
theorem sorted_nodes [Std.TransOrd α] {edges : Nat} : Ascending.Sorted (nodes next edges a) :=
  sorted_explore _ _ _ .nil

/-! ### Searches for one node -/

section

variable {target : α} {bs queue marked : List α} {answer answer' : Bool}

/-- The target is found exactly if it is among the successors. -/
theorem push?_eq_none_iff : push? target bs queue marked = none ↔ target ∈ bs := by
  induction bs generalizing queue marked with
  | nil => exact iff_of_false nofun List.not_mem_nil
  | cons b bs ih =>
      rw [push?, List.mem_cons]
      by_cases hb : b = target
      · rw [if_pos hb]
        exact iff_of_true rfl (.inl hb.symm)
      · rw [if_neg hb, or_iff_right (Ne.symm hb)]
        split
        · exact ih
        · exact ih

/-- A search for a node that is not bounded takes nodes from the queue until the target is a
successor or none is left. -/
inductive Seeks (next : α → List α) (target : α) : (queue marked : List α) → Bool → Prop
  /-- Nothing is left. -/
  | lost (marked : List α) : Seeks next target [] marked false
  /-- The target is a successor of the next node. -/
  | found {a : α} {queue marked : List α} (h : push? target (next a) queue marked = none) :
      Seeks next target (a :: queue) marked true
  /-- The search goes on with the successors that were not marked before. -/
  | step {a : α} {queue marked queue' marked' : List α} {answer : Bool}
      (h : push? target (next a) queue marked = some (queue', marked'))
      (hrest : Seeks next target queue' marked' answer) : Seeks next target (a :: queue) marked answer

/-- A search for a node comes to one answer. -/
theorem Seeks.unique (h : Seeks next target queue marked answer)
    (h' : Seeks next target queue marked answer') : answer = answer' := by
  induction h with
  | lost marked =>
      cases h'
      rfl
  | found hnone =>
      cases h' with
      | found _ => rfl
      | step hsome _ => cases hnone.symm.trans hsome
  | step hsome _ ih =>
      cases h' with
      | found hnone => cases hnone.symm.trans hsome
      | step hsome' hrest' =>
          cases hsome.symm.trans hsome'
          exact ih hrest'

end

/-! ### What can be reached is found

The invariant of the search is that of each node which was seen the successors are seen or in the
queue. When the queue is empty, what was seen is closed under successors. -/

variable [Std.LawfulEqOrd α]

theorem pending_insert_of_not_mem (ha : a ∉ Ascending.keys ms) :
    pending f (Ascending.insert a seen) ms = pending f seen ms := by
  induction ms with
  | nil => rfl
  | cons m ms ih =>
      obtain ⟨hne, ha⟩ := List.ne_and_not_mem_of_not_mem_cons ha
      have hmem : m.1 ∈ Ascending.insert a seen ↔ m.1 ∈ seen :=
        Ascending.mem_insert.trans (or_iff_right hne.symm)
      rw [pending, pending, ih ha]
      simp only [hmem]

/-- Seeing a new node takes its edges away. -/
theorem pending_insert (hms : (Ascending.keys ms).Nodup) (ha : a ∉ seen) :
    pending f (Ascending.insert a seen) ms + (successors f ms a).length = pending f seen ms := by
  induction ms with
  | nil => rfl
  | cons m ms ih =>
      obtain ⟨k, d⟩ := m
      obtain ⟨hk, hms⟩ := List.nodup_cons.mp hms
      rw [pending, pending, successors, Ascending.get?]
      by_cases heq : a = k
      · subst heq
        rw [if_pos rfl, if_pos (Ascending.mem_insert.mpr (.inl rfl)), if_neg ha,
          pending_insert_of_not_mem hk, Nat.zero_add]
        exact Nat.add_comm _ (f d).length
      · have hmem : k ∈ Ascending.insert a seen ↔ k ∈ seen :=
          Ascending.mem_insert.trans (or_iff_right fun h => heq h.symm)
        have hrest := ih hms
        rw [successors] at hrest
        simp only [if_neg heq, hmem]
        omega

/-- A search with steps enough for its queue and the pending edges ends because nothing is left. -/
theorem explores_explore (hms : (Ascending.keys ms).Nodup) (count : Nat) (queue seen : List α)
    (hcount : queue.length + pending f seen ms ≤ count) :
    Explores (successors f ms) queue seen (explore (successors f ms) count queue seen) := by
  induction count generalizing queue seen with
  | zero =>
      obtain rfl : queue = [] := List.eq_nil_of_length_eq_zero (by omega)
      exact .done seen
  | succ count ih =>
      cases queue with
      | nil => exact .done seen
      | cons a queue =>
          rw [List.length_cons] at hcount
          rw [explore]
          by_cases ha : a ∈ seen
          · rw [if_pos ha]
            exact .skip ha (ih queue seen (by omega))
          · rw [if_neg ha]
            have hpending := pending_insert (f := f) hms ha
            have hlength : (queue ++ successors f ms a).length =
                queue.length + (successors f ms a).length := List.length_append
            exact .visit ha (ih _ _ (by omega))

/-- **A search ends**, where the edges are those of a map with distinct keys and all of them are
counted: it comes to what is found, and to nothing else. -/
theorem explores_nodes_iff (hms : (Ascending.keys ms).Nodup) {found : List α} :
    Explores (successors f ms) (successors f ms a) [] found ↔
      found = nodes (successors f ms) (ms.flatMap fun m => f m.2).length a := by
  have hlength := length_successors_le (f := f) ms a
  have hcount : (successors f ms a).length + pending f [] ms ≤
      2 * (ms.flatMap fun m => f m.2).length + 1 := by
    rw [pending_nil] at hlength ⊢
    omega
  have hends := explores_explore hms _ _ [] hcount
  constructor
  · exact fun h => h.unique hends
  · rintro rfl
    exact hends

/-- **A search finds exactly what can be reached**, where the edges are those of a map with distinct
keys and all of them are counted. -/
theorem mem_nodes_successors_iff (hms : (Ascending.keys ms).Nodup) :
    b ∈ nodes (successors f ms) (ms.flatMap fun m => f m.2).length a ↔
      Leads (successors f ms) a b := by
  have hends : Explores (successors f ms) (successors f ms a) []
      (nodes (successors f ms) (ms.flatMap fun m => f m.2).length a) :=
    (explores_nodes_iff hms).mpr rfl
  obtain ⟨hfound, hclosed⟩ := hends.closed nofun
  refine ⟨leads_of_mem_nodes, fun h => ?_⟩
  induction h with
  | single hb => exact hfound _ (.inl hb)
  | tail _ hc ih => exact hclosed _ ih _ hc

/-! ### What a search for one node finds

This search marks nodes when they are put into the queue and not when they are taken out, and it
does not mark the first one. The invariant allows for that: the first node counts as marked. -/

section

variable {target : α} {bs queue marked queue' marked' : List α} {answer : Bool}

/-- What is put into the queue are the successors that were not marked, and all of them are
marked. -/
theorem push?_eq_some (h : push? target bs queue marked = some (queue', marked')) :
    ∃ new, queue' = queue ++ new ∧ (∀ x ∈ new, x ∈ bs) ∧
      (∀ x, x ∈ marked' ↔ x ∈ marked ∨ x ∈ new) ∧ ∀ x ∈ bs, x ∈ marked' := by
  induction bs generalizing queue marked with
  | nil =>
      cases h
      exact ⟨[], (List.append_nil _).symm, nofun, fun x => by simp, nofun⟩
  | cons b bs ih =>
      rw [push?] at h
      by_cases hb : b = target
      · rw [if_pos hb] at h
        cases h
      rw [if_neg hb] at h
      by_cases hmem : b ∈ marked
      · rw [if_pos hmem] at h
        obtain ⟨new, hqueue, hsub, hmarked, hall⟩ := ih h
        refine ⟨new, hqueue, fun x hx => List.mem_cons_of_mem b (hsub x hx), hmarked, ?_⟩
        exact List.forall_mem_cons.mpr ⟨(hmarked b).mpr (.inl hmem), hall⟩
      · rw [if_neg hmem] at h
        obtain ⟨new, hqueue, hsub, hmarked, hall⟩ := ih h
        have hmarked' (x : α) : x ∈ marked' ↔ x ∈ marked ∨ x ∈ b :: new := by
          rw [hmarked, Ascending.mem_insert, List.mem_cons, or_comm (a := x = b), or_assoc]
        refine ⟨b :: new, by rw [hqueue, List.append_assoc]; rfl, ?_, hmarked', ?_⟩
        · exact List.forall_mem_cons.mpr ⟨List.mem_cons_self, fun x hx =>
            List.mem_cons_of_mem b (hsub x hx)⟩
        · exact List.forall_mem_cons.mpr ⟨(hmarked' b).mpr (.inr List.mem_cons_self), hall⟩

/-- What is found can be reached, if the nodes of the queue can. -/
theorem Seeks.leads {start : α} (h : Seeks next target queue marked true)
    (hqueue : ∀ x ∈ queue, x = start ∨ Leads next start x) : Leads next start target := by
  generalize hanswer : true = answer at h
  induction h with
  | lost marked => cases hanswer
  | @found a queue marked hnone =>
      have htarget : target ∈ next a := push?_eq_none_iff.mp hnone
      rcases hqueue a List.mem_cons_self with rfl | hlead
      · exact .single htarget
      · exact hlead.tail htarget
  | @step a queue marked queue' marked' answer hsome _ ih =>
      obtain ⟨ha, hqueue⟩ := List.forall_mem_cons.mp hqueue
      obtain ⟨new, rfl, hnew, -, -⟩ := push?_eq_some hsome
      refine ih (List.forall_mem_append.mpr ⟨hqueue, fun x hx => .inr ?_⟩) hanswer
      rcases ha with rfl | hlead
      · exact .single (hnew x hx)
      · exact hlead.tail (hnew x hx)

/-- A search that does not find the target has gone through the start and whatever is marked: none
of their successors is the target, and all of them are marked. The invariant is that a node is gone
through or still in the queue. -/
theorem Seeks.not_leads {start : α} (h : Seeks next target queue marked false)
    (hinv : ∀ x, x = start ∨ x ∈ marked → x ∈ queue ∨ ∀ y ∈ next x, y ≠ target ∧ y ∈ marked) :
    ¬Leads next start target := by
  generalize hanswer : false = answer at h
  induction h with
  | lost marked =>
      have hdone (x : α) (hx : x = start ∨ x ∈ marked) : ∀ y ∈ next x, y ≠ target ∧ y ∈ marked :=
        (hinv x hx).resolve_left List.not_mem_nil
      -- Nothing is left to look at, so whatever can be reached is marked and was not the target.
      have hmarked : ∀ {x}, Leads next start x → x ≠ target ∧ x ∈ marked := by
        intro x hlead
        induction hlead with
        | single hx => exact hdone start (.inl rfl) _ hx
        | tail _ hy ih => exact hdone _ (.inr ih.2) _ hy
      exact fun hlead => (hmarked hlead).1 rfl
  | found _ => cases hanswer
  | @step a queue marked queue' marked' answer hsome _ ih =>
      have htarget : target ∉ next a := fun hmem => by
        cases (push?_eq_none_iff.mpr hmem).symm.trans hsome
      obtain ⟨new, rfl, -, hmarked, hall⟩ := push?_eq_some hsome
      refine ih (fun x hx => ?_) hanswer
      by_cases hnew : x ∈ new
      · exact .inl (List.mem_append_right queue hnew)
      have hold : x = start ∨ x ∈ marked :=
        hx.imp_right fun hx => ((hmarked x).mp hx).resolve_right hnew
      rcases hinv x hold with hqueue | hdone
      · rcases List.mem_cons.mp hqueue with rfl | hqueue
        · exact .inr fun y hy => ⟨fun heq => htarget (heq ▸ hy), hall y hy⟩
        · exact .inl (List.mem_append_left new hqueue)
      · exact .inr fun y hy => ⟨(hdone y hy).1, (hmarked y).mpr (.inl (hdone y hy).2)⟩

/-- A search for a node from the start alone finds exactly what can be reached from the start. -/
theorem Seeks.iff_leads {start : α} (h : Seeks next target [start] [] answer) :
    answer = true ↔ Leads next start target := by
  cases answer with
  | true => exact iff_of_true rfl (h.leads (List.forall_mem_singleton.mpr (.inl rfl)))
  | false =>
      refine iff_of_false nofun (h.not_leads fun x hx => .inl ?_)
      exact List.mem_singleton.mpr (hx.resolve_right List.not_mem_nil)

/-! ### Searches for one node end

Each turn takes a node out of the queue, and what is put there is marked for the first time. So the
nodes that are not marked yet, together with those in the queue, get fewer. -/

/-- Marking a node leaves fewer that are not marked. -/
theorem unmarked_insert_lt {nodes : List α} {b : α} (hb : b ∈ nodes) (hnew : b ∉ marked) :
    unmarked (Ascending.insert b marked) nodes < unmarked marked nodes := by
  obtain ⟨front, back, rfl⟩ := List.append_of_mem hb
  have hle (nodes : List α) : unmarked (Ascending.insert b marked) nodes ≤ unmarked marked nodes :=
    unmarked_le nodes fun x hx => Ascending.mem_insert.mpr (.inr hx)
  have hfront := hle front
  have hback := hle back
  unfold unmarked at hfront hback ⊢
  rw [List.countP_append, List.countP_append,
    List.countP_cons_of_neg (by simp [Ascending.mem_insert]),
    List.countP_cons_of_pos (by simpa using hnew)]
  omega

/-- Each node that is put into the queue is one less that is not marked. -/
theorem push?_unmarked {nodes : List α} (hbs : ∀ b ∈ bs, b ∈ nodes)
    (h : push? target bs queue marked = some (queue', marked')) :
    queue'.length + unmarked marked' nodes ≤ queue.length + unmarked marked nodes := by
  induction bs generalizing queue marked with
  | nil =>
      cases h
      exact Nat.le_refl _
  | cons b bs ih =>
      obtain ⟨hb, hbs⟩ := List.forall_mem_cons.mp hbs
      rw [push?] at h
      split at h
      · cases h
      split at h
      · exact ih hbs h
      · rename_i hnew
        have hrest := ih hbs h
        have hless := unmarked_insert_lt hb hnew
        rw [List.length_append, List.length_singleton] at hrest
        omega

/-- A search for a node with steps enough for its queue and for the nodes that are not marked comes
to the end that it has without a bound. -/
theorem seeks_seek {nodes : List α} (hnext : ∀ a, ∀ b ∈ next a, b ∈ nodes) (count : Nat)
    (queue marked : List α) (hcount : queue.length + unmarked marked nodes ≤ count) :
    Seeks next target queue marked (seek next target count queue marked) := by
  induction count generalizing queue marked with
  | zero =>
      obtain rfl : queue = [] := List.eq_nil_of_length_eq_zero (by omega)
      exact .lost marked
  | succ count ih =>
      cases queue with
      | nil => exact .lost marked
      | cons a queue =>
          rw [List.length_cons] at hcount
          rw [seek]
          cases hpush : push? target (next a) queue marked with
          | none => exact .found hpush
          | some r =>
              have hless := push?_unmarked (hnext a) hpush
              exact .step hpush (ih _ _ (by omega))

end

/-- **A search for a node ends**, where the edges are those of a map and all of them are counted: it
comes to what `finds` tells, and to nothing else. -/
theorem seeks_finds_iff {target : α} {answer : Bool} :
    Seeks (successors f ms) target [a] [] answer ↔
      answer = finds (successors f ms) (ms.flatMap fun m => f m.2).length a target := by
  have hnext (x : α) : ∀ y ∈ successors f ms x, y ∈ ms.flatMap fun m => f m.2 := by
    intro y hy
    unfold successors at hy
    cases hd : Ascending.get? x ms with
    | none =>
        rw [hd] at hy
        cases hy
    | some d =>
        rw [hd] at hy
        exact List.mem_flatMap.mpr ⟨(x, d), Ascending.mem_of_get? hd, hy⟩
  have hcount : [a].length + unmarked [] (ms.flatMap fun m => f m.2) ≤
      (ms.flatMap fun m => f m.2).length + 1 := by
    rw [List.length_singleton, Nat.add_comm]
    exact Nat.add_le_add_right List.countP_le_length 1
  have hends : Seeks (successors f ms) target [a] []
      (finds (successors f ms) (ms.flatMap fun m => f m.2).length a target) :=
    seeks_seek hnext _ [a] [] hcount
  constructor
  · exact fun h => h.unique hends
  · rintro rfl
    exact hends

/-- **A search for a node finds it exactly if it can be reached**, where the edges are those of a
map and all of them are counted. -/
theorem finds_successors_iff {target : α} :
    finds (successors f ms) (ms.flatMap fun m => f m.2).length a target ↔
      Leads (successors f ms) a target :=
  (seeks_finds_iff.mpr rfl).iff_leads

end AccessPolicy.Reach
