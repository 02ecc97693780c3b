import Proyectos.Framework.Run
import Mathlib.Algebra.Ring.Parity

/-!
# One counter shared by many clients

A server that answers its `i`-th request with `R i`, whoever asks. `ks` lists
the clients in the order of their requests. A client is served as if it were
alone just if each of its requests is answered as the same request of its own
sequence (`isolated_iff`); where `R` alternates between two answers, that is
when the requests the others made before it are even in number
(`isolated_iff_even`).
-/

namespace SO.Spec.Shared

variable {κ β : Type*} [DecidableEq κ] {R : Nat → β}

/-- The answers client `k` gets. -/
def answers (R : Nat → β) (ks : List κ) (k : κ) : List β :=
  (ks.zipIdx.filter fun p => p.1 = k).map fun p => R p.2

/-- The answers to `n` requests of a client alone. -/
def alone (R : Nat → β) (n : Nat) : List β := (List.range n).map R

theorem answers_snoc (ks : List κ) (m k : κ) :
    answers R (ks ++ [m]) k = answers R ks k ++ if m = k then [R ks.length] else [] := by
  simp only [answers, List.zipIdx_append, List.filter_append, List.map_append]
  by_cases h : m = k <;> simp [h]

theorem alone_succ (n : Nat) : alone R (n + 1) = alone R n ++ [R n] := by
  simp [alone, List.range_succ]

theorem length_answers (ks : List κ) (k : κ) : (answers R ks k).length = ks.count k := by
  induction ks using List.reverseRecOn with
  | nil => rfl
  | append_singleton ks m ih =>
    rw [answers_snoc, List.length_append, ih, List.count_append, List.count_singleton]
    by_cases h : m = k <;> simp [h]

/-- A client's requests with the others' left out are answered as alone. -/
theorem answers_filter (ks : List κ) (k : κ) :
    answers R (ks.filter (· = k)) k = alone R (ks.count k) := by
  induction ks using List.reverseRecOn with
  | nil => rfl
  | append_singleton ks m ih =>
    rw [List.filter_append, List.count_append, List.count_singleton]
    by_cases h : m = k
    · subst h
      simp only [decide_true, List.filter_cons_of_pos, List.filter_nil, beq_self_eq_true, ite_true]
      rw [answers_snoc, ih, if_pos rfl, alone_succ, List.count_eq_length_filter]
      simp only [beq_eq_decide]
    · simpa [h] using ih

/-- One more request: its client's answers stay those of a client alone just
if it is answered as the next request of its own sequence. -/
theorem answers_snoc_eq_alone (ks : List κ) (m k : κ) :
    answers R (ks ++ [m]) k = alone R ((ks ++ [m]).count k) ↔
      answers R ks k = alone R (ks.count k) ∧ (m = k → R ks.length = R (ks.count m)) := by
  rw [answers_snoc, List.count_append, List.count_singleton]
  by_cases h : m = k
  · subst h
    rw [if_pos rfl, beq_self_eq_true, if_pos rfl, alone_succ]
    constructor
    · intro e
      obtain ⟨e₁, e₂⟩ := List.append_inj' e rfl
      exact ⟨e₁, fun _ => (List.cons.inj e₂).1⟩
    · rintro ⟨e₁, e₂⟩
      rw [e₁, e₂ rfl]
  · simp [h]

/-- Every client is served as if alone just if each request is answered as
the same request of its client's own sequence. -/
theorem isolated_iff (ks : List κ) :
    (∀ k, answers R ks k = alone R (ks.count k)) ↔
      ∀ l k r, ks = l ++ k :: r → R l.length = R (l.count k) := by
  induction ks using List.reverseRecOn with
  | nil => simp [answers, alone]
  | append_singleton ks m ih =>
    simp only [answers_snoc_eq_alone, forall_and, ih,
      Run.forall_cuts_snoc (A := fun l k => R l.length = R (l.count k))]
    exact and_congr_right fun _ => ⟨fun h => h m rfl, fun h _ _ => h⟩

/-- Where the answers alternate: the requests the others made before each
request are even in number. -/
theorem isolated_iff_even (hR : ∀ i j, R i = R j ↔ (Even i ↔ Even j)) (ks : List κ) :
    (∀ k, answers R ks k = alone R (ks.count k)) ↔
      ∀ l k r, ks = l ++ k :: r → Even (l.countP (· ≠ k)) := by
  rw [isolated_iff]
  refine forall_congr' fun l => forall_congr' fun k => forall_congr' fun r =>
    imp_congr_right fun _ => ?_
  have hl : l.length = l.count k + l.countP (· ≠ k) := by
    have := List.length_eq_countP_add_countP (· == k) (l := l)
    simpa [List.count] using this
  rw [hR, hl, Nat.even_add]
  tauto

end SO.Spec.Shared
