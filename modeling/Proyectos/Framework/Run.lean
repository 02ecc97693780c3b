import Mathlib.Data.List.Induction
import Mathlib.Tactic.Common

/-!
# Runs of a machine

A machine answers one input at a time: `f : σ → ι → σ × ο`. A run is any list
of inputs, so what holds of every run holds of every order in which several
clients' inputs are served. `after` is the state a run leads to, `steps` its
transcript: each input with the state it found, its output and the state it
left.

* `inv_after`: what every admitted input keeps holds after every run of admitted
  inputs.
* `forall_steps_iff`, `forall_mem_steps_iff`, `forall_cuts_iff`: two conditions
  hold along the same runs.
* `steps_congr`: two machines that do the same along a run.
* `after_of_abs`, `steps_abs`: a machine whose steps are, through `abs` and
  `act`, the steps of another one runs as that one does.
-/

namespace SO

variable {σ ι ο σ' ι' ο' : Type*}

/-- One step of a run: the state found, the input, the output, the state left. -/
structure Step (σ ι ο : Type*) where
  pre : σ
  inp : ι
  out : ο
  post : σ

namespace Run

/-- The state after the inputs `is`. -/
def after (f : σ → ι → σ × ο) : σ → List ι → σ
  | s, [] => s
  | s, i :: is => after f (f s i).1 is

/-- The step the machine makes on `i` in state `s`. -/
def stepOf (f : σ → ι → σ × ο) (s : σ) (i : ι) : Step σ ι ο := ⟨s, i, (f s i).2, (f s i).1⟩

/-- The transcript of a run. -/
def steps (f : σ → ι → σ × ο) : σ → List ι → List (Step σ ι ο)
  | _, [] => []
  | s, i :: is => stepOf f s i :: steps f (f s i).1 is

variable {f : σ → ι → σ × ο}

@[simp] theorem after_nil (s : σ) : after f s [] = s := rfl

@[simp] theorem after_cons (s : σ) (i : ι) (is : List ι) :
    after f s (i :: is) = after f (f s i).1 is := rfl

@[simp] theorem steps_nil (s : σ) : steps f s [] = [] := rfl

@[simp] theorem steps_cons (s : σ) (i : ι) (is : List ι) :
    steps f s (i :: is) = stepOf f s i :: steps f (f s i).1 is := rfl

theorem after_append (s : σ) (is js : List ι) :
    after f s (is ++ js) = after f (after f s is) js := by
  induction is generalizing s with
  | nil => rfl
  | cons i is ih => exact ih _

theorem steps_append (s : σ) (is js : List ι) :
    steps f s (is ++ js) = steps f s is ++ steps f (after f s is) js := by
  induction is generalizing s with
  | nil => rfl
  | cons i is ih => simp only [List.cons_append, steps_cons, after_cons, ih]

theorem after_snoc (s : σ) (is : List ι) (i : ι) :
    after f s (is ++ [i]) = (f (after f s is) i).1 := after_append s is [i]

theorem steps_snoc (s : σ) (is : List ι) (i : ι) :
    steps f s (is ++ [i]) = steps f s is ++ [stepOf f (after f s is) i] := steps_append s is [i]

/-- Cutting a transcript at one of its steps cuts the run at that step's input. -/
theorem steps_eq_append {s : σ} {is : List ι} {l r : List (Step σ ι ο)} {t : Step σ ι ο} :
    steps f s is = l ++ t :: r ↔
      ∃ js i ks, is = js ++ i :: ks ∧ l = steps f s js ∧ t = stepOf f (after f s js) i ∧
        r = steps f (f (after f s js) i).1 ks := by
  constructor
  · intro h
    induction l generalizing s is with
    | nil =>
      cases is with
      | nil => simp at h
      | cons i is =>
        simp only [steps_cons, List.nil_append, List.cons.injEq] at h
        exact ⟨[], i, is, rfl, rfl, h.1.symm, h.2.symm⟩
    | cons u l ih =>
      cases is with
      | nil => simp at h
      | cons i is =>
        simp only [steps_cons, List.cons_append, List.cons.injEq] at h
        obtain ⟨js, j, ks, rfl, rfl, rfl, rfl⟩ := ih h.2
        exact ⟨i :: js, j, ks, rfl, by rw [← h.1]; rfl, rfl, rfl⟩
  · rintro ⟨js, i, ks, rfl, rfl, rfl, rfl⟩
    rw [steps_append, steps_cons]

theorem mem_steps {s : σ} {is : List ι} {t : Step σ ι ο} :
    t ∈ steps f s is ↔ ∃ js i ks, is = js ++ i :: ks ∧ t = stepOf f (after f s js) i := by
  constructor
  · intro h
    obtain ⟨l, r, h⟩ := List.append_of_mem h
    obtain ⟨js, i, ks, hi, -, ht, -⟩ := steps_eq_append.mp h
    exact ⟨js, i, ks, hi, ht⟩
  · rintro ⟨js, i, ks, rfl, rfl⟩
    rw [steps_append, steps_cons]
    exact List.mem_append_right _ List.mem_cons_self

/-- What holds of the first state and of every state a step leaves holds of the
last. -/
theorem after_of_steps {Q : σ → Prop} {s : σ} (h0 : Q s) {is : List ι}
    (h : ∀ t ∈ steps f s is, Q t.post) : Q (after f s is) := by
  rcases List.eq_nil_or_concat is with rfl | ⟨is, i, rfl⟩
  · exact h0
  · rw [List.concat_eq_append, steps_snoc] at h
    rw [List.concat_eq_append, after_snoc]
    exact h _ (List.mem_append_right _ List.mem_cons_self)

/-- A machine that does at each step of a run what `f` does runs as `f` does. -/
theorem steps_congr {g : σ → ι → σ × ο} {s : σ} {is : List ι}
    (h : ∀ t ∈ steps f s is, g t.pre t.inp = f t.pre t.inp) :
    steps g s is = steps f s is ∧ after g s is = after f s is := by
  induction is generalizing s with
  | nil => exact ⟨rfl, rfl⟩
  | cons i is ih =>
    obtain ⟨hi, hr⟩ := List.forall_mem_cons.mp h
    have hi : g s i = f s i := hi
    obtain ⟨hs, ha⟩ := ih hr
    rw [steps_cons, steps_cons, after_cons, after_cons, stepOf, stepOf, hi, hs, ha]
    exact ⟨rfl, rfl⟩

/-! ## Invariants -/

section Invariant

variable {I : σ → Prop} {P : ι → Prop}

/-- What every input satisfying `P` keeps holds after every run of such inputs. -/
theorem inv_after (hs : ∀ s i, I s → P i → I (f s i).1) {s : σ} (h : I s) {is : List ι}
    (hp : ∀ i ∈ is, P i) : I (after f s is) := by
  induction is generalizing s with
  | nil => exact h
  | cons i is ih =>
    exact ih (hs s i h (hp i List.mem_cons_self)) fun j hj => hp j (List.mem_cons_of_mem _ hj)

end Invariant

/-- A condition on each step, and one on each step and the transcript before it:
they hold all along a run if they are the same at each of its cuts. -/
theorem forall_mem_steps_iff {A : Step σ ι ο → Prop} {B : List (Step σ ι ο) → Step σ ι ο → Prop}
    {s : σ} {is : List ι} (h : ∀ js i ks, is = js ++ i :: ks →
      (A (stepOf f (after f s js) i) ↔ B (steps f s js) (stepOf f (after f s js) i))) :
    (∀ t ∈ steps f s is, A t) ↔ ∀ l t r, steps f s is = l ++ t :: r → B l t := by
  constructor
  · intro hA l t r e
    obtain ⟨js, i, ks, hi, rfl, rfl, -⟩ := steps_eq_append.mp e
    exact (h js i ks hi).mp (hA _ (mem_steps.mpr ⟨js, i, ks, hi, rfl⟩))
  · intro hB t ht
    obtain ⟨l, r, e⟩ := List.append_of_mem ht
    have hb := hB l t r e
    obtain ⟨js, i, ks, hi, rfl, rfl, -⟩ := steps_eq_append.mp e
    exact (h js i ks hi).mpr hb

/-- Two conditions on steps hold all along the same runs, if they are the same
on states with the invariant and a step that meets the first keeps it. -/
theorem forall_steps_iff {I : σ → Prop} {A B : Step σ ι ο → Prop}
    (hs : ∀ s i, I s → (A (stepOf f s i) ↔ B (stepOf f s i)) ∧ (A (stepOf f s i) → I (f s i).1))
    {s : σ} (h : I s) (is : List ι) : (∀ t ∈ steps f s is, A t) ↔ ∀ t ∈ steps f s is, B t := by
  induction is generalizing s with
  | nil => simp
  | cons i is ih =>
    obtain ⟨hAB, hI⟩ := hs s i h
    simp only [steps_cons, List.forall_mem_cons]
    constructor
    · rintro ⟨ha, hr⟩
      exact ⟨hAB.mp ha, (ih (hI ha)).mp hr⟩
    · rintro ⟨hb, hr⟩
      exact ⟨hAB.mpr hb, (ih (hI (hAB.mpr hb))).mpr hr⟩

/-- What holds at every cut of a list with one more element. -/
theorem forall_cuts_snoc {A : List ι → ι → Prop} {is : List ι} {i : ι} :
    (∀ js j ks, is ++ [i] = js ++ j :: ks → A js j) ↔
      (∀ js j ks, is = js ++ j :: ks → A js j) ∧ A is i := by
  constructor
  · intro h
    refine ⟨fun js j ks e => h js j (ks ++ [i]) ?_, h is i [] rfl⟩
    rw [e, List.append_assoc, List.cons_append]
  · rintro ⟨h, hi⟩ js j ks e
    rcases List.eq_nil_or_concat ks with rfl | ⟨ks, x, rfl⟩
    · obtain ⟨e₁, e₂⟩ := List.append_inj' e rfl
      rw [← e₁, ← (List.cons.inj e₂).1]
      exact hi
    · rw [List.concat_eq_append, ← List.cons_append, ← List.append_assoc] at e
      exact h js j ks (List.append_inj' e rfl).1

/-- Two conditions on each input and the inputs before it hold all along the same
runs, if they are the same wherever what the first keeps, `I`, holds of the
inputs before. -/
theorem forall_cuts_iff {I : List ι → Prop} {A B : List ι → ι → Prop} {is : List ι} (h0 : I [])
    (h : ∀ js i ks, is = js ++ i :: ks → I js → (A js i ↔ B js i) ∧ (A js i → I (js ++ [i]))) :
    (∀ js i ks, is = js ++ i :: ks → A js i) ↔ ∀ js i ks, is = js ++ i :: ks → B js i := by
  have hI : (∀ js i ks, is = js ++ i :: ks → I js → A js i) → ∀ js ks, is = js ++ ks → I js := by
    intro hA js
    induction js using List.reverseRecOn with
    | nil => exact fun _ _ => h0
    | append_singleton js i ih =>
      intro ks e
      rw [List.append_assoc, List.singleton_append] at e
      have hj := ih _ e
      exact (h js i ks e hj).2 (hA js i ks e hj)
  constructor
  · intro hA js i ks e
    exact (h js i ks e (hI (fun js i ks e _ => hA js i ks e) js _ e)).1.mp (hA js i ks e)
  · intro hB js i ks e
    have hA : ∀ js i ks, is = js ++ i :: ks → I js → A js i := fun js i ks e hj =>
      (h js i ks e hj).1.mpr (hB js i ks e)
    exact hA js i ks e (hI hA js _ e)

/-! ## Refinement -/

section Refinement

variable {f' : σ' → ι' → σ' × ο'} {abs : σ → σ'} {act : σ → ι → ι'} {I : σ → Prop} {P : ι → Prop}

/-- The inputs the abstract machine is given for the steps of a transcript. -/
def acts (act : σ → ι → ι') (ts : List (Step σ ι ο)) : List ι' := ts.map fun t => act t.pre t.inp

/-- A machine whose every step is one of `f'` reaches, seen through `abs`,
the state `f'` reaches. -/
theorem after_of_abs (hI : ∀ s i, I s → P i → I (f s i).1)
    (hs : ∀ s i, I s → P i → abs (f s i).1 = (f' (abs s) (act s i)).1) {s : σ} (h : I s)
    {is : List ι} (hp : ∀ i ∈ is, P i) :
    abs (after f s is) = after f' (abs s) (acts act (steps f s is)) := by
  induction is generalizing s with
  | nil => rfl
  | cons i is ih =>
    have hi := hp i List.mem_cons_self
    rw [after_cons, ih (hI s i h hi) fun j hj => hp j (List.mem_cons_of_mem _ hj), hs s i h hi]
    rfl

/-- The abstract transcript, step by step. -/
theorem steps_abs (hI : ∀ s i, I s → P i → I (f s i).1)
    (hs : ∀ s i, I s → P i → abs (f s i).1 = (f' (abs s) (act s i)).1) {s : σ} (h : I s)
    {is : List ι} (hp : ∀ i ∈ is, P i) :
    steps f' (abs s) (acts act (steps f s is)) =
      (steps f s is).map fun t => stepOf f' (abs t.pre) (act t.pre t.inp) := by
  induction is generalizing s with
  | nil => rfl
  | cons i is ih =>
    have hi := hp i List.mem_cons_self
    have := ih (hI s i h hi) fun j hj => hp j (List.mem_cons_of_mem _ hj)
    rw [hs s i h hi] at this
    simp only [steps_cons, acts, List.map_cons] at this ⊢
    exact congrArg _ this

end Refinement

end Run

end SO
