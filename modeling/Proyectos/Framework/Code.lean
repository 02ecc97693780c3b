import Mathlib.Tactic.Common

/-!
# Sequential code over a state

`Code σ α` is code that runs to its end from a state of type `σ` and returns
an `α`. Code is written with `do`; the lemmas below, all `simp`, run it.
-/

namespace SO

/-- Code over states `σ` that returns an `α`. -/
structure Code (σ α : Type) where
  run : σ → α × σ

namespace Code

variable {σ α β : Type}

instance : Monad (Code σ) where
  pure a := ⟨fun s => (a, s)⟩
  bind x f := ⟨fun s => (f (x.run s).1).run (x.run s).2⟩

@[simp] theorem run_pure (a : α) (s : σ) : (pure a : Code σ α).run s = (a, s) := rfl

@[simp] theorem run_bind (x : Code σ α) (f : α → Code σ β) (s : σ) :
    (x >>= f).run s = (f (x.run s).1).run (x.run s).2 := rfl

@[simp] theorem run_ite (p : Prop) {_ : Decidable p} (x y : Code σ α) (s : σ) :
    (if p then x else y).run s = if p then x.run s else y.run s := by
  split <;> rfl

end Code

end SO
