import Mathlib.Data.List.TakeWhile
import Mathlib.Tactic.Common

/-!
# Spans of a text

`takeWhile` and `dropWhile` take a text apart at the first byte that does not
satisfy a predicate. `Stops p r` says that `r` does not go on with a byte that
does, so that `w ++ r` comes apart into `w` and `r` (`takeWhile_of_stops`,
`dropWhile_of_stops`). Where the predicate is not to be the byte `c`, the span is
the whole text just if `c` is not in it (`takeWhile_ne_eq_self`).
-/

namespace SO

/-- The text does not go on with a byte that satisfies `p`. -/
def Stops (p : UInt8 → Bool) (r : List UInt8) : Prop := ∀ c ∈ r.head?, p c = false

section Spans

variable {p : UInt8 → Bool} {w r : List UInt8}

@[simp] theorem stops_nil : Stops p [] := by simp [Stops]

@[simp] theorem stops_cons {c : UInt8} : Stops p (c :: r) ↔ p c = false := by simp [Stops]

instance : Decidable (Stops p r) :=
  match r with
  | [] => .isTrue stops_nil
  | _ :: _ => decidable_of_iff _ stops_cons.symm

theorem stops_dropWhile (t : List UInt8) : Stops p (t.dropWhile p) := by
  intro c hc
  have h := List.head?_dropWhile_not p t
  rw [Option.mem_def.mp hc] at h
  exact h

theorem Stops.append {r' : List UInt8} (h : Stops p r) (h' : Stops p r') : Stops p (r ++ r') := by
  rcases r with _ | ⟨c, r⟩
  · exact h'
  · rw [List.cons_append, stops_cons]
    exact stops_cons.mp h

theorem Stops.of_isPrefix {r' : List UInt8} (h : Stops p r) (hp : r' <+: r) : Stops p r' := by
  obtain ⟨x, rfl⟩ := hp
  rcases r' with _ | ⟨c, r'⟩
  · exact stops_nil
  · exact stops_cons.mpr (stops_cons.mp h)

theorem takeWhile_of_stops (hw : ∀ c ∈ w, p c) (hr : Stops p r) : (w ++ r).takeWhile p = w := by
  rw [List.takeWhile_append_of_pos hw]
  rcases r with _ | ⟨c, r⟩
  · exact List.append_nil w
  · rw [List.takeWhile_cons_of_neg (by simpa using hr), List.append_nil]

theorem dropWhile_of_stops (hw : ∀ c ∈ w, p c) (hr : Stops p r) : (w ++ r).dropWhile p = r := by
  rw [List.dropWhile_append_of_pos hw]
  rcases r with _ | ⟨c, r⟩
  · rfl
  · rw [List.dropWhile_cons_of_neg (by simpa using hr)]

end Spans

/-! ## Up to a byte -/

section

variable {c : UInt8} {l : List UInt8}

theorem forall_ne_iff : (∀ v ∈ l, decide (v ≠ c) = true) ↔ c ∉ l := by
  simp only [decide_eq_true_eq]
  exact List.forall_mem_ne'

theorem takeWhile_ne_eq_self : l.takeWhile (· ≠ c) = l ↔ c ∉ l :=
  List.takeWhile_eq_self_iff.trans forall_ne_iff

theorem notMem_takeWhile_ne (l : List UInt8) : c ∉ l.takeWhile (· ≠ c) :=
  forall_ne_iff.mp fun _ => List.mem_takeWhile_imp

/-- What has none is passed over. -/
theorem takeWhile_ne_append (h : c ∉ l) (r : List UInt8) :
    (l ++ r).takeWhile (· ≠ c) = l ++ r.takeWhile (· ≠ c) :=
  List.takeWhile_append_of_pos (forall_ne_iff.mpr h)

theorem takeWhile_ne_append_cons (h : c ∉ l) (r : List UInt8) :
    (l ++ c :: r).takeWhile (· ≠ c) = l := by
  rw [takeWhile_ne_append h, List.takeWhile_cons_of_neg (by simp), List.append_nil]

end

end SO
