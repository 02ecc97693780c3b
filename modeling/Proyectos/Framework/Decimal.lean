import Proyectos.Framework.Stdio
import Mathlib.Algebra.Order.Group.Nat

/-!
# Decimal numbers

`decimal` and `decimalInt` are the numbers `printf` prints for `%d` and `%u`,
`value` the number a string of digits stands for.

* `value_decimal`: the digits of a number stand for it.
* `value_lt_of_cut`: a proper part of the digits of a number, from its front,
  stands for a smaller one.
-/

namespace SO

/-- The number a string of digits stands for. -/
def value (ds : List UInt8) : Nat := ds.foldl (fun n c => 10 * n + (c.toNat - '0'.toUInt8.toNat)) 0

/-- `%u`. -/
def decimal (n : Nat) : List UInt8 := (Nat.toDigits 10 n).map Char.toUInt8

/-- `%d`. -/
def decimalInt (v : Int) : List UInt8 :=
  if v < 0 then '-'.toUInt8 :: decimal v.natAbs else decimal v.natAbs

theorem value_concat (ds : List UInt8) (c : UInt8) :
    value (ds ++ [c]) = 10 * value ds + (c.toNat - '0'.toUInt8.toNat) := by
  simp only [value, List.foldl_append, List.foldl_cons, List.foldl_nil]

/-- The digit of a number below ten. -/
theorem toUInt8_digitChar {d : Nat} (h : d < 10) :
    isdigit d.digitChar.toUInt8 ∧ d.digitChar.toUInt8.toNat - '0'.toUInt8.toNat = d :=
  (by decide : ∀ d < 10, isdigit d.digitChar.toUInt8 ∧
    d.digitChar.toUInt8.toNat - '0'.toUInt8.toNat = d) d h

/-- The last digit comes off the end. -/
theorem decimal_concat (n : Nat) :
    decimal n = (if n < 10 then [] else decimal (n / 10)) ++ [(n % 10).digitChar.toUInt8] := by
  unfold decimal
  rw [Nat.toDigits_eq_if (by omega)]
  split
  · rename_i h
    simp [Nat.mod_eq_of_lt h]
  · simp

theorem isdigit_of_mem_decimal {n : Nat} {c : UInt8} (h : c ∈ decimal n) : isdigit c := by
  rw [decimal_concat, List.mem_append, List.mem_singleton] at h
  rcases h with h | rfl
  · split at h
    · cases h
    · exact isdigit_of_mem_decimal h
  · exact (toUInt8_digitChar (Nat.mod_lt _ (by omega))).1
termination_by n
decreasing_by omega

theorem decimal_ne_nil (n : Nat) : decimal n ≠ [] := by
  rw [decimal_concat]
  simp

theorem value_decimal (n : Nat) : value (decimal n) = n := by
  rw [decimal_concat, value_concat, (toUInt8_digitChar (Nat.mod_lt n (by omega))).2]
  split
  · rw [show value [] = 0 from rfl]
    omega
  · rw [value_decimal (n / 10)]
    omega
termination_by n
decreasing_by omega

theorem length_decimal_le {n k : Nat} (hk : 0 < k) (h : n < 10 ^ k) : (decimal n).length ≤ k := by
  rw [decimal, List.length_map]
  exact (Nat.length_toDigits_le_iff (by omega) hk).mpr h

theorem length_decimal_of_lt {n : Nat} (h : n < 2 ^ 31) : (decimal n).length ≤ 10 :=
  length_decimal_le (by omega) (by omega)

/-- A proper part of the digits of a number, from its front, stands for a
smaller one. -/
theorem value_lt_of_cut {n : Nat} {p q : List UInt8} (h : p ++ q = decimal n) (hp : p ≠ [])
    (hq : q ≠ []) : value p < n := by
  obtain ⟨q, c, rfl⟩ : ∃ q' c, q = q' ++ [c] := by
    rcases List.eq_nil_or_concat q with rfl | ⟨q', c, rfl⟩
    · exact absurd rfl hq
    · exact ⟨q', c, List.concat_eq_append⟩
  rw [decimal_concat, ← List.append_assoc] at h
  have hi := List.append_inj_left' h rfl
  split at hi
  · -- one digit cannot be cut
    exact absurd (List.append_eq_nil_iff.mp hi).1 hp
  · rename_i hn
    rcases eq_or_ne q [] with rfl | hq'
    · rw [List.append_nil] at hi
      rw [hi, value_decimal]
      omega
    · have := value_lt_of_cut hi hp hq'
      omega
termination_by n
decreasing_by omega

theorem decimalInt_ofNat (n : Nat) : decimalInt n = decimal n := by
  rw [decimalInt, if_neg (by omega), Int.natAbs_natCast]

end SO
