import Proyectos.Framework.Stdio
import Proyectos.Framework.Buf
import Mathlib.Data.List.GetD

/-!
# What a string can put into a part of an array

A string that is copied to an array's start may reach a part of it further on,
a slot. It ends in a terminator and has no other NUL, so what it leaves there is
its own bytes, then a NUL, then what was there: `slot_putStr_iff` tells which
contents of the slot come of some string, and `drop_putStr_iff` which strings do
not get as far as an index.
-/

namespace SO.Buf

variable {n : Nat} (b : Buf n) {l : List UInt8}

/-- The `len` bytes from the index `off` on. -/
def slot (off len : Nat) : List UInt8 := (b.bytes.drop off).take len

/-- The array's bytes, once a string has been put at its start. -/
theorem bytes_putStr (h : l.length < n) :
    (b.putStr l).bytes = l ++ 0 :: b.bytes.drop (l.length + 1) := by
  apply List.ext_getElem
  · simp only [length_bytes, List.length_append, List.length_cons, List.length_drop]
    omega
  · intro i hi hi'
    rw [length_bytes] at hi
    rw [getElem_bytes]
    show (l ++ [0]).getD i (b.get ⟨i, hi⟩) = _
    rcases Nat.lt_trichotomy i l.length with hl | rfl | hl
    · rw [List.getElem_append_left hl, List.getD_append _ _ _ _ hl, List.getD_eq_getElem _ _ hl]
    · simp
    · obtain ⟨j, rfl⟩ : ∃ j, i = l.length + (j + 1) := ⟨i - l.length - 1, by omega⟩
      have hlen : (l ++ [0]).length ≤ l.length + (j + 1) := by
        rw [List.length_append, List.length_singleton]
        omega
      rw [List.getD_eq_default _ _ hlen, List.getElem_append_right (Nat.le_add_right _ _)]
      simp only [Nat.add_sub_cancel_left, List.getElem_cons_succ, List.getElem_drop, getElem_bytes]
      congr 2
      omega

section

variable {off len : Nat}

theorem length_slot (h : off + len ≤ n) : (b.slot off len).length = len := by
  rw [slot, List.length_take, List.length_drop, length_bytes]
  omega

/-- The bytes of a slot past its first `k`. -/
theorem drop_slot (off len k : Nat) :
    (b.slot off len).drop k = (b.bytes.drop (off + k)).take (len - k) := by
  rw [slot, List.drop_take, List.drop_drop]

/-- A string that ends before the index leaves what is there as it is. -/
theorem drop_putStr_of_lt (h : l.length < off) (hn : l.length < n) :
    (b.putStr l).bytes.drop off = b.bytes.drop off := by
  obtain ⟨j, rfl⟩ : ∃ j, off = l.length + 1 + j := ⟨off - l.length - 1, by omega⟩
  have hsplit : l ++ 0 :: b.bytes.drop (l.length + 1) = (l ++ [0]) ++ b.bytes.drop (l.length + 1) := by
    rw [List.append_assoc]
    rfl
  rw [bytes_putStr b hn, hsplit, ← List.drop_drop, List.drop_left' (by simp), List.drop_drop]

/-- What a string that reaches the slot leaves there. -/
theorem slot_putStr_of_le (h : off ≤ l.length) (hn : l.length < n) :
    (b.putStr l).slot off len = (l.drop off ++ 0 :: b.bytes.drop (l.length + 1)).take len := by
  rw [slot, bytes_putStr b hn, List.drop_append_of_le_length h]

/-- What a string leaves in a slot agrees with what was there after the first NUL. -/
theorem drop_of_slot_putStr {t : List UInt8} (ht : off + t.length < n) (h0 : 0 ∉ l) (hn : l.length < n)
    (hl : (b.putStr l).slot off t.length = t) :
    t.drop ((cstring t).length + 1) = (b.slot off t.length).drop ((cstring t).length + 1) := by
  rcases Nat.lt_or_ge l.length off with hoff | hoff
  · rw [slot, drop_putStr_of_lt b hoff hn, ← slot] at hl
    rw [hl]
  rw [slot_putStr_of_le b hoff hn] at hl
  have hu : 0 ∉ l.drop off := fun hm => h0 (List.mem_of_mem_drop hm)
  have hlen : (l.drop off).length = l.length - off := List.length_drop
  rcases Nat.lt_or_ge (l.drop off).length t.length with hlt | hge
  · -- the terminator is in the slot
    obtain ⟨j, hj⟩ : ∃ j, t.length = (l.drop off).length + (j + 1) :=
      ⟨t.length - (l.drop off).length - 1, by omega⟩
    have hc : cstring t = l.drop off := by
      rw [← hl, hj, List.take_length_add_append, List.take_succ_cons]
      exact takeWhile_ne_append_cons hu _
    have hdrop : t.drop ((l.drop off).length + 1) = (b.bytes.drop (l.length + 1)).take j := by
      conv_lhs => rw [← hl, hj, List.take_length_add_append, List.take_succ_cons]
      rw [← List.drop_drop, List.drop_left]
      rfl
    rw [hc, hdrop, drop_slot, hj]
    congr 2 <;> omega
  · rw [List.take_append_of_le_length hge] at hl
    have hc : cstring t = t := cstring_of_noNul fun hm => hu (List.mem_of_mem_take (hl ▸ hm))
    rw [hc, List.drop_eq_nil_of_le (Nat.le_succ _), List.drop_eq_nil_of_le]
    rw [length_slot b (by omega)]
    exact Nat.le_succ _

/-- A string that fills the array up to the slot and then has the slot's contents, as far as
a string goes, leaves these there. -/
theorem slot_putStr_filled {t : List UInt8}
    (hn : (List.replicate off 1 ++ cstring t).length < n)
    (h : t.drop ((cstring t).length + 1) = (b.slot off t.length).drop ((cstring t).length + 1)) :
    (b.putStr (List.replicate off 1 ++ cstring t)).slot off t.length = t := by
  rw [slot_putStr_of_le b (by simp) hn, List.drop_left' (List.length_replicate ..)]
  by_cases h0 : 0 ∈ t
  · obtain ⟨u, v, rfl, hu⟩ := List.eq_append_cons_of_mem h0
    have hc : cstring (u ++ 0 :: v) = u := takeWhile_ne_append_cons hu v
    have hlen : (u ++ 0 :: v).length = u.length + (v.length + 1) := List.length_append
    rw [hc, drop_slot, ← List.drop_drop, List.drop_left, hlen] at h
    have hv : v = (b.bytes.drop (off + (u.length + 1))).take v.length := by
      rw [show u.length + (v.length + 1) - (u.length + 1) = v.length by omega] at h
      exact h
    have hl : (List.replicate off 1 ++ u).length + 1 = off + (u.length + 1) := by
      rw [List.length_append, List.length_replicate]
      rfl
    rw [hc, hl, hlen, List.take_length_add_append, List.take_succ_cons, ← hv]
  · rw [cstring_of_noNul h0, List.take_left]

/-- A slot can be given just the contents that agree with it after their first NUL. -/
theorem slot_putStr_iff {t : List UInt8} (ht : off + t.length < n) :
    (∃ l, 0 ∉ l ∧ l.length < n ∧ (b.putStr l).slot off t.length = t) ↔
      t.drop ((cstring t).length + 1) = (b.slot off t.length).drop ((cstring t).length + 1) := by
  constructor
  · rintro ⟨l, h0, hn, hl⟩
    exact drop_of_slot_putStr b ht h0 hn hl
  · intro h
    have hk : (cstring t).length ≤ t.length := (List.takeWhile_prefix _).length_le
    have hn : (List.replicate off 1 ++ cstring t).length < n := by
      rw [List.length_append, List.length_replicate]
      omega
    refine ⟨List.replicate off 1 ++ cstring t, ?_, hn, slot_putStr_filled b hn h⟩
    rw [List.mem_append, List.mem_replicate]
    rintro (⟨-, h1⟩ | h0)
    · exact absurd h1 (by decide)
    · exact nul_notMem_cstring t h0

/-- Only a string that ends before the index leaves it so in every array. -/
theorem drop_putStr_iff (hn : l.length < n) :
    (∀ b : Buf n, (b.putStr l).bytes.drop off = b.bytes.drop off) ↔ l.length < off := by
  constructor
  · intro h
    by_contra hoff
    have hb := h ⟨fun _ => 1⟩
    rw [bytes_putStr _ hn, List.drop_append_of_le_length (by omega)] at hb
    have h0 : (0 : UInt8) ∈ (Buf.bytes (n := n) ⟨fun _ => 1⟩).drop off := by
      rw [← hb]
      simp
    obtain ⟨j, hj⟩ := mem_bytes.mp (List.mem_of_mem_drop h0)
    exact absurd hj (show (1 : UInt8) ≠ 0 by decide)
  · exact fun hoff b => drop_putStr_of_lt b hoff hn

end

end SO.Buf
