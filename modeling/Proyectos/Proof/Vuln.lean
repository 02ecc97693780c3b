import Proyectos.Impl.Vuln

/-!
# `vuln.c`: what its argument can do

All of it is for the frame of the tutorials, in which the saved frame pointer
follows `buffer` at once.

An argument of up to 63 bytes stays inside `buffer`; no other leaves every stack
as it was (`main_exits_iff`). A longer one puts its own bytes over the return
address, as far as it goes, and its terminator after them: it can have
`vulnerable_function` return to just those addresses that agree, after their
first NUL, with the address it was to return to (`reachable_iff`).
-/

namespace SO.Proof.Vuln

open SO.Impl.Vuln

variable {n : Nat} (a : Arch)

theorem strcpy_some {stack stack' : Buf n} {str : List UInt8} (h : strcpy stack str = some stack') :
    (cstring str).length < n ∧ stack' = stack.putStr (cstring str) := by
  unfold strcpy at h
  split at h
  · rename_i hl
    exact ⟨hl, (Option.some.inj h).symm⟩
  · cases h

theorem strcpy_of_lt (stack : Buf n) {str : List UInt8} (h : (cstring str).length < n) :
    strcpy stack str = some (stack.putStr (cstring str)) := if_pos h

/-- Whatever is on the stack, the program ends well just if its argument, with its
terminator, fits `buffer`, given that the saved frame pointer follows it at once. -/
theorem main_exits_iff (hn : sizeofBuffer < n) (programa texto : List UInt8)
    (resto : List (List UInt8)) :
    (∀ stack : Buf n, main a stack (programa :: texto :: resto) =
      some (.exit 0 (utf8 "Datos copiados exitosamente.\n"))) ↔
    (cstring texto).length < sizeofBuffer := by
  rcases Nat.lt_or_ge (cstring texto).length n with hl | hl
  · rw [← Buf.drop_putStr_iff hl]
    refine forall_congr' fun stack => ?_
    simp only [main, vulnerableFunction, strcpy_of_lt stack hl, Option.map_some]
    split
    · rename_i hs
      exact iff_of_true rfl hs
    · rename_i hs
      exact iff_of_false (by simp) hs
  · refine iff_of_false (fun h => ?_) (by omega)
    have hs := h ⟨fun _ => 0⟩
    rw [main, vulnerableFunction, strcpy, if_neg (by omega)] at hs
    cases hs

/-- The longest argument that fits, on a stack with no 0 on it. -/
theorem main_exits_longest :
    main .x86 (⟨fun _ => 0x42⟩ : Buf 100) [utf8 "./vuln", List.replicate 63 0x41] =
      some (.exit 0 (utf8 "Datos copiados exitosamente.\n")) :=
  (main_exits_iff .x86 (by decide) (utf8 "./vuln") (List.replicate 63 0x41) []).mpr (by decide) _

/-- The addresses that some argument has `vulnerable_function` return to. -/
theorem reachable_iff (hn : sizeofBuffer + 2 * a.word < n) (stack : Buf n) {addr : List UInt8}
    (ha : addr.length = a.word) :
    (∃ texto stack', strcpy stack texto = some stack' ∧ returnAddress a stack' = addr) ↔
      addr.drop ((cstring addr).length + 1) =
        (returnAddress a stack).drop ((cstring addr).length + 1) := by
  rw [returnAddress, ← ha, ← Buf.slot_putStr_iff stack (by omega)]
  constructor
  · rintro ⟨texto, stack', hs, hr⟩
    obtain ⟨hl, rfl⟩ := strcpy_some hs
    refine ⟨cstring texto, nul_notMem_cstring texto, hl, ?_⟩
    rw [returnAddress, ← ha] at hr
    exact hr
  · rintro ⟨l, h0, hl, hr⟩
    rw [← cstring_of_noNul h0] at hl
    refine ⟨l, _, strcpy_of_lt stack hl, ?_⟩
    rw [returnAddress, cstring_of_noNul h0, ← ha]
    exact hr

/-- `BBBB`, on `x86`, whatever the address was. -/
theorem reachable_bbbb : ∃ texto stack', strcpy (.ofBytes [] : Buf 100) texto = some stack' ∧
    returnAddress .x86 stack' = utf8 "BBBB" :=
  (reachable_iff .x86 (by decide) (.ofBytes []) rfl).mpr (by decide)

end SO.Proof.Vuln
