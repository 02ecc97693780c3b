import Proyectos.Impl.PokemonThreads
import Proyectos.Proof.Pokemon.Calls

/-!
# `pokemon`: a call no other runs beside
-/

namespace SO.Access.Pokemon

open SO.Impl.Pokemon (Vars driver)
open SO.Proof.Pokemon (modeLines obey obeyLines)

variable (d : Dev Vars)

theorem exec_pokeRead (buf : UserDst) (len : Nat) (off : Int) {r : (Int × Int) × CallSt Vars}
    (hr : (Impl.Pokemon.pokeRead buf len off).run { dev := d } = r) :
    ((pokeRead buf len off).run {}).exec d = ((r.1, r.2.out), r.2.dev) := by
  subst hr
  generalize hn : d.kernelBuffer.strlen = n
  by_cases h : off ≥ n
  · rw [Proof.Pokemon.pokeRead_eof d buf len off hn h]
    simp only [pokeRead, exec_bind, exec_load, exec_pure, hn, if_pos h]
  · by_cases hf : min buf.missed n = 0
    · rw [Proof.Pokemon.pokeRead_ok d buf len off hn h hf]
      by_cases hs : d.vars.stream = 0 <;>
        simp only [pokeRead, exec_bind, exec_load, exec_copyToUser, exec_printk, exec_pure, hn, hf,
          hs, modeLines, if_neg h, if_true, if_false, ne_eq, not_true_eq_false, not_false_eq_true,
          Nat.sub_zero, List.nil_append]
    · rw [Proof.Pokemon.pokeRead_fault d buf len off hn h hf]
      simp only [pokeRead, exec_bind, exec_load, exec_copyToUser, exec_printk, exec_pure, hn,
        if_neg h, if_pos hf, List.nil_append]

theorem exec_pokeWrite (buf : UserSrc) (len : Nat) (off : Int) {r : (Int × Int) × CallSt Vars}
    (hr : (Impl.Pokemon.pokeWrite buf len off).run { dev := d } = r) :
    ((pokeWrite buf len off).run {}).exec d = ((r.1, r.2.out), r.2.dev) := by
  subst hr
  by_cases h : off ≥ BUFFER_SIZE
  · rw [Proof.Pokemon.pokeWrite_far d buf len off h]
    simp only [pokeWrite, exec_pure, if_pos h]
  · generalize hn :
      (if sizeT (len + off) > BUFFER_SIZE then sizeT (BUFFER_SIZE - off) else len) = n
    by_cases hf : min buf.missed n = 0
    · generalize hb : (d.writeBuffer.copied buf n off).store (n, 0) = b
      rw [Proof.Pokemon.pokeWrite_ok d buf len off h hn hf hb]
      by_cases h1 : b.get 0 = '1'.toUInt8
      · simp only [pokeWrite, exec_bind, exec_copyFromUser, exec_storeByte, exec_loadStr,
          strAt_finRange, exec_printk, exec_load, exec_store, exec_pure, hn, hf, hb, obey, obeyLines,
          if_neg h, if_pos h1, ne_eq, not_true_eq_false, if_false, List.nil_append, List.cons_append]
      · by_cases h0 : b.get 0 = '0'.toUInt8
        · simp only [pokeWrite, exec_bind, exec_copyFromUser, exec_storeByte, exec_loadStr,
            strAt_finRange, exec_printk, exec_load, exec_store, exec_pure, hn, hf, hb, obey,
            obeyLines, if_neg h, if_neg h1, if_pos h0, ne_eq, not_true_eq_false, if_false,
            List.nil_append, List.cons_append]
        · simp only [pokeWrite, exec_bind, exec_copyFromUser, exec_storeByte, exec_loadStr,
            strAt_finRange, exec_printk, exec_load, exec_pure, hn, hf, hb, obey, obeyLines,
            if_neg h, if_neg h1, if_neg h0, ne_eq, not_true_eq_false, if_false, List.nil_append]
    · rw [Proof.Pokemon.pokeWrite_fault d buf len off h hn hf]
      simp only [pokeWrite, exec_bind, exec_copyFromUser, exec_pure, hn, if_neg h, if_pos hf,
        List.nil_append]

theorem exec_pokeOpen {r : Int × CallSt Vars} (hr : Impl.Pokemon.pokeOpen.run { dev := d } = r) :
    (pokeOpen.run {}).exec d = ((r.1, r.2.out), r.2.dev) := by
  subst hr
  rw [Proof.Pokemon.pokeOpen_run]
  rfl

theorem exec_pokeClose {r : Int × CallSt Vars} (hr : Impl.Pokemon.pokeClose.run { dev := d } = r) :
    (pokeClose.run {}).exec d = ((r.1, r.2.out), r.2.dev) := by
  subst hr
  rw [Proof.Pokemon.pokeClose_run]
  rfl

/-- A call no other runs beside does what the function run in one piece does. -/
theorem exec_code (c : Fop) :
    (fops.code c).exec d = ((driver.enter d c).2, (driver.enter d c).1) := by
  cases c with
  | opn => rw [Fops.code, Thread.exec_bind, fops, exec_pokeOpen d rfl]; rfl
  | release => rw [Fops.code, Thread.exec_bind, fops, exec_pokeClose d rfl]; rfl
  | read buf len off => rw [Fops.code, Thread.exec_bind, fops, exec_pokeRead d buf len off rfl]; rfl
  | write buf off => rw [Fops.code, Thread.exec_bind, fops, exec_pokeWrite d buf _ off rfl]; rfl

end SO.Access.Pokemon
