import Proyectos.Framework.Serial
import Proyectos.Impl.OrionThreads
import Proyectos.Proof.Orion.Log

/-!
# `orion`, its calls running at the same time
-/

namespace SO.Access.Orion

open SO.Impl.Orion (Vars driver)
open SO.Proof.Orion (obey logged)

/-! ## Alone -/

section Alone

theorem exec_orionRead (d : Dev Vars) (buf : UserDst) (len : Nat) (off : Int)
    {r : (Int × Int) × CallSt Vars} (hr : (Impl.Orion.orionRead buf len off).run { dev := d } = r) :
    ((orionRead buf len off).run {}).exec d = ((r.1, r.2.out), r.2.dev) := by
  subst hr
  by_cases he : d.vars.exitFlag = 0
  · generalize hn : min len d.kernelBuffer.strlen = n
    by_cases hf : min buf.missed n = 0
    · rw [Proof.Orion.orionRead_ok d buf len off he hn hf]
      by_cases hs : d.vars.stream = 0
      · simp only [orionRead, exec_bind, exec_load, exec_store, exec_copyToUser, exec_pure, hn, he, hs,
          hf, Proof.Orion.armed, if_true, ne_eq, not_true_eq_false, if_false, Nat.sub_zero,
          List.nil_append]
      · simp only [orionRead, exec_bind, exec_load, exec_copyToUser, exec_pure, hn, he, hs, hf,
          Proof.Orion.armed, if_true, ne_eq, not_true_eq_false, if_false, Nat.sub_zero,
          List.nil_append]
        rw [← he]
    · rw [Proof.Orion.orionRead_fault d buf len off he hn hf]
      by_cases hs : d.vars.stream = 0
      · simp only [orionRead, exec_bind, exec_load, exec_store, exec_copyToUser, exec_printk, exec_pure,
          hn, he, hs, hf, Proof.Orion.armed, if_true, ne_eq, not_false_eq_true, List.nil_append]
      · simp only [orionRead, exec_bind, exec_load, exec_copyToUser, exec_printk, exec_pure, hn, he,
          hs, hf, Proof.Orion.armed, if_true, ne_eq, not_false_eq_true, if_false, List.nil_append]
        rw [← he]
  · rw [Proof.Orion.orionRead_eof d buf len off he]
    simp only [orionRead, exec_bind, exec_load, exec_store, exec_pure, if_neg he]

variable {d : Dev Vars} (hm : d.vars.orionMutex = false)

include hm

theorem exec_orionWrite (buf : UserSrc) (len : Nat) (off : Int) {r : (Int × Int) × CallSt Vars}
    (hr : (Impl.Orion.orionWrite buf len off).run { dev := d } = r) :
    ((orionWrite buf len off).run {}).exec d = ((r.1, r.2.out), r.2.dev) := by
  subst hr
  obtain ⟨⟨e, s, c, m⟩, kb, wb⟩ := d
  obtain rfl : m = false := hm
  generalize hn : min len (BUFFER_SIZE - 1) = n
  by_cases hf : min buf.missed n = 0
  · generalize hb : (wb.copied buf n 0).store (n, 0) = b
    rw [Proof.Orion.orionWrite_ok _ buf _ off hn hf hb]
    by_cases h1 : b.get 0 = '1'.toUInt8
    · simp only [orionWrite, exec_bind, exec_load, exec_store, exec_copyFromUser, exec_storeByte,
        exec_mutexLock, exec_mutexUnlock, exec_printk, exec_pure, hn, hf, hb, h1, logged, obey, if_true,
        ne_eq, not_true_eq_false, if_false, List.nil_append]
    · by_cases h0 : b.get 0 = '0'.toUInt8
      · simp only [orionWrite, exec_bind, exec_load, exec_store, exec_copyFromUser, exec_storeByte,
          exec_mutexLock, exec_mutexUnlock, exec_printk, exec_pure, hn, hf, hb, if_neg h1, if_pos h0,
          logged, obey, ne_eq, not_true_eq_false, if_false, List.nil_append]
      · simp only [orionWrite, exec_bind, exec_load, exec_copyFromUser, exec_storeByte, exec_loadStr,
          strAt_finRange, exec_mutexLock, exec_mutexUnlock, exec_printk, exec_pure, hn, hf, hb, if_neg h1,
          if_neg h0, logged, obey, ne_eq, not_true_eq_false, if_false, List.nil_append]
  · rw [Proof.Orion.orionWrite_fault _ buf _ off hn hf]
    simp only [orionWrite, exec_bind, exec_copyFromUser, exec_mutexLock, exec_mutexUnlock, exec_pure,
      hn, hf, ne_eq, not_false_eq_true, if_true, List.nil_append]

theorem exec_orionOpen {r : Int × CallSt Vars} (hr : Impl.Orion.orionOpen.run { dev := d } = r) :
    (orionOpen.run {}).exec d = ((r.1, r.2.out), r.2.dev) := by
  subst hr
  obtain ⟨⟨e, s, c, m⟩, kb, wb⟩ := d
  obtain rfl : m = false := hm
  rw [Proof.Orion.orionOpen_run]
  simp only [orionOpen, exec_bind, exec_load, exec_store, exec_mutexLock, exec_mutexUnlock, exec_printk,
    exec_pure, List.nil_append]

theorem exec_orionClose {r : Int × CallSt Vars} (hr : Impl.Orion.orionClose.run { dev := d } = r) :
    (orionClose.run {}).exec d = ((r.1, r.2.out), r.2.dev) := by
  subst hr
  obtain ⟨⟨e, s, c, m⟩, kb, wb⟩ := d
  obtain rfl : m = false := hm
  rw [Proof.Orion.orionClose_run]
  simp only [orionClose, exec_bind, exec_load, exec_store, exec_mutexLock, exec_mutexUnlock,
    exec_printk, exec_pure, List.nil_append]

/-- A call no other runs beside does what the function run in one piece does. -/
theorem exec_code (c : Fop) : (fops.code c).exec d = ((driver.enter d c).2, (driver.enter d c).1) := by
  cases c with
  | opn => rw [Fops.code, Thread.exec_bind, fops, exec_orionOpen hm rfl]; rfl
  | release => rw [Fops.code, Thread.exec_bind, fops, exec_orionClose hm rfl]; rfl
  | read buf len off => rw [Fops.code, Thread.exec_bind, fops, exec_orionRead d buf len off rfl]; rfl
  | write buf off => rw [Fops.code, Thread.exec_bind, fops, exec_orionWrite hm buf _ off rfl]; rfl

end Alone

end SO.Access.Orion
