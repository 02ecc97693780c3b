import Proyectos.Impl.ToggleThreads
import Proyectos.Proof.Toggle.Calls

/-!
# `luffy`, `madre` and `chaleco`: a call no other runs beside
-/

namespace SO.Access.Toggle

open SO.Impl.Toggle (Texts Vars driver)
open SO.Proof.Toggle (armed modeLine toggled)

variable (x : Texts) (d : Dev Vars)

theorem exec_toggleRead (buf : UserDst) (len : Nat) (off : Int) {r : (Int × Int) × CallSt Vars}
    (hr : (Impl.Toggle.toggleRead x buf len off).run { dev := d } = r) :
    ((toggleRead x buf len off).run {}).exec d = ((r.1, r.2.out), r.2.dev) := by
  subst hr
  by_cases he : d.vars.exit = 0
  · have hd : ({ d with vars := { d.vars with exit := 0 } } : Dev Vars) = d := by rw [← he]
    generalize hn : d.kernelBuffer.strlen = n
    by_cases hf : min buf.missed n = 0
    · rw [Proof.Toggle.toggleRead_ok x d buf len off he hn hf]
      by_cases hs : d.vars.stream = 0 <;>
        simp only [toggleRead, exec_bind, exec_load, exec_store, exec_copyToUser, exec_printk,
          exec_pure, hn, he, hs, hf, hd, armed, modeLine, if_true, if_false, ne_eq, not_true_eq_false,
          not_false_eq_true, Nat.sub_zero, List.nil_append]
    · rw [Proof.Toggle.toggleRead_fault x d buf len off he hn hf]
      by_cases hs : d.vars.stream = 0
      · simp only [toggleRead, exec_bind, exec_load, exec_store, exec_copyToUser, exec_printk,
          exec_pure, hn, hd, modeLine, if_pos he, if_pos hf, if_pos hs, if_neg (not_not.mpr hs),
          List.nil_append, List.cons_append]
      · simp only [toggleRead, exec_bind, exec_load, exec_store, exec_copyToUser, exec_printk,
          exec_pure, hn, hd, modeLine, if_pos he, if_pos hf, if_pos hs, if_neg hs, List.nil_append,
          List.cons_append]
  · rw [Proof.Toggle.toggleRead_eof x d buf len off he]
    simp only [toggleRead, exec_bind, exec_load, exec_store, exec_pure, if_neg he]

theorem exec_toggleWrite (buf : UserSrc) (len : Nat) (off : Int) {r : (Int × Int) × CallSt Vars}
    (hr : (Impl.Toggle.toggleWrite x buf len off).run { dev := d } = r) :
    ((toggleWrite x buf len off).run {}).exec d = ((r.1, r.2.out), r.2.dev) := by
  subst hr
  by_cases h : off ≥ BUFFER_SIZE
  · rw [Proof.Toggle.toggleWrite_far x d buf len off h]
    by_cases hs : d.vars.stream = 0 <;>
      simp only [toggleWrite, exec_bind, exec_load, exec_store, exec_printk, exec_pure, hs, h, toggled,
        if_true, if_false, List.nil_append]
  · generalize hn :
      (if sizeT (len + off) > BUFFER_SIZE then sizeT (BUFFER_SIZE - off) else len) = n
    by_cases hf : min buf.missed n = 0
    · rw [Proof.Toggle.toggleWrite_ok x d buf len off h hn hf rfl]
      by_cases hs : d.vars.stream = 0 <;>
        simp only [toggleWrite, exec_bind, exec_load, exec_store, exec_copyFromUser, exec_loadStr,
          strAt_finRange, exec_printk, exec_pure, hs, h, hn, hf, toggled, if_true, if_false, ne_eq,
          not_true_eq_false, List.nil_append, List.cons_append]
    · rw [Proof.Toggle.toggleWrite_fault x d buf len off h hn hf]
      by_cases hs : d.vars.stream = 0 <;>
        simp only [toggleWrite, exec_bind, exec_load, exec_store, exec_copyFromUser, exec_printk,
          exec_pure, hs, h, hn, hf, toggled, if_true, if_false, ne_eq, not_false_eq_true,
          List.nil_append]

theorem exec_toggleOpen {r : Int × CallSt Vars}
    (hr : (Impl.Toggle.toggleOpen x).run { dev := d } = r) :
    ((toggleOpen x).run {}).exec d = ((r.1, r.2.out), r.2.dev) := by
  subst hr
  rw [Proof.Toggle.toggleOpen_run]
  rfl

theorem exec_toggleClose {r : Int × CallSt Vars}
    (hr : (Impl.Toggle.toggleClose x).run { dev := d } = r) :
    ((toggleClose x).run {}).exec d = ((r.1, r.2.out), r.2.dev) := by
  subst hr
  rw [Proof.Toggle.toggleClose_run]
  rfl

/-- A call no other runs beside does what the function run in one piece does. -/
theorem exec_code (c : Fop) : ((fops x).code c).exec d =
    (((driver x).enter d c).2, ((driver x).enter d c).1) := by
  cases c with
  | opn => rw [Fops.code, Thread.exec_bind, fops, exec_toggleOpen x d rfl]; rfl
  | release => rw [Fops.code, Thread.exec_bind, fops, exec_toggleClose x d rfl]; rfl
  | read buf len off => rw [Fops.code, Thread.exec_bind, fops, exec_toggleRead x d buf len off rfl]; rfl
  | write buf off => rw [Fops.code, Thread.exec_bind, fops, exec_toggleWrite x d buf _ off rfl]; rfl

end SO.Access.Toggle
