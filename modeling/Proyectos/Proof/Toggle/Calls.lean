import Proyectos.Impl.Toggle

/-!
# `luffy`, `madre` and `chaleco`: what each function does

One theorem for each way through a function of `Proyectos.Impl.Toggle`, with
all it returns, changes and leaves behind. The others cite these and never
unfold the code.
-/

namespace SO.Proof.Toggle

open SO.Impl.Toggle

/-- The variables after a write, accepted or not. -/
def toggled (v : Vars) : Vars := { v with stream := if v.stream = 0 then 1 else 0 }

/-- The flag a read that finds it clear leaves, unless it fails. -/
def armed (v : Vars) : Vars := { v with exit := if v.stream = 0 then 1 else 0 }

/-- The line a read logs about the mode. -/
def modeLine (v : Vars) : Line :=
  if v.stream = 0 then ⟨.none, "Stream Desactivado", []⟩ else ⟨.none, "Stream Activado", []⟩

variable (x : Texts) (v : Dev Vars)

/-! ## Reading -/

section Read

variable (buf : UserDst) (len : Nat) (off : Int)

/-- The end of file. -/
theorem toggleRead_eof (h : v.vars.exit ≠ 0) : (toggleRead x buf len off).run { dev := v } =
    ((0, off), { dev := { v with vars := { v.vars with exit := 0 } } }) := by
  simp only [toggleRead, Code.run_bind, Code.run_pure, run_vars, run_setVars,
    run_kernelBuffer, if_neg h]

/-- A read whose copy fails: the flag is clear again. -/
theorem toggleRead_fault (h : v.vars.exit = 0) {n : Nat} (hn : v.kernelBuffer.strlen = n)
    (hf : min buf.missed n ≠ 0) : (toggleRead x buf len off).run { dev := v } = ((-EFAULT, off),
      { dev := v
        out :=
          { log := [modeLine v.vars, ⟨.kernErr, x.readError, []⟩]
            user := v.kernelBuffer.bytes.take (n - min buf.missed n) } }) := by
  have hv : ({ v with vars := { v.vars with exit := 0 } } : Dev Vars) = v := by rw [← h]
  by_cases hs : v.vars.stream = 0
  · simp only [toggleRead, hn, Code.run_bind, Code.run_pure, run_vars, run_setVars,
      run_kernelBuffer, run_copyToUser, run_printk, if_pos h, if_pos hf, if_neg (not_not.mpr hs),
      if_pos hs, hv, List.nil_append, modeLine]
    rfl
  · simp only [toggleRead, hn, Code.run_bind, Code.run_pure, run_vars, run_setVars,
      run_kernelBuffer, run_copyToUser, run_printk, if_pos h, if_pos hf, if_pos hs, if_neg hs, hv,
      List.nil_append, modeLine]
    rfl

/-- A read that delivers the message, whatever length was asked for. -/
theorem toggleRead_ok (h : v.vars.exit = 0) {n : Nat} (hn : v.kernelBuffer.strlen = n)
    (hf : min buf.missed n = 0) :
    (toggleRead x buf len off).run { dev := v } = ((int32 (n : Int), off),
      { dev := { v with vars := armed v.vars }
        out := { log := [modeLine v.vars], user := v.kernelBuffer.bytes.take n } }) := by
  simp only [toggleRead, hn, Code.run_bind, Code.run_pure, Code.run_ite, run_vars, run_setVars,
    run_kernelBuffer, run_copyToUser, run_printk, if_pos h, hf, Nat.sub_zero, List.nil_append,
    modeLine, armed]
  by_cases hs : v.vars.stream = 0
  · simp only [hs, ne_eq, not_true_eq_false, ite_false, ite_true]
  · simp only [hs, ne_eq, not_false_eq_true, not_true_eq_false, ite_false, ite_true]
    rw [← h]

end Read

/-! ## Writing -/

section Write

variable (buf : UserSrc) (len : Nat) (off : Int)

/-- A write past the end of the array. -/
theorem toggleWrite_far (h : off ≥ BUFFER_SIZE) : (toggleWrite x buf len off).run { dev := v } =
    ((0, off),
      { dev := { v with vars := toggled v.vars }
        out := { log := [⟨.kernInfo, "Entrando a write\n", []⟩] } }) := by
  have h' : (1024 : Int) ≤ off := h
  by_cases hs : v.vars.stream = 0 <;> simp [toggleWrite, h', hs, toggled]

variable (h : ¬ off ≥ BUFFER_SIZE) {n : Nat}
  (hn : (if sizeT (len + off) > BUFFER_SIZE then sizeT (BUFFER_SIZE - off) else len) = n)
include h hn

/-- A write whose copy fails. -/
theorem toggleWrite_fault (hf : min buf.missed n ≠ 0) :
    (toggleWrite x buf len off).run { dev := v } = ((-EFAULT, off),
      { dev :=
          { v with vars := toggled v.vars, writeBuffer := v.writeBuffer.copied buf n off }
        out :=
          { stores := Buf.copyTo off n (buf.image n)
            log := [⟨.kernInfo, "Entrando a write\n", []⟩] } }) := by
  have h' : off < 1024 := not_le.mp h
  simp only [toggleWrite, hn]
  by_cases hs : v.vars.stream = 0 <;>
    simp [h', hs, toggled, -Nat.min_eq_zero_iff, hf]

/-- A write that is accepted. -/
theorem toggleWrite_ok (hf : min buf.missed n = 0) {b : Buf BUFFER_SIZE}
    (hb : v.writeBuffer.copied buf n off = b) :
    (toggleWrite x buf len off).run { dev := v } = ((int32 (n : Int), loffT (off + n)),
      { dev := { v with vars := toggled v.vars, writeBuffer := b }
        out :=
          { stores := Buf.copyTo off n (buf.image n)
            log := [⟨.kernInfo, "Entrando a write\n", []⟩,
              ⟨.kernInfo, x.bytesReceived, [.d (int32 (n : Int))]⟩,
              ⟨.kernInfo, x.stringReceived, [.s b.cstr]⟩,
              ⟨.kernInfo, "Saliendo a write\n", []⟩] } }) := by
  subst hb
  have h' : off < 1024 := not_le.mp h
  simp only [toggleWrite, hn]
  by_cases hs : v.vars.stream = 0 <;>
    simp [h', hs, toggled, -Nat.min_eq_zero_iff, hf]

end Write

/-! ## Opening and closing -/

theorem toggleOpen_run : (toggleOpen x).run { dev := v } = (0,
    { dev := { v with vars := { v.vars with deviceOpenCount := int32 (v.vars.deviceOpenCount + 1) } }
      out := { log := [⟨.kernInfo, "Se abrió el dispositivo: %s\n",
        [.s (some (utf8 x.deviceName))]⟩] } }) := by
  simp [toggleOpen]

theorem toggleClose_run : (toggleClose x).run { dev := v } =
    (0, { dev := v, out := { log := [⟨.kernInfo, x.closed, []⟩] } }) := by
  simp [toggleClose]

end SO.Proof.Toggle
