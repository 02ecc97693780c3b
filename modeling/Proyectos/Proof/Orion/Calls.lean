import Proyectos.Impl.Orion

/-!
# `orion`: what each function does

One theorem for each way through a function of `Proyectos.Impl.Orion`, with
all it returns, changes and leaves behind. The others cite these and never
unfold the code.
-/

namespace SO.Proof.Orion

open SO.Impl.Orion

/-- The variables after a directive: what `orion_write` does with the first
byte of `write_buffer`. -/
def obey (b : UInt8) (v : Vars) : Vars :=
  if b = '1'.toUInt8 then { v with stream := 1, exitFlag := 0 }
  else if b = '0'.toUInt8 then { v with stream := 0 }
  else v

/-- The line `orion_write` logs, given `write_buffer`. -/
def logged (b : Buf BUFFER_SIZE) : Line :=
  if b.get 0 = '1'.toUInt8 then
    ⟨.kernInfo, "orion: Modo flujo ACTIVADO. Transmitiendo señal continua...\n", []⟩
  else if b.get 0 = '0'.toUInt8 then ⟨.kernInfo, "orion: Modo flujo DESACTIVADO.\n", []⟩
  else ⟨.kernInfo, "orion: Cadena recibida desde control: %s\n", [.s b.cstr]⟩

variable (v : Dev Vars)

/-! ## Reading -/

section Read

variable (buf : UserDst) (len : Nat) (off : Int)

/-- The end of file. -/
theorem orionRead_eof (h : v.vars.exitFlag ≠ 0) : (orionRead buf len off).run { dev := v } =
    ((0, off), { dev := { v with vars := { v.vars with exitFlag := 0 } } }) := by
  simp only [orionRead, Code.run_bind, Code.run_pure, run_vars, run_setVars,
    run_kernelBuffer, if_neg h]

/-- The flag a read that finds it clear leaves. -/
def armed (v : Vars) : Vars := { v with exitFlag := if v.stream = 0 then 1 else 0 }

/-- A read whose copy fails. -/
theorem orionRead_fault (h : v.vars.exitFlag = 0) {n : Nat} (hn : min len v.kernelBuffer.strlen = n)
    (hf : min buf.missed n ≠ 0) : (orionRead buf len off).run { dev := v } = ((-EFAULT, off),
      { dev := { v with vars := armed v.vars }
        out :=
          { log := [⟨.kernErr, "orion: Fallo al copiar datos al espacio de usuario.\n", []⟩]
            user := v.kernelBuffer.bytes.take (n - min buf.missed n) } }) := by
  by_cases hs : v.vars.stream = 0
  · simp only [orionRead, hn, Code.run_bind, Code.run_pure, run_vars, run_setVars,
      run_kernelBuffer, run_copyToUser, run_printk, if_pos h, if_pos hs, if_pos hf, armed,
      List.nil_append]
  · simp only [orionRead, hn, Code.run_bind, Code.run_pure, run_vars,
      run_kernelBuffer, run_copyToUser, run_printk, if_pos h, if_neg hs, if_pos hf, armed,
      List.nil_append]
    rw [← h]

/-- A read that delivers the message, or its first `len` bytes. -/
theorem orionRead_ok (h : v.vars.exitFlag = 0) {n : Nat} (hn : min len v.kernelBuffer.strlen = n)
    (hf : min buf.missed n = 0) : (orionRead buf len off).run { dev := v } = (((n : Int), off),
      { dev := { v with vars := armed v.vars }
        out := { user := v.kernelBuffer.bytes.take n } }) := by
  by_cases hs : v.vars.stream = 0
  · simp only [orionRead, hn, Code.run_bind, Code.run_pure, run_vars, run_setVars,
      run_kernelBuffer, run_copyToUser, if_pos h, if_pos hs, hf, armed, ne_eq, not_true_eq_false,
      ite_false, Nat.sub_zero, List.nil_append]
  · simp only [orionRead, hn, Code.run_bind, Code.run_pure, run_vars,
      run_kernelBuffer, run_copyToUser, if_pos h, if_neg hs, hf, armed, ne_eq, not_true_eq_false,
      ite_false, Nat.sub_zero, List.nil_append]
    rw [← h]

end Read

/-! ## Writing -/

section Write

variable (buf : UserSrc) (len : Nat) (off : Int)

/-- A write whose copy fails. -/
theorem orionWrite_fault {n : Nat} (hn : min len (BUFFER_SIZE - 1) = n) (hf : min buf.missed n ≠ 0) :
    (orionWrite buf len off).run { dev := v } = ((-EFAULT, off),
      { dev :=
          { v with
            vars := { v.vars with orionMutex := false }
            writeBuffer := v.writeBuffer.copied buf n 0 }
        out := { stores := Buf.copyTo 0 n (buf.image n) } }) := by
  simp only [orionWrite, mutexLock, mutexUnlock, hn, Code.run_bind, Code.run_pure,
    run_setVars, run_copyFromUser, ne_eq, hf, not_false_eq_true, ite_true, List.nil_append]

/-- A write that is accepted: the bytes, their terminator, and what the first
byte of `write_buffer` asks for. -/
theorem orionWrite_ok {n : Nat} (hn : min len (BUFFER_SIZE - 1) = n) (hf : min buf.missed n = 0)
    {b : Buf BUFFER_SIZE} (hb : (v.writeBuffer.copied buf n 0).store (n, 0) = b) :
    (orionWrite buf len off).run { dev := v } = (((n : Int), off),
      { dev := { v with vars := obey (b.get 0) { v.vars with orionMutex := false }, writeBuffer := b }
        out := { stores := Buf.copyTo 0 n (buf.image n) ++ [((n : Int), 0)], log := [logged b] } }) := by
  simp only [orionWrite, mutexLock, mutexUnlock, hn, Code.run_bind, Code.run_pure, Code.run_ite,
    run_setVars, run_copyFromUser, run_storeByte, run_writeBuffer, run_printk, hf, hb, ne_eq,
    not_true_eq_false, ite_false, List.nil_append]
  by_cases h1 : b.get 0 = '1'.toUInt8
  · simp only [obey, logged, if_pos h1]
  · by_cases h0 : b.get 0 = '0'.toUInt8
    · simp only [obey, logged, if_neg h1, if_pos h0]
    · simp only [obey, logged, if_neg h1, if_neg h0]

end Write

/-! ## Opening and closing -/

theorem orionOpen_run : orionOpen.run { dev := v } = (0,
    { dev := { v with vars := { v.vars with
        deviceOpenCount := int32 (v.vars.deviceOpenCount + 1), orionMutex := false } }
      out := { log := [⟨.kernInfo, "orion: Dispositivo abierto. Sesiones activas: %d\n",
        [.d (int32 (v.vars.deviceOpenCount + 1))]⟩] } }) := by
  simp [orionOpen, mutexLock, mutexUnlock]

theorem orionClose_run : orionClose.run { dev := v } = (0,
    { dev := { v with vars := { v.vars with
        deviceOpenCount := int32 (v.vars.deviceOpenCount - 1), orionMutex := false } }
      out := { log := [⟨.kernInfo, "orion: Conexión cerrada. Sesiones activas: %d\n",
        [.d (int32 (v.vars.deviceOpenCount - 1))]⟩] } }) := by
  simp [orionClose, mutexLock, mutexUnlock]

end SO.Proof.Orion
