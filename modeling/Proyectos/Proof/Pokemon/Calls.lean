import Proyectos.Impl.Pokemon

/-!
# `pokemon`: what each function does

One theorem for each way through a function of `Proyectos.Impl.Pokemon`, with
all it returns, changes and leaves behind. The others cite these and never
unfold the code.
-/

namespace SO.Proof.Pokemon

open SO.Impl.Pokemon

/-- What `poke_write` does with the first byte of `write_buffer`. -/
def obey (b : UInt8) (v : Vars) : Vars :=
  if b = '1'.toUInt8 then { v with stream := 1 }
  else if b = '0'.toUInt8 then { v with stream := 0 }
  else v

/-- The lines `poke_write` logs about it. -/
def obeyLines (b : UInt8) : List Line :=
  if b = '1'.toUInt8 then [⟨.kernInfo, "Modo flujo ACTIVADO\n", []⟩]
  else if b = '0'.toUInt8 then [⟨.kernInfo, "Modo flujo DESACTIVADO\n", []⟩]
  else []

/-- The line a read logs about the mode. -/
def modeLines (v : Vars) : List Line :=
  if v.stream ≠ 0 then [⟨.kernInfo, "Modo flujo Pokemon ACTIVADO\n", []⟩] else []

variable (v : Dev Vars)

/-! ## Reading -/

section Read

variable (buf : UserDst) (len : Nat) (off : Int) {n : Nat} (hn : v.kernelBuffer.strlen = n)
include hn

/-- The end of file, which also rewinds the file. -/
theorem pokeRead_eof (h : off ≥ n) :
    (pokeRead buf len off).run { dev := v } = ((0, 0), { dev := v }) := by
  simp only [pokeRead, hn, Code.run_bind, Code.run_pure, run_kernelBuffer, if_pos h]

/-- A read whose copy fails. -/
theorem pokeRead_fault (h : ¬ off ≥ n) (hf : min buf.missed n ≠ 0) :
    (pokeRead buf len off).run { dev := v } = ((-EFAULT, off),
      { dev := v
        out :=
          { log := [⟨.kernErr, "Error al copiar datos al usuario\n", []⟩]
            user := v.kernelBuffer.bytes.take (n - min buf.missed n) } }) := by
  simp only [pokeRead, hn, Code.run_bind, Code.run_pure, run_kernelBuffer,
    run_copyToUser, run_printk, if_neg h, if_pos hf, List.nil_append]

/-- A read that delivers the message, whatever length was asked for. -/
theorem pokeRead_ok (h : ¬ off ≥ n) (hf : min buf.missed n = 0) :
    (pokeRead buf len off).run { dev := v } = ((int32 (n : Int), loffT (off + n)),
      { dev := v
        out := { log := modeLines v.vars, user := v.kernelBuffer.bytes.take n } }) := by
  simp only [pokeRead, hn, Code.run_bind, Code.run_pure, Code.run_ite, run_kernelBuffer, run_vars,
    run_copyToUser, run_printk, if_neg h, hf, ne_eq, not_true_eq_false, ite_false, Nat.sub_zero,
    List.nil_append, modeLines]
  by_cases hs : v.vars.stream = 0
  · simp only [hs, not_true_eq_false, ite_false]
  · simp only [hs, not_false_eq_true, ite_true]

end Read

/-! ## Writing -/

section Write

variable (buf : UserSrc) (len : Nat) (off : Int)

/-- A write past the end of the array. -/
theorem pokeWrite_far (h : off ≥ BUFFER_SIZE) :
    (pokeWrite buf len off).run { dev := v } = ((0, off), { dev := v }) := by
  simp [pokeWrite, show (1024 : Int) ≤ off from h]

variable (h : ¬ off ≥ BUFFER_SIZE) {n : Nat}
  (hn : (if sizeT (len + off) > BUFFER_SIZE then sizeT (BUFFER_SIZE - off) else len) = n)
include h hn

/-- A write whose copy fails. -/
theorem pokeWrite_fault (hf : min buf.missed n ≠ 0) :
    (pokeWrite buf len off).run { dev := v } = ((-EFAULT, off),
      { dev := { v with writeBuffer := v.writeBuffer.copied buf n off }
        out := { stores := Buf.copyTo off n (buf.image n) } }) := by
  have h' : off < 1024 := not_le.mp h
  simp only [pokeWrite, hn]
  simp [h', -Nat.min_eq_zero_iff, hf]

/-- A write that is accepted: the bytes at `off`, a terminator at `n`, and what
the first byte of `write_buffer` asks for. -/
theorem pokeWrite_ok (hf : min buf.missed n = 0) {b : Buf BUFFER_SIZE}
    (hb : (v.writeBuffer.copied buf n off).store (n, 0) = b) :
    (pokeWrite buf len off).run { dev := v } = ((int32 (n : Int), loffT (off + n)),
      { dev := { v with vars := obey (b.get 0) v.vars, writeBuffer := b }
        out :=
          { stores := Buf.copyTo off n (buf.image n) ++ [((n : Int), 0)]
            log := ⟨.kernInfo, "Mensaje recibido desde usuario: %s\n", [.s b.cstr]⟩ ::
              obeyLines (b.get 0) } }) := by
  simp only [pokeWrite, hn, Code.run_bind, Code.run_pure, Code.run_ite, run_setVars,
    run_copyFromUser, run_storeByte, run_writeBuffer, run_printk, hf, hb, if_neg h, ne_eq,
    not_true_eq_false, ite_false, List.nil_append]
  by_cases h1 : b.get 0 = '1'.toUInt8
  · simp only [obey, obeyLines, if_pos h1]; rfl
  · by_cases h0 : b.get 0 = '0'.toUInt8
    · simp only [obey, obeyLines, if_neg h1, if_pos h0]; rfl
    · simp only [obey, obeyLines, if_neg h1, if_neg h0]

end Write

/-! ## Opening and closing -/

theorem pokeOpen_run : pokeOpen.run { dev := v } = (0,
    { dev := v
      out := { log := [⟨.kernInfo, "Entrenador conectado al dispositivo Pokemon\n", []⟩] } }) := by
  simp [pokeOpen]

theorem pokeClose_run : pokeClose.run { dev := v } = (0,
    { dev := v
      out := { log := [⟨.kernInfo, "Entrenador desconectado del dispositivo Pokemon\n", []⟩] } }) := by
  simp [pokeClose]

end SO.Proof.Pokemon
