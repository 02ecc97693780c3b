import Proyectos.Proof.Orion.Mode

/-!
# `orion`: what a write logs

`write_buffer` is never cleared, but `orion_write` copies to its start and ends
the copy with a terminator, so `%s` stops at the bytes just accepted: the line
a write logs is decided by its payload (`orionWrite_line`), whatever the driver
was given before (`logs_own`).
-/

namespace SO.Proof.Orion

open SO.Impl.Orion

/-- What is logged of a payload: the bytes `orion_write` accepts, cut at their
first NUL. -/
def logText (payload : List UInt8) : List UInt8 :=
  (payload.take (BUFFER_SIZE - 1)).takeWhile (· ≠ 0)

/-- The line of a payload that asks for no mode. -/
def textLine (payload : List UInt8) : Line :=
  ⟨.kernInfo, "orion: Cadena recibida desde control: %s\n", [.s (some (logText payload))]⟩

/-- The payload's first byte, if it has one, is neither `'0'` nor `'1'`. -/
def Plain (payload : List UInt8) : Prop :=
  payload.head? ≠ some '0'.toUInt8 ∧ payload.head? ≠ some '1'.toUInt8

instance (payload : List UInt8) : Decidable (Plain payload) := inferInstanceAs (Decidable (_ ∧ _))

/-- The byte the driver tests asks for no mode. -/
theorem plain_getD {payload : List UInt8} (h : Plain payload) :
    payload.getD 0 0 ≠ '1'.toUInt8 ∧ payload.getD 0 0 ≠ '0'.toUInt8 := by
  cases payload with
  | nil => exact ⟨by decide, by decide⟩
  | cons b l => exact ⟨fun e => h.2 (congrArg some e), fun e => h.1 (congrArg some e)⟩

/-- A write that is accepted logs its own payload. -/
theorem orionWrite_line (v : Dev Vars) {buf : UserSrc} (hp : Plain buf.bytes)
    (hf : min buf.missed (min buf.bytes.length (BUFFER_SIZE - 1)) = 0) (off : Int) :
    ((orionWrite buf buf.bytes.length off).run { dev := v }).2.out.log = [textLine buf.bytes] := by
  generalize hn : min buf.bytes.length (BUFFER_SIZE - 1) = n at hf
  have hl : n ≤ buf.bytes.length := by omega
  have hb : n < BUFFER_SIZE := by simp only [BUFFER_SIZE] at hn ⊢; omega
  have ht : buf.bytes.take n = buf.bytes.take (BUFFER_SIZE - 1) := by
    rw [← hn, ← List.take_take, List.take_of_length_le]
    rw [List.length_take]
    exact min_le_right _ _
  obtain ⟨h1, h0⟩ := plain_getD hp
  rw [← tested_byte v.writeBuffer buf hn hf] at h1 h0
  rw [orionWrite_ok v buf _ off hn hf rfl]
  show [logged _] = [textLine buf.bytes]
  rw [logged, if_neg h1, if_neg h0, Buf.cstr_copied _ hf hl hb, ht]
  rfl

/-- A write that returns no error is one that was accepted. -/
theorem accepted_of_ret {s : Sys Vars} {k : Nat} {at? : Option Int} {buf : UserSrc}
    (h : 0 ≤ (driver.step s (.write k at? buf)).2.ret) :
    k ∈ s.opens ∧ min buf.missed (min buf.bytes.length (BUFFER_SIZE - 1)) = 0 := by
  by_cases hk : k ∈ s.opens
  · refine ⟨hk, ?_⟩
    by_contra hf
    rw [Driver.step_write hk (orionWrite_fault s.dev buf _ (s.offset k at?) rfl hf)] at h
    exact absurd h (show ¬ (0 : Int) ≤ -EFAULT by decide)
  · rw [Driver.step_write_of_closed hk] at h
    exact absurd h (show ¬ (0 : Int) ≤ -EBADF by decide)

theorem step_line {s : Sys Vars} {k : Nat} {at? : Option Int} {buf : UserSrc}
    (hp : Plain buf.bytes) (h : 0 ≤ (driver.step s (.write k at? buf)).2.ret) :
    (driver.step s (.write k at? buf)).2.out.log = [textLine buf.bytes] := by
  obtain ⟨hk, hf⟩ := accepted_of_ret h
  rw [Driver.step_write hk rfl]
  exact orionWrite_line s.dev hp hf _

/-- Any two runs that end with a write of the same payload, each accepted and
asking for no mode: the two writes log the same, and that is the payload's. -/
theorem logs_own (cs cs' : List Call) (k k' : Nat) (at? at?' : Option Int) (buf buf' : UserSrc)
    (hb : buf'.bytes = buf.bytes) (hp : Plain buf.bytes)
    (h : 0 ≤ (driver.step (driver.after cs) (.write k at? buf)).2.ret)
    (h' : 0 ≤ (driver.step (driver.after cs') (.write k' at?' buf')).2.ret) :
    (driver.step (driver.after cs) (.write k at? buf)).2.out.log =
        (driver.step (driver.after cs') (.write k' at?' buf')).2.out.log ∧
      (driver.step (driver.after cs) (.write k at? buf)).2.out.log = [textLine buf.bytes] := by
  have hl := step_line hp h
  have hl' := step_line (hb ▸ hp) h'
  rw [hl, hl', hb]
  exact ⟨rfl, rfl⟩

/-- A write of two bytes, after a longer one and a failed one, and alone. -/
theorem logs_own_after_longer :
    (driver.step (driver.after [.opn 0, .write 0 none ⟨[0x41, 0x42, 0x43, 0x44], 0, []⟩,
      .write 0 none ⟨[0x45, 0x46, 0x47], 1, [some 0x45]⟩])
        (.write 0 none ⟨[0x58, 0x59], 0, []⟩)).2.out.log = [textLine [0x58, 0x59]] :=
  (logs_own _ [.opn 7] 0 7 none none ⟨[0x58, 0x59], 0, []⟩ ⟨[0x58, 0x59], 0, []⟩ rfl (by decide)
    (by decide +kernel) (by decide +kernel)).2

end SO.Proof.Orion
