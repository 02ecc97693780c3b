import Proyectos.Proof.Toggle.Mode
import Proyectos.Proof.Offsets
import Mathlib.Data.List.GetD

/-!
# `luffy`, `madre` and `chaleco`: what a write logs

No function stores a terminator, so what `%s` finds depends on all the writes
so far: byte `i` of `write_buffer` is what the latest of them that covers `i`
put there (`writeBuffer_after`). A write that is accepted logs a line that stops
inside the array just if some byte has not been put or was last put as 0
(`logSafe_iff`).
-/

namespace SO.Proof.Toggle

open SO.Impl.Toggle
open SO.Driver (vfs vfs_admitted_of_eq InVfs)

variable (x : Texts)

/-- The byte that a copy from `buf` to the offset `off` puts at the index `i`,
if it puts one there. -/
def putAt (buf : UserSrc) (off : Int) (i : Fin BUFFER_SIZE) : Option UInt8 :=
  if off ≤ i ∧ (i : Int) < off + buf.bytes.length then
    if buf.missed = 0 then some (buf.bytes.getD (i - off).toNat 0)
    else buf.dirty.getD (i - off).toNat none
  else none

/-- The byte a call puts at the index `i` of `write_buffer`. -/
def put (i : Fin BUFFER_SIZE) (t : Step (Sys Vars) Call Event) : Option UInt8 :=
  match t.inp with
  | .write k at? buf => if k ∈ t.pre.opens then putAt buf (t.pre.offset k at?) i else none
  | _ => none

theorem put_write {d : Driver Vars} {s : Sys Vars} {k : Nat} {at? : Option Int} {buf : UserSrc}
    (h : k ∈ s.opens) (i : Fin BUFFER_SIZE) :
    put i (Run.stepOf d.step s (.write k at? buf)) = putAt buf (s.offset k at?) i := if_pos h

/-- The byte at the index `i` that the calls so far make. -/
def byteAt (ts : List (Step (Sys Vars) Call Event)) (i : Fin BUFFER_SIZE) : UInt8 :=
  ((ts.filterMap (put i)).getLast?).getD 0

theorem byteAt_snoc (ts : List (Step (Sys Vars) Call Event)) (t : Step (Sys Vars) Call Event)
    (i : Fin BUFFER_SIZE) : byteAt (ts ++ [t]) i = (put i t).getD (byteAt ts i) := by
  rw [byteAt, List.filterMap_append, List.getLast?_append]
  cases h : put i t <;> simp [h, byteAt]

/-- A write's copy puts the bytes `putAt` says. -/
theorem copied_get (b : Buf BUFFER_SIZE) (buf : UserSrc) {off : Int} (h0 : 0 ≤ off)
    (i : Fin BUFFER_SIZE) :
    (b.copied buf (min buf.bytes.length (BUFFER_SIZE - off.toNat)) off).get i =
      (putAt buf off i).getD (b.get i) := by
  have hi := i.isLt
  simp only [BUFFER_SIZE] at hi ⊢
  rw [Buf.get_copied, putAt]
  by_cases h : off ≤ i ∧ (i : Int) < off + buf.bytes.length
  · rw [if_pos h, if_pos (by omega), UserSrc.image]
    have hm : min buf.missed (min buf.bytes.length (1024 - off.toNat)) = 0 ↔ buf.missed = 0 := by
      omega
    simp only [hm]
  · rw [if_neg h, if_neg (by omega)]; rfl

theorem putAt_far (buf : UserSrc) {off : Int} (h : off ≥ BUFFER_SIZE) (i : Fin BUFFER_SIZE) :
    putAt buf off i = none := by
  have hi := i.isLt
  simp only [BUFFER_SIZE] at hi h
  exact if_neg (by omega)

/-- `write_buffer` after a write. -/
theorem toggleWrite_get (v : Dev Vars) (buf : UserSrc) {off : Int} (h0 : 0 ≤ off)
    (hl : buf.bytes.length ≤ MAX_RW_COUNT) (i : Fin BUFFER_SIZE) :
    ((toggleWrite x buf buf.bytes.length off).run { dev := v }).2.dev.writeBuffer.get i =
      (putAt buf off i).getD (v.writeBuffer.get i) := by
  by_cases h : off ≥ BUFFER_SIZE
  · rw [toggleWrite_far x v buf _ off h, putAt_far buf h]; rfl
  · have hn := clamp_eq h0 h hl
    rw [← copied_get _ buf h0]
    by_cases hf : min buf.missed (min buf.bytes.length (BUFFER_SIZE - off.toNat)) = 0
    · rw [toggleWrite_ok x v buf _ off h hn hf rfl]
    · rw [toggleWrite_fault x v buf _ off h hn hf]

/-- Writes move a session's offset within the array; nothing else moves it. -/
theorem moves : (driver x).Moves (Holds x) where
  read v buf len off _ ho := by
    show Driver.InArray ((toggleRead x buf len off).run { dev := v }).1.2
    by_cases h : v.vars.exit = 0
    · by_cases hf : min buf.missed v.kernelBuffer.strlen = 0
      · rw [toggleRead_ok x v buf len off h rfl hf]; exact ho
      · rw [toggleRead_fault x v buf len off h rfl hf]; exact ho
    · rw [toggleRead_eof x v buf len off h]; exact ho
  write v buf off hl ho := by
    show Driver.InArray ((toggleWrite x buf buf.bytes.length off).run { dev := v }).1.2
    by_cases h : off ≥ BUFFER_SIZE
    · rw [toggleWrite_far x v buf _ off h]; exact ho
    · have hn := clamp_eq ho.1 h hl
      by_cases hf : min buf.missed (min buf.bytes.length (BUFFER_SIZE - off.toNat)) = 0
      · rw [toggleWrite_ok x v buf _ off h hn hf rfl]
        have h1 := ho.1
        simp only [Driver.InArray, BUFFER_SIZE] at h h1 ⊢
        rw [loffT_of_lt (by omega) (by omega)]
        omega
      · rw [toggleWrite_fault x v buf _ off h hn hf]; exact ho

theorem appends : (driver x).Appends := by
  intro v buf off n h0 hb hl hn
  show ((toggleWrite x buf buf.bytes.length off).run { dev := v }).1 = _
  by_cases h : off ≥ BUFFER_SIZE
  · have hz : n = 0 := by omega
    rw [toggleWrite_far x v buf _ off h, hz, Nat.cast_zero, add_zero]
  · have hc := (clamp_eq h0 h hl).trans hn
    have hf : min buf.missed n = 0 := by rw [hb, Nat.zero_min]
    rw [toggleWrite_ok x v buf _ off h hc hf rfl]
    simp only [BUFFER_SIZE] at h hn
    exact congrArg₂ _ (int32_of_lt (by omega) (by omega)) (loffT_of_lt (by omega) (by omega))

/-- Only writes change `write_buffer`. -/
theorem frames_writeBuffer (b : Buf BUFFER_SIZE) : (driver x).Frames fun v => v.writeBuffer = b where
  opn v h := by
    show ((toggleOpen x).run { dev := v }).2.dev.writeBuffer = b
    rw [toggleOpen_run]; exact h
  release v h := by
    show ((toggleClose x).run { dev := v }).2.dev.writeBuffer = b
    rw [toggleClose_run]; exact h
  read v buf len off h := by
    obtain ⟨e, he⟩ := toggleRead_dev x v buf len off
    show ((toggleRead x buf len off).run { dev := v }).2.dev.writeBuffer = b
    rw [he]; exact h

/-- The call is a write that reaches the driver. -/
def Writes (s : Sys Vars) (c : Call) : Prop := ∃ k at? buf, c = .write k at? buf ∧ k ∈ s.opens

/-- Every call changes `write_buffer` as `put` says. -/
theorem step_get {s : Sys Vars} {c : Call} (hc : InVfs s c) (i : Fin BUFFER_SIZE) :
    ((driver x).step s c).1.dev.writeBuffer.get i =
      (put i (Run.stepOf (driver x).step s c)).getD (s.dev.writeBuffer.get i) := by
  by_cases hw : Writes s c
  · obtain ⟨k, at?, buf, rfl, hk⟩ := hw
    obtain ⟨h0, hl⟩ := hc k at? buf rfl
    rw [put_write hk, Driver.step_write hk rfl]
    exact toggleWrite_get x _ _ h0 hl i
  · have hf := (frames_writeBuffer x s.dev.writeBuffer).step (s := s) (c := c) rfl
      fun k at? buf e hk => absurd ⟨k, at?, buf, e, hk⟩ hw
    have hp : put i (Run.stepOf (driver x).step s c) = none := by
      cases c with
      | opn k | close k | read k at? buf len => rfl
      | write k at? buf => exact if_neg fun hk => hw ⟨k, at?, buf, rfl, hk⟩
    rw [hp]
    exact congrArg (Buf.get · i) hf

variable {x}

/-- Every run: the bytes of `write_buffer` are those the calls put there. -/
theorem writeBuffer_after {cs : List Call} (h : ∀ c ∈ cs, c.Admitted) (i : Fin BUFFER_SIZE) :
    ((driver x).after cs).dev.writeBuffer.get i = byteAt ((driver x).steps cs) i := by
  induction cs using List.reverseRecOn with
  | nil => rfl
  | append_singleton cs c ih =>
    rw [Driver.after, Run.after_snoc, step_get x ((moves x).inVfs (keeps_holds x) h), Driver.steps,
      Run.steps_snoc, byteAt_snoc, ih fun c' hc => h c' (List.mem_append_left _ hc)]

/-! ## The lines logged -/

/-- The call is a write that reaches its `%s`: its offset is inside the array
and its copy does not fail. -/
def Logs (t : Step (Sys Vars) Call Event) : Prop :=
  match t.inp with
  | .write k at? buf =>
    k ∈ t.pre.opens ∧ t.pre.offset k at? < BUFFER_SIZE ∧ (buf.missed = 0 ∨ buf.bytes = [])
  | _ => False

/-- No line logged runs past the end of an array. -/
def LogSafe (d : Driver Vars) (cs : List Call) : Prop :=
  ∀ t ∈ d.steps cs, ∀ l ∈ t.out.out.log, l.Terminated

/-- At each write that reaches its `%s`, the calls up to it leave some byte of
`write_buffer` that has not been put or was last put as 0. -/
def Gaps (d : Driver Vars) (cs : List Call) : Prop :=
  ∀ l t r, d.steps cs = l ++ t :: r → Logs t → ∃ i, byteAt (l ++ [t]) i = 0

theorem modeLine_terminated (v : Vars) : (modeLine v).Terminated := by
  unfold modeLine
  split <;> simp [Line.Terminated]

theorem toggleRead_terminated (v : Dev Vars) (buf : UserDst) (len : Nat) (off : Int) :
    ∀ l ∈ ((toggleRead x buf len off).run { dev := v }).2.out.log, l.Terminated := by
  by_cases h : v.vars.exit = 0
  · by_cases hf : min buf.missed v.kernelBuffer.strlen = 0
    · rw [toggleRead_ok x v buf len off h rfl hf]
      simp [modeLine_terminated]
    · rw [toggleRead_fault x v buf len off h rfl hf]
      simp only [List.mem_cons, List.not_mem_nil, or_false, forall_eq_or_imp, forall_eq]
      exact ⟨modeLine_terminated _, by simp [Line.Terminated]⟩
  · rw [toggleRead_eof x v buf len off h]
    simp

/-- The lines a write logs stop just if it does not reach its `%s`, or leaves a
terminator in `write_buffer`. -/
theorem toggleWrite_terminated (v : Dev Vars) (buf : UserSrc) {off : Int} (h0 : 0 ≤ off)
    (hl : buf.bytes.length ≤ MAX_RW_COUNT) :
    (∀ l ∈ ((toggleWrite x buf buf.bytes.length off).run { dev := v }).2.out.log, l.Terminated) ↔
      (off < BUFFER_SIZE ∧ (buf.missed = 0 ∨ buf.bytes = []) → ∃ i,
        ((toggleWrite x buf buf.bytes.length off).run { dev := v }).2.dev.writeBuffer.get i = 0) := by
  by_cases h : off ≥ BUFFER_SIZE
  · rw [toggleWrite_far x v buf _ off h]
    refine iff_of_true (by simp [Line.Terminated]) fun hc => ?_
    exact absurd hc.1 (not_lt.mpr h)
  · have hn := clamp_eq h0 h hl
    have hm : min buf.missed (min buf.bytes.length (BUFFER_SIZE - off.toNat)) = 0 ↔
        buf.missed = 0 ∨ buf.bytes = [] := by
      rw [← List.length_eq_zero_iff]
      simp only [BUFFER_SIZE] at h ⊢
      omega
    by_cases hf : min buf.missed (min buf.bytes.length (BUFFER_SIZE - off.toNat)) = 0
    · rw [toggleWrite_ok x v buf _ off h hn hf rfl, ← Buf.cstr_ne_none]
      have h' : off < 1024 := not_le.mp h
      simp [Line.Terminated, h', hm.mp hf, eq_comm]
    · rw [toggleWrite_fault x v buf _ off h hn hf]
      refine iff_of_true (by simp [Line.Terminated]) fun hc => ?_
      exact absurd (hm.mpr hc.2) hf

theorem leaves_terminated (x : Texts) :
    (driver x).Leaves fun o => ∀ l ∈ o.log, l.Terminated where
  nothing := by simp
  opn v := by
    show ∀ l ∈ ((toggleOpen x).run { dev := v }).2.out.log, l.Terminated
    rw [toggleOpen_run]; simp [Line.Terminated]
  release v := by
    show ∀ l ∈ ((toggleClose x).run { dev := v }).2.out.log, l.Terminated
    rw [toggleClose_run]; simp [Line.Terminated]
  read := toggleRead_terminated

/-- The lines a call logs stop inside the array just if it is no write that
reaches its `%s`, or leaves a terminator in `write_buffer`. -/
theorem step_terminated {s : Sys Vars} {c : Call} (hc : InVfs s c) :
    (∀ l ∈ ((driver x).step s c).2.out.log, l.Terminated) ↔
      (Logs (Run.stepOf (driver x).step s c) →
        ∃ i, ((driver x).step s c).1.dev.writeBuffer.get i = 0) := by
  by_cases hw : Writes s c
  · obtain ⟨k, at?, buf, rfl, hk⟩ := hw
    obtain ⟨h0, hl⟩ := hc k at? buf rfl
    have hg : Logs (Run.stepOf (driver x).step s (.write k at? buf)) ↔
        s.offset k at? < BUFFER_SIZE ∧ (buf.missed = 0 ∨ buf.bytes = []) := and_iff_right hk
    rw [hg, Driver.step_write hk rfl]
    exact toggleWrite_terminated s.dev buf h0 hl
  · refine iff_of_true ((leaves_terminated x).step fun k at? buf e hk => ?_) fun h => ?_
    · exact absurd ⟨k, at?, buf, e, hk⟩ hw
    · cases c with
      | opn k | close k | read k at? buf len => exact h.elim
      | write k at? buf => exact absurd ⟨k, at?, buf, rfl, h.1⟩ hw

/-- Every run of calls the VFS lets through. -/
theorem logSafe_iff (x : Texts) (cs : List VfsCall) :
    LogSafe (driver x) (vfs cs) ↔ Gaps (driver x) (vfs cs) := by
  refine Run.forall_mem_steps_iff (B := fun l t => Logs t → ∃ i, byteAt (l ++ [t]) i = 0)
    fun js c ks e => ?_
  have hj := vfs_admitted_of_eq e
  have hb := writeBuffer_after (x := x) hj
  rw [Driver.after, Run.after_snoc, Driver.steps, Run.steps_snoc] at hb
  simp only [← hb]
  exact step_terminated ((moves x).inVfs (keeps_holds x) hj)

/-- The three drivers, every run of calls the VFS lets through. -/
theorem log_safe_iff (cs : List VfsCall) :
    (LogSafe luffy (vfs cs) ↔ Gaps luffy (vfs cs)) ∧
      (LogSafe madre (vfs cs) ↔ Gaps madre (vfs cs)) ∧
      (LogSafe chaleco (vfs cs) ↔ Gaps chaleco (vfs cs)) :=
  ⟨logSafe_iff luffyTexts cs, logSafe_iff madreTexts cs, logSafe_iff chalecoTexts cs⟩

theorem putAt_filler (i : Fin BUFFER_SIZE) : putAt Driver.filler 0 i = some 0x41 := by
  have hi := i.isLt
  rw [putAt, if_pos (by rw [Driver.length_filler]; omega),
    if_pos (show Driver.filler.missed = 0 from rfl), Driver.filler,
    List.getD_replicate 0x41 (by omega)]

/-- One write that fills `write_buffer`. -/
theorem log_past_end : ¬ ∀ cs, LogSafe luffy (vfs cs) := by
  intro h
  obtain ⟨i, hi⟩ := (logSafe_iff luffyTexts _).mp (h [⟨.opn 0, trivial⟩, Driver.fill])
    (luffy.steps [.opn 0]) (Run.stepOf luffy.step (luffy.after [.opn 0]) Driver.fill) [] rfl
    ⟨by decide, by decide, .inl rfl⟩
  rw [byteAt_snoc, Driver.fill, put_write (by decide),
    show (luffy.after [.opn 0]).offset 0 none = 0 by decide, putAt_filler, Option.getD_some] at hi
  exact absurd hi (by decide)

end SO.Proof.Toggle
