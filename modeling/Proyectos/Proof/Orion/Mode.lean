import Proyectos.Proof.Orion.Safety
import Proyectos.Proof.Serves

/-!
# `orion`: stream mode

`orion` serves its message as the device of `Proyectos.Spec.Mode` does
(`serves`): a write that is accepted is the act its payload's first byte asks
for, since `orion_write` stores the payload at the start of `write_buffer` and
tests the byte it has stored. So the mode is what the latest accepted directive
asked for (`orion_mode`), and no read in stream mode is told the end of file
(`orion_endless`).
-/

namespace SO.Proof.Orion

open SO.Impl.Orion
open SO.Spec (Mode.Flags Mode.Act)

/-! ## The device `orion` is -/

/-- The flags of the device. -/
def flags (v : Vars) : Mode.Flags := ⟨decide (v.stream ≠ 0), decide (v.exitFlag ≠ 0)⟩

/-- What the first byte of a message asks for. -/
def byteAct (b : UInt8) : Mode.Act :=
  if b = '1'.toUInt8 then .on else if b = '0'.toUInt8 then .off else .idle

/-- What a write does to the device. -/
def writeAct (buf : UserSrc) : Mode.Act :=
  if min buf.missed (min buf.bytes.length (BUFFER_SIZE - 1)) ≠ 0 then .idle
  else byteAct (buf.bytes.getD 0 0)

theorem strlen_message {v : Dev Vars} (h : v.kernelBuffer = .ofBytes message) :
    v.kernelBuffer.strlen = message.length := by
  rw [h]; exact Buf.strlen_ofBytes (by decide) (by decide)

theorem take_message {v : Dev Vars} (h : v.kernelBuffer = .ofBytes message) {n : Nat}
    (hn : n ≤ message.length) : v.kernelBuffer.bytes.take n = message.take n := by
  rw [h]; exact Buf.take_bytes_ofBytes (by decide) hn

theorem flags_obey (b : UInt8) (v : Vars) (keep : Bool) :
    flags (obey b v) = (Spec.Mode.step keep (flags v) (byteAct b)).1 := by
  unfold obey byteAct
  split
  · rfl
  · split <;> rfl

/-- The byte `orion_write` tests is the payload's first. -/
theorem tested_byte (b : Buf BUFFER_SIZE) (buf : UserSrc) {n : Nat}
    (hn : min buf.bytes.length (BUFFER_SIZE - 1) = n) (hf : min buf.missed n = 0) :
    ((b.copied buf n 0).store (n, 0)).get 0 = buf.bytes.getD 0 0 := by
  rcases Nat.eq_zero_or_pos n with rfl | hp
  · -- nothing is copied, and the terminator is the first byte
    have hl : buf.bytes = [] := by
      rw [← List.length_eq_zero_iff]
      simp only [BUFFER_SIZE] at hn
      omega
    have h0 : (((0 : Fin BUFFER_SIZE) : Nat) : Int) = (0 : Nat) := rfl
    rw [Buf.get_store, if_pos h0, hl]
    rfl
  · exact b.first_copied hp hf

/-- The line a write logs does not depend on what was in `write_buffer`. -/
theorem logged_copied (b b' : Buf BUFFER_SIZE) {buf : UserSrc} {n : Nat}
    (hn : min buf.bytes.length (BUFFER_SIZE - 1) = n) (hf : min buf.missed n = 0) :
    logged ((b.copied buf n 0).store (n, 0)) = logged ((b'.copied buf n 0).store (n, 0)) := by
  have hl : n ≤ buf.bytes.length := by omega
  have hb : n < BUFFER_SIZE := by simp only [BUFFER_SIZE] at hn ⊢; omega
  simp only [logged, tested_byte _ _ hn hf, Buf.cstr_copied _ hf hl hb]

theorem flags_armed (v : Vars) : flags (armed v) = { flags v with eof := !(flags v).stream } := by
  by_cases hs : v.stream = 0 <;> simp [flags, armed, hs]

/-- A read is the device's. -/
theorem orionRead_serves (v : Dev Vars) (buf : UserDst) (len : Nat) (off : Int)
    (h : v.kernelBuffer = .ofBytes message) :
    ReadsAs flags message (min len message.length) ((orionRead buf len off).run { dev := v })
      (Spec.Mode.step true (flags v.vars)
        (.read (decide (min buf.missed (min len message.length) ≠ 0)))) := by
  have hn : min len v.kernelBuffer.strlen = min len message.length := by rw [strlen_message h]
  by_cases he : v.vars.exitFlag = 0
  · have hv : (flags v.vars).eof = false := decide_eq_false (not_not.mpr he)
    by_cases hf : min buf.missed (min len message.length) = 0
    · rw [orionRead_ok v buf len off he hn hf, decide_eq_false (not_not.mpr hf),
        Spec.Mode.step_message hv]
      exact ⟨flags_armed v.vars, rfl, take_message h (min_le_right _ _)⟩
    · rw [orionRead_fault v buf len off he hn hf, decide_eq_true hf, Spec.Mode.step_fault hv]
      exact ⟨flags_armed v.vars, rfl⟩
  · rw [orionRead_eof v buf len off he, Spec.Mode.step_eof (decide_eq_true he)]
    exact ⟨rfl, rfl, rfl⟩

/-- A write is the device's. -/
theorem orionWrite_serves (v : Dev Vars) (buf : UserSrc) (off : Int) :
    flags ((orionWrite buf buf.bytes.length off).run { dev := v }).2.dev.vars =
      (Spec.Mode.step true (flags v.vars) (writeAct buf)).1 := by
  by_cases hf : min buf.missed (min buf.bytes.length (BUFFER_SIZE - 1)) = 0
  · rw [orionWrite_ok v buf _ off rfl hf rfl, writeAct, if_neg (not_not.mpr hf), tested_byte _ _ rfl hf]
    exact flags_obey _ _ _
  · rw [orionWrite_fault v buf _ off rfl hf, writeAct, if_pos hf]; rfl

/-- `orion` serves its message as the device does. -/
def serves : Serves driver where
  msg := message
  msg_pos := by decide
  keep := true
  flags := flags
  size len := min len message.length
  size_of_le _ h := min_eq_right h
  writeAct := writeAct
  opens := driver_opens
  inv := Sound
  keeps := keeps_sound
  kernel h := h.kernel
  init := rfl
  opn v := by
    show flags (orionOpen.run { dev := v }).2.dev.vars = _
    rw [orionOpen_run]; rfl
  release v := by
    show flags (orionClose.run { dev := v }).2.dev.vars = _
    rw [orionClose_run]; rfl
  read := orionRead_serves
  write := orionWrite_serves

/-! ## The mode follows the last directive -/

/-- A directive: a write that returned at least 1 and whose payload starts with
`'1'` (`true`) or `'0'` (`false`). -/
def directive (t : Step (Sys Vars) Call Event) : Option Bool :=
  match t.inp with
  | .write _ _ buf =>
    if 1 ≤ t.out.ret then
      if buf.bytes.head? = some '1'.toUInt8 then some true
      else if buf.bytes.head? = some '0'.toUInt8 then some false
      else none
    else none
  | _ => none

theorem byteAct_directive (l : List UInt8) : (byteAct (l.getD 0 0)).directive =
    if l.head? = some '1'.toUInt8 then some true
    else if l.head? = some '0'.toUInt8 then some false else none := by
  cases l with
  | nil => rfl
  | cons b l =>
    simp only [byteAct, List.getD_cons_zero, List.head?_cons, Option.some.injEq]
    split <;> [rfl; split <;> rfl]

/-- A directive of the run is one of the device. -/
theorem act_directive (s : Sys Vars) (c : Call) :
    (serves.act s c).directive = directive (Run.stepOf driver.step s c) := by
  cases c with
  | opn k | close k => rfl
  | read k at? buf len =>
    show Mode.Act.directive (if k ∈ s.opens then _ else _) = none
    split <;> rfl
  | write k at? buf =>
    by_cases hk : k ∈ s.opens
    · have ha : serves.act s (.write k at? buf) = writeAct buf := if_pos hk
      by_cases hf : min buf.missed (min buf.bytes.length (BUFFER_SIZE - 1)) = 0
      · have hr := Driver.step_write (d := driver) hk
          (orionWrite_ok s.dev buf _ (s.offset k at?) rfl hf rfl)
        rw [ha, writeAct, if_neg (not_not.mpr hf), byteAct_directive]
        simp only [directive, Run.stepOf, hr]
        cases hb : buf.bytes with
        | nil => rfl
        | cons b l =>
          have h1 : (1 : Int) ≤ (min (b :: l).length (BUFFER_SIZE - 1) : Nat) := by
            simp only [BUFFER_SIZE, List.length_cons]; omega
          exact (if_pos h1).symm
      · have hr := Driver.step_write (d := driver) hk
          (orionWrite_fault s.dev buf _ (s.offset k at?) rfl hf)
        rw [ha, writeAct, if_pos hf]
        simp only [directive, Run.stepOf, hr]
        rfl
    · have hr : driver.step s (.write k at? buf) = (s, .badf) := Driver.step_write_of_closed hk
      have ha : serves.act s (.write k at? buf) = .idle := if_neg hk
      rw [ha]
      simp only [directive, Run.stepOf, hr]
      rfl

theorem act_ne_toggle (s : Sys Vars) (c : Call) : serves.act s c ≠ .toggle := by
  cases c with
  | opn k | close k => exact fun h => by cases h
  | read k at? buf len =>
    show (if k ∈ s.opens then _ else _) ≠ Mode.Act.toggle
    split <;> simp
  | write k at? buf =>
    show (if k ∈ s.opens then writeAct buf else _) ≠ Mode.Act.toggle
    unfold writeAct byteAct
    split <;> [split <;> [skip; split <;> [skip; split]]; skip] <;> simp

/-- The directives of a run, in order. -/
def directives (cs : List Call) : List Bool := (driver.steps cs).filterMap directive

theorem acts_directives (cs : List Call) :
    (serves.acts cs).filterMap Mode.Act.directive = directives cs := by
  rw [Serves.acts, Run.acts, List.filterMap_map, directives]
  refine List.filterMap_congr fun t ht => ?_
  obtain ⟨js, c, ks, -, rfl⟩ := Run.mem_steps.mp ht
  exact act_directive _ c

theorem acts_ne_toggle (cs : List Call) : ∀ a ∈ serves.acts cs, a ≠ .toggle := by
  intro a ha
  obtain ⟨t, -, rfl⟩ := List.mem_map.mp ha
  exact act_ne_toggle _ _

/-- The mode is one of two numbers. -/
theorem stream_eq (cs : List Call) : (driver.after cs).dev.vars.stream =
    if (serves.flagsOf (driver.after cs)).stream then 1 else 0 := by
  rcases (keeps_sound.after cs).bit with h | h <;>
    simp [Serves.flagsOf, serves, flags, h]

theorem stream_eq_one_iff (cs : List Call) :
    (driver.after cs).dev.vars.stream = 1 ↔ (serves.flagsOf (driver.after cs)).stream = true := by
  rw [stream_eq]
  split <;> simp [*]

/-- A call that is no directive keeps the mode. -/
theorem stream_keep {cs : List Call} {c : Call}
    (h : directive (Run.stepOf driver.step (driver.after cs) c) = none) :
    (driver.after (cs ++ [c])).dev.vars.stream = (driver.after cs).dev.vars.stream := by
  have hf := congrArg Mode.Flags.stream (serves.flags_step (keeps_sound.after cs) c)
  rw [Spec.Mode.stream_step (act_ne_toggle _ c), act_directive, h] at hf
  have hp : driver.after (cs ++ [c]) = (driver.step (driver.after cs) c).1 := Run.after_snoc _ _ _
  rw [stream_eq, stream_eq, hp, hf]
  rfl

theorem stream_after (cs : List Call) :
    (driver.after cs).dev.vars.stream = 1 ↔ (directives cs).getLast? = some true := by
  rw [stream_eq_one_iff, serves.flags_after, Spec.Mode.stream_after {} (acts_ne_toggle cs),
    acts_directives]
  cases (directives cs).getLast? <;> simp

/-- Every run: the mode is what the latest directive asked for, and no other
call changes it. -/
theorem orion_mode (cs : List Call) :
    ((driver.after cs).dev.vars.stream = 1 ↔ (directives cs).getLast? = some true) ∧
      ∀ t ∈ driver.steps cs, directive t = none →
        t.post.dev.vars.stream = t.pre.dev.vars.stream := by
  refine ⟨stream_after cs, fun t ht hd => ?_⟩
  obtain ⟨js, c, ks, -, rfl⟩ := Run.mem_steps.mp ht
  have hp : driver.after (js ++ [c]) = (driver.step (driver.after js) c).1 := Run.after_snoc _ _ _
  show (driver.step (driver.after js) c).1.dev.vars.stream = _
  rw [← hp, stream_keep hd]
  rfl

/-! ## Stream mode has no end -/

theorem endless_after (cs : List Call) : (serves.flagsOf (driver.after cs)).Endless := by
  rw [serves.flags_after]
  exact Run.inv_after (I := Mode.Flags.Endless) (P := (· ≠ .toggle))
    (fun _ _ h ha => Spec.Mode.endless_step h ha) (fun h => by cases h) (acts_ne_toggle cs)

/-- After a directive `'1'`, with no directive `'0'` since, the mode is on. -/
theorem stream_of_directive {l m : List Bool} (hm : false ∉ m) :
    (l ++ true :: m).getLast? = some true := by
  rw [List.getLast?_append_of_ne_nil _ (List.cons_ne_nil _ _)]
  rcases List.eq_nil_or_concat m with rfl | ⟨m, b, rfl⟩
  · rfl
  · rw [List.concat_eq_append] at hm ⊢
    cases b with
    | true => rw [← List.cons_append, List.getLast?_concat]
    | false => simp at hm

/-- Every run: in stream mode no end of file is pending; and from a directive
`'1'` until a directive `'0'`, a read of at least one byte is given the message,
or its first `len` bytes, unless it fails. -/
theorem orion_endless (cs : List Call) :
    ((driver.after cs).dev.vars.stream = 1 → (driver.after cs).dev.vars.exitFlag = 0) ∧
      ∀ l t m, driver.steps cs = l ++ t :: m → directive t = some true →
        (∀ u ∈ m, directive u ≠ some false) →
        ∀ k ∈ (driver.after cs).opens, ∀ at? buf len, 1 ≤ len →
          ∀ e, (driver.step (driver.after cs) (.read k at? buf len)).2 = e →
            (e.ret = (min len message.length : Nat) ∧ 0 < e.ret ∧
              e.out.user = message.take (min len message.length)) ∨
              buf.missed ≠ 0 ∧ e.ret = -EFAULT := by
  have hE := endless_after cs
  refine ⟨fun h => ?_, fun l t m hs ht hm k hk at? buf len hl e he => ?_⟩
  · have := hE ((stream_eq_one_iff cs).mp h)
    simpa [Serves.flagsOf, serves, flags] using this
  · have hd : directives cs = l.filterMap directive ++ true :: m.filterMap directive := by
      rw [directives, hs, List.filterMap_append, List.filterMap_cons_some ht]
    have hon : (serves.flagsOf (driver.after cs)).stream = true := by
      rw [← stream_eq_one_iff, stream_after, hd]
      refine stream_of_directive fun hf => ?_
      obtain ⟨u, hu, e⟩ := List.mem_filterMap.mp hf
      exact hm u hu e
    have ha := serves.reply_of_flags cs hk at? buf len
    rw [Spec.Mode.reply_of_endless hE hon, he] at ha
    have hpos : 0 < min len message.length := lt_min hl (by decide)
    split at ha
    · rename_i hf
      have hf : min buf.missed (min len message.length) ≠ 0 := of_decide_eq_true hf
      exact .inr ⟨fun h0 => hf (by rw [h0, Nat.zero_min]), ha⟩
    · exact .inl ⟨ha.1, by rw [ha.1]; exact_mod_cast hpos, ha.2⟩

theorem orion_endless_after_eof :
    (driver.step (driver.after [.opn 0, .read 0 none {} 99, .write 0 none ⟨[0x31], 0, []⟩])
      (.read 0 none {} 7)).2.ret = 7 := by
  rcases (orion_endless [.opn 0, .read 0 none {} 99, .write 0 none ⟨[0x31], 0, []⟩]).2
    (driver.steps [.opn 0, .read 0 none {} 99]) _ [] rfl (by decide) (by simp) 0 (by decide)
    none {} 7 (by decide) _ rfl with h | h
  · exact h.1
  · exact absurd rfl h.1

end SO.Proof.Orion
