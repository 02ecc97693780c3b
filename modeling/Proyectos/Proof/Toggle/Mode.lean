import Proyectos.Proof.Toggle.Calls
import Proyectos.Proof.Serves

/-!
# `luffy`, `madre` and `chaleco`: stream mode

The three serve their message as the device of `Proyectos.Spec.Mode` does, with
a write as its toggle (`serves`). A toggle leaves the end of file pending, so a
read in stream mode is given the message just if the latest reads that were
valid and found the mode off are even in number (`streamReads_iff`).
-/

namespace SO.Proof.Toggle

open SO.Impl.Toggle
open SO.Spec (Mode.Flags Mode.Act)

/-! ## The device the drivers are -/

/-- The flags of the device. -/
def flags (v : Vars) : Mode.Flags := ⟨decide (v.stream ≠ 0), decide (v.exit ≠ 0)⟩

/-- `kernel_buffer` holds its message. -/
def Holds (x : Texts) (v : Dev Vars) : Prop := v.kernelBuffer = .ofBytes x.message

theorem strlen_message {x : Texts} {v : Dev Vars} (h : Holds x v) :
    v.kernelBuffer.strlen = x.message.length := by
  rw [h]; exact Buf.strlen_ofBytes x.message_noNul x.message_le

theorem take_message {x : Texts} {v : Dev Vars} (h : Holds x v) :
    v.kernelBuffer.bytes.take x.message.length = x.message := by
  rw [h, Buf.take_bytes_ofBytes x.message_le le_rfl, List.take_length]

/-- The message's length is an `int`. -/
theorem int32_message (x : Texts) : int32 (x.message.length : Int) = x.message.length :=
  int32_count x.message_le

theorem flags_armed (v : Vars) : flags (armed v) = { flags v with eof := !(flags v).stream } := by
  by_cases hs : v.stream = 0 <;> simp [flags, armed, hs]

theorem flags_toggled (v : Vars) :
    flags (toggled v) = { flags v with stream := !(flags v).stream } := by
  by_cases hs : v.stream = 0 <;> simp [flags, toggled, hs]

/-- A read is the device's. -/
theorem toggleRead_serves {x : Texts} (v : Dev Vars) (buf : UserDst) (len : Nat) (off : Int)
    (h : Holds x v) :
    ReadsAs flags x.message x.message.length ((toggleRead x buf len off).run { dev := v })
      (Spec.Mode.step false (flags v.vars)
        (.read (decide (min buf.missed x.message.length ≠ 0)))) := by
  have hn := strlen_message h
  by_cases he : v.vars.exit = 0
  · have hv : (flags v.vars).eof = false := decide_eq_false (not_not.mpr he)
    by_cases hf : min buf.missed x.message.length = 0
    · rw [toggleRead_ok x v buf len off he hn hf, decide_eq_false (not_not.mpr hf),
        Spec.Mode.step_message hv, int32_message, take_message h]
      exact ⟨flags_armed v.vars, rfl, List.take_length.symm⟩
    · rw [toggleRead_fault x v buf len off he hn hf, decide_eq_true hf, Spec.Mode.step_fault hv]
      refine ⟨?_, rfl⟩
      show flags v.vars = { flags v.vars with eof := false }
      rw [← hv]
  · rw [toggleRead_eof x v buf len off he, Spec.Mode.step_eof (decide_eq_true he)]
    exact ⟨rfl, rfl, rfl⟩

/-- A read changes the flag only. -/
theorem toggleRead_dev (x : Texts) (v : Dev Vars) (buf : UserDst) (len : Nat) (off : Int) :
    ∃ e, ((toggleRead x buf len off).run { dev := v }).2.dev =
      { v with vars := { v.vars with exit := e } } := by
  by_cases h : v.vars.exit = 0
  · by_cases hf : min buf.missed v.kernelBuffer.strlen = 0
    · rw [toggleRead_ok x v buf len off h rfl hf]; exact ⟨_, rfl⟩
    · rw [toggleRead_fault x v buf len off h rfl hf]; exact ⟨_, rfl⟩
  · rw [toggleRead_eof x v buf len off h]; exact ⟨_, rfl⟩

/-- A write toggles the mode, and changes nothing else but `write_buffer`. -/
theorem toggleWrite_dev (x : Texts) (v : Dev Vars) (buf : UserSrc) (len : Nat) (off : Int) :
    ∃ b, ((toggleWrite x buf len off).run { dev := v }).2.dev =
      { v with vars := toggled v.vars, writeBuffer := b } := by
  by_cases h : off ≥ BUFFER_SIZE
  · rw [toggleWrite_far x v buf len off h]; exact ⟨_, rfl⟩
  · generalize hn :
      (if sizeT (len + off) > BUFFER_SIZE then sizeT (BUFFER_SIZE - off) else len) = n
    by_cases hf : min buf.missed n = 0
    · rw [toggleWrite_ok x v buf len off h hn hf rfl]; exact ⟨_, rfl⟩
    · rw [toggleWrite_fault x v buf len off h hn hf]; exact ⟨_, rfl⟩

theorem keeps_holds (x : Texts) : (driver x).Keeps (Holds x) where
  init := rfl
  opn v h := by
    show Holds x ((toggleOpen x).run { dev := v }).2.dev
    rw [toggleOpen_run]; exact h
  release v h := by
    show Holds x ((toggleClose x).run { dev := v }).2.dev
    rw [toggleClose_run]; exact h
  read v buf len off h := by
    obtain ⟨e, he⟩ := toggleRead_dev x v buf len off
    show Holds x ((toggleRead x buf len off).run { dev := v }).2.dev
    rw [he]; exact h
  write v buf off h := by
    obtain ⟨b, hb⟩ := toggleWrite_dev x v buf buf.bytes.length off
    show Holds x ((toggleWrite x buf buf.bytes.length off).run { dev := v }).2.dev
    rw [hb]; exact h

theorem driver_opens (x : Texts) : (driver x).Opens := fun v => by
  show ((toggleOpen x).run { dev := v }).1 = 0
  rw [toggleOpen_run]

/-- The drivers serve their message as the device does; every write that
reaches them is its toggle. -/
def serves (x : Texts) : Serves (driver x) where
  msg := x.message
  msg_pos := x.message_pos
  keep := false
  flags := flags
  size _ := x.message.length
  size_of_le _ _ := rfl
  writeAct _ := .toggle
  opens := driver_opens x
  inv := Holds x
  keeps := keeps_holds x
  kernel h := h
  init := rfl
  opn v := by
    show flags ((toggleOpen x).run { dev := v }).2.dev.vars = _
    rw [toggleOpen_run]; rfl
  release v := by
    show flags ((toggleClose x).run { dev := v }).2.dev.vars = _
    rw [toggleClose_run]
  read := toggleRead_serves
  write v buf off := by
    obtain ⟨b, hb⟩ := toggleWrite_dev x v buf buf.bytes.length off
    show flags ((toggleWrite x buf buf.bytes.length off).run { dev := v }).2.dev.vars = _
    rw [hb]; exact flags_toggled v.vars

/-! ## Reads in stream mode -/

/-- A read that reached the driver in stream mode. -/
def StreamRead (t : Step (Sys Vars) Call Event) : Prop :=
  (Driver.reader t).isSome = true ∧ t.pre.dev.vars.stream = 1

instance (t : Step (Sys Vars) Call Event) : Decidable (StreamRead t) :=
  inferInstanceAs (Decidable (_ ∧ _))

/-- Every read in stream mode is given the message, or fails. -/
def StreamReads (d : Driver Vars) (msg : List UInt8) (cs : List Call) : Prop :=
  ∀ t ∈ d.steps cs, StreamRead t →
    (t.out.ret = msg.length ∧ t.out.out.user = msg) ∨ t.out.ret = -EFAULT

/-- Whether a read was valid and found the mode off; nothing, for another call. -/
def endsAt (t : Step (Sys Vars) Call Event) : Option Bool :=
  match t.inp with
  | .read k _ buf _ =>
    if k ∈ t.pre.opens then some (decide (buf.missed = 0) && decide (t.pre.dev.vars.stream = 0))
    else none
  | _ => none

/-- How many of the latest reads were valid and found the mode off. -/
def ended (ts : List (Step (Sys Vars) Call Event)) : Nat :=
  ((ts.filterMap endsAt).reverse.takeWhile id).length

/-- Before each read in stream mode, the latest reads that were valid and found
the mode off are even in number. -/
def EvenEnds (d : Driver Vars) (cs : List Call) : Prop :=
  ∀ l t r, d.steps cs = l ++ t :: r → StreamRead t → Even (ended l)

variable (x : Texts)

theorem act_ends (s : Sys Vars) (c : Call) :
    Spec.Mode.ends ((serves x).flagsOf s) ((serves x).act s c) =
      endsAt (Run.stepOf (driver x).step s c) := by
  have hm := x.message_pos
  cases c with
  | opn k | close k => rfl
  | read k at? buf len =>
    by_cases hk : k ∈ s.opens
    · have hf : (!decide (min buf.missed x.message.length ≠ 0)) = decide (buf.missed = 0) := by
        rw [← decide_not, decide_eq_decide]
        omega
      simp only [Serves.act, endsAt, Run.stepOf, if_pos hk, Spec.Mode.ends]
      show some ((!decide (min buf.missed x.message.length ≠ 0)) && !decide (s.dev.vars.stream ≠ 0)) = _
      rw [hf, ← decide_not]
      simp only [ne_eq, not_not]
      exact (if_pos hk).symm
    · simp [Serves.act, endsAt, Run.stepOf, hk, Spec.Mode.ends]
  | write k at? buf =>
    show Spec.Mode.ends _ (if k ∈ s.opens then Mode.Act.toggle else .idle) = none
    split <;> rfl

theorem act_directive (s : Sys Vars) (c : Call) : ((serves x).act s c).directive = none := by
  cases c with
  | opn k | close k => rfl
  | read k at? buf len =>
    show Mode.Act.directive (if k ∈ s.opens then _ else _) = none
    split <;> rfl
  | write k at? buf =>
    show Mode.Act.directive (if k ∈ s.opens then .toggle else .idle) = none
    split <;> rfl

/-- The end of file is pending just if the latest valid reads outside stream
mode are odd in number. -/
theorem eof_after (cs : List Call) :
    ((serves x).flagsOf ((driver x).after cs)).eof = true ↔ Odd (ended ((driver x).steps cs)) := by
  have ha : ∀ a ∈ (serves x).acts cs, a.directive = none := by
    intro a ha
    obtain ⟨t, -, rfl⟩ := List.mem_map.mp ha
    exact act_directive x _ _
  have he : Spec.Mode.ended (Run.steps (Spec.Mode.step false) {} ((serves x).acts cs)) =
      ended ((driver x).steps cs) := by
    rw [show Run.steps (Spec.Mode.step false) {} ((serves x).acts cs) = _ from
      (serves x).steps_flags cs, Spec.Mode.ended, ended, List.filterMap_map]
    congr 3
    refine List.filterMap_congr fun t ht => ?_
    obtain ⟨js, c, ks, -, rfl⟩ := Run.mem_steps.mp ht
    exact act_ends x _ c
  rw [← he, (serves x).flags_after]
  exact Spec.Mode.eof_after ha

/-- A read in stream mode is given the message or fails just if no end of file
is pending. -/
theorem streamRead_iff {cs : List Call} {c : Call}
    (h : StreamRead (Run.stepOf (driver x).step ((driver x).after cs) c)) :
    (((driver x).step ((driver x).after cs) c).2.ret = x.message.length ∧
        ((driver x).step ((driver x).after cs) c).2.out.user = x.message) ∨
        ((driver x).step ((driver x).after cs) c).2.ret = -EFAULT ↔
      ((serves x).flagsOf ((driver x).after cs)).eof = false := by
  have hm := x.message_pos
  cases c with
  | opn k | close k | write k at? buf => cases h.1
  | read k at? buf len =>
    have hk : k ∈ ((driver x).after cs).opens := by
      by_contra hk
      simp [StreamRead, Driver.reader, Run.stepOf, hk] at h
    have ha := (serves x).reply_of_flags cs hk at? buf len
    generalize ((driver x).step ((driver x).after cs) (.read k at? buf len)).2 = e at ha
    cases hf : ((serves x).flagsOf ((driver x).after cs)).eof with
    | true =>
      rw [Spec.Mode.step_eof hf] at ha
      rw [ha.1]
      refine iff_of_false ?_ (by simp)
      rintro (⟨h0, -⟩ | h0)
      · omega
      · cases h0
    | false =>
      refine iff_of_true ?_ rfl
      cases hd : decide (min buf.missed ((serves x).size len) ≠ 0) with
      | true =>
        rw [hd, Spec.Mode.step_fault hf] at ha
        exact .inr ha
      | false =>
        rw [hd, Spec.Mode.step_message hf] at ha
        exact .inl ⟨ha.1, ha.2.trans List.take_length⟩

/-- Reads in stream mode are given the message, or fail, just if before each of
them the latest valid reads outside stream mode are even in number. -/
theorem streamReads_iff (cs : List Call) :
    StreamReads (driver x) x.message cs ↔ EvenEnds (driver x) cs := by
  refine Run.forall_mem_steps_iff (B := fun l t => StreamRead t → Even (ended l)) fun js c ks _ => ?_
  refine forall_congr' fun ht => ?_
  rw [← Nat.not_odd_iff_even, ← eof_after, Bool.not_eq_true]
  exact streamRead_iff x ht

/-- The three drivers, every run. -/
theorem stream_reads_iff (cs : List Call) :
    (StreamReads luffy luffyTexts.message cs ↔ EvenEnds luffy cs) ∧
      (StreamReads madre madreTexts.message cs ↔ EvenEnds madre cs) ∧
      (StreamReads chaleco chalecoTexts.message cs ↔ EvenEnds chaleco cs) :=
  ⟨streamReads_iff luffyTexts cs, streamReads_iff madreTexts cs, streamReads_iff chalecoTexts cs⟩

/-- A read, a write that turns the mode on, and a read. -/
theorem stream_read_eof : ¬ ∀ cs, StreamReads luffy luffyTexts.message cs := by
  intro h
  have he := (streamReads_iff luffyTexts _).mp
    (h [.opn 0, .read 0 none {} 99, .write 0 none ⟨[0x31], 0, []⟩, .read 0 none {} 99])
    (luffy.steps [.opn 0, .read 0 none {} 99, .write 0 none ⟨[0x31], 0, []⟩]) _ [] rfl
    (by decide +kernel)
  revert he
  decide

end SO.Proof.Toggle
