import Proyectos.Proof.Toggle.Mode

/-!
# `luffy`, `madre` and `chaleco`: the end of file and the mode, from the calls

The two flags of a driver, told by the calls made so far: `exit` is set just if
the latest read on the device was given the message while the mode was off
(`exit_after`), and the mode is the parity of the writes (`stream_after`). So a read is
told the end of file just if the read before it was given the message while the
mode was off, whatever was called in between (`eof_and_mode`).
-/

namespace SO.Proof.Toggle

open SO.Impl.Toggle

/-- The reads of a transcript that reached the driver. -/
def reads (ts : List (Step (Sys Vars) Call Event)) : List (Step (Sys Vars) Call Event) :=
  ts.filter fun t => (Driver.reader t).isSome

/-- The step is a write that reached the driver. -/
def isWrite (t : Step (Sys Vars) Call Event) : Bool :=
  match t.inp with
  | .write k _ _ => decide (k ∈ t.pre.opens)
  | _ => false

/-- The call was given the message, at a moment when the mode was off. -/
def Marks (x : Texts) (t : Step (Sys Vars) Call Event) : Prop :=
  t.out.ret = x.message.length ∧ t.out.out.user = x.message ∧ t.pre.dev.vars.stream = 0

/-- There has been a read, and the latest one was given the message at a moment
when the mode was off. -/
def Marked (x : Texts) (ts : List (Step (Sys Vars) Call Event)) : Prop :=
  ∃ u ∈ (reads ts).getLast?, Marks x u

/-- Each read returns 0 just if the calls before it have left the end of file
marked. -/
def EofAsMarked (x : Texts) (d : Driver Vars) (cs : List Call) : Prop :=
  ∀ l t r, d.steps cs = l ++ t :: r → (Driver.reader t).isSome = true →
    (t.out.ret = 0 ↔ Marked x l)

/-- The mode is on just if the writes so far are odd in number. -/
def ModeIsParity (d : Driver Vars) (cs : List Call) : Prop :=
  (d.after cs).dev.vars.stream = 1 ↔ Odd ((d.steps cs).countP isWrite)

variable (x : Texts)

/-! ## The mode -/

/-- Only writes change the mode. -/
theorem frames_stream (m : Int) : (driver x).Frames fun v => v.vars.stream = m where
  opn v h := by
    show ((toggleOpen x).run { dev := v }).2.dev.vars.stream = m
    rw [toggleOpen_run]; exact h
  release v h := by
    show ((toggleClose x).run { dev := v }).2.dev.vars.stream = m
    rw [toggleClose_run]; exact h
  read v buf len off h := by
    obtain ⟨e, he⟩ := toggleRead_dev x v buf len off
    show ((toggleRead x buf len off).run { dev := v }).2.dev.vars.stream = m
    rw [he]; exact h

theorem stream_step (s : Sys Vars) (c : Call) : ((driver x).step s c).1.dev.vars.stream =
    if isWrite (Run.stepOf (driver x).step s c) then (toggled s.dev.vars).stream
    else s.dev.vars.stream := by
  by_cases hw : isWrite (Run.stepOf (driver x).step s c) = true
  · rw [if_pos hw]
    cases c with
    | opn k | close k | read k at? buf len => cases hw
    | write k at? buf =>
      have hk : k ∈ s.opens := of_decide_eq_true hw
      obtain ⟨b, hb⟩ := toggleWrite_dev x s.dev buf buf.bytes.length (s.offset k at?)
      rw [Driver.step_write hk rfl]
      show ((toggleWrite x buf _ _).run { dev := s.dev }).2.dev.vars.stream = _
      rw [hb]
  · rw [if_neg hw]
    refine (frames_stream x s.dev.vars.stream).step rfl fun k at? buf e hk => ?_
    subst e
    exact absurd (decide_eq_true hk) hw

/-- The mode is the parity of the writes. -/
theorem stream_after (cs : List Call) : ((driver x).after cs).dev.vars.stream =
    if Odd (((driver x).steps cs).countP isWrite) then 1 else 0 := by
  induction cs using List.reverseRecOn with
  | nil => rfl
  | append_singleton cs c ih =>
    rw [Driver.after, Run.after_snoc, stream_step, Driver.steps, Run.steps_snoc, List.countP_append,
      List.countP_singleton]
    by_cases hw : isWrite (Run.stepOf (driver x).step ((driver x).after cs) c) = true
    · rw [if_pos hw, if_pos hw]
      show (if ((driver x).after cs).dev.vars.stream = 0 then (1 : Int) else 0) = _
      rw [ih]
      by_cases ho : Odd (((driver x).steps cs).countP isWrite) <;> simp [ho, Nat.odd_add_one]
    · rw [if_neg hw, if_neg hw, ih, Nat.add_zero]

/-! ## The end of file -/

variable {x}

/-- A read leaves the end of file marked just if it was given the message while the
mode was off. -/
theorem toggleRead_marks {v : Dev Vars} (hv : Holds x v) (buf : UserDst) (len : Nat) (off : Int)
    {r : (Int × Int) × CallSt Vars} (hr : (toggleRead x buf len off).run { dev := v } = r) :
    r.2.dev.vars.exit ≠ 0 ↔
      r.1.1 = x.message.length ∧ r.2.out.user = x.message ∧ v.vars.stream = 0 := by
  have hn := strlen_message hv
  have hpos := x.message_pos
  subst hr
  by_cases h : v.vars.exit = 0
  · by_cases hf : min buf.missed x.message.length = 0
    · rw [toggleRead_ok x v buf len off h hn hf, int32_message, take_message hv]
      simp only [armed, true_and]
      split <;> simp [*]
    · rw [toggleRead_fault x v buf len off h hn hf]
      refine iff_of_false (not_not.mpr h) fun hc => ?_
      have h0 : (-EFAULT : Int) = x.message.length := hc.1
      simp only [EFAULT] at h0
      omega
  · rw [toggleRead_eof x v buf len off h]
    refine iff_of_false (not_not.mpr rfl) fun hc => ?_
    have h0 : (0 : Int) = x.message.length := hc.1
    omega

/-- A read returns 0 just if it finds the end of file marked. -/
theorem toggleRead_zero {v : Dev Vars} (hv : Holds x v) (buf : UserDst) (len : Nat) (off : Int) :
    ((toggleRead x buf len off).run { dev := v }).1.1 = 0 ↔ v.vars.exit ≠ 0 := by
  have hn := strlen_message hv
  have hpos := x.message_pos
  by_cases h : v.vars.exit = 0
  · refine iff_of_false ?_ (not_not.mpr h)
    by_cases hf : min buf.missed x.message.length = 0
    · rw [toggleRead_ok x v buf len off h hn hf, int32_message]
      show ¬ (x.message.length : Int) = 0
      omega
    · rw [toggleRead_fault x v buf len off h hn hf]
      show ¬ (-EFAULT : Int) = 0
      decide
  · rw [toggleRead_eof x v buf len off h]
    exact iff_of_true rfl h

/-- Only reads change what is marked. -/
theorem exit_step {s : Sys Vars} (hs : Holds x s.dev) {c : Call}
    (hc : Driver.reader (Run.stepOf (driver x).step s c) = none) :
    ((driver x).step s c).1.dev.vars.exit ≠ 0 ↔ s.dev.vars.exit ≠ 0 := by
  have hf := congrArg Spec.Mode.Flags.eof ((serves x).flags_step hs c)
  have ha : (Spec.Mode.step (serves x).keep ((serves x).flagsOf s) ((serves x).act s c)).1.eof =
      ((serves x).flagsOf s).eof := by
    cases c with
    | opn k | close k => rfl
    | read k at? buf len =>
      have hk : k ∉ s.opens := fun hk => by simp [Driver.reader, Run.stepOf, hk] at hc
      rw [Serves.act, if_neg hk]
      rfl
    | write k at? buf =>
      rw [Serves.act]
      split <;> rfl
  rw [ha] at hf
  exact decide_eq_decide.mp hf

theorem reads_snoc (ts : List (Step (Sys Vars) Call Event)) (t : Step (Sys Vars) Call Event) :
    reads (ts ++ [t]) = reads ts ++ if (Driver.reader t).isSome then [t] else [] := by
  rw [reads, List.filter_append, List.filter_singleton, Bool.cond_eq_ite]
  rfl

/-- The end of file is marked just as the latest read says. -/
theorem exit_after (cs : List Call) :
    ((driver x).after cs).dev.vars.exit ≠ 0 ↔ Marked x ((driver x).steps cs) := by
  induction cs using List.reverseRecOn with
  | nil => exact iff_of_false (not_not.mpr rfl) fun ⟨u, hu, _⟩ => by cases hu
  | append_singleton cs c ih =>
    have hs := (keeps_holds x).after cs
    rw [Driver.after, Run.after_snoc, Driver.steps, Run.steps_snoc, Marked, reads_snoc]
    cases hr : Driver.reader (Run.stepOf (driver x).step ((driver x).after cs) c) with
    | none =>
      rw [exit_step hs hr, ih]
      simp [Marked]
    | some m =>
      cases c with
      | opn k | close k | write k at? buf => cases hr
      | read k at? buf len =>
        have hk : k ∈ ((driver x).after cs).opens := by
          by_contra hk
          simp [Driver.reader, Run.stepOf, hk] at hr
        have hm := toggleRead_marks hs buf len (((driver x).after cs).offset k at?) rfl
        simp only [Option.isSome_some, if_true, List.getLast?_concat, Option.mem_some_iff,
          exists_eq_left', Marks, Run.stepOf]
        rw [Driver.step_read hk rfl]
        exact hm

theorem eof_as_marked (x : Texts) (cs : List Call) : EofAsMarked x (driver x) cs := by
  intro l t r e ht
  obtain ⟨js, c, ks, -, rfl, rfl, -⟩ := Run.steps_eq_append.mp e
  rw [← exit_after]
  cases c with
  | opn k | close k | write k at? buf => cases ht
  | read k at? buf len =>
    have hk : k ∈ ((driver x).after js).opens := by
      by_contra hk
      simp [Driver.reader, Run.stepOf, hk] at ht
    rw [Run.stepOf, Driver.step_read hk rfl]
    exact toggleRead_zero ((keeps_holds x).after js) buf len _

theorem mode_is_parity (x : Texts) (cs : List Call) : ModeIsParity (driver x) cs := by
  rw [ModeIsParity, stream_after]
  split <;> simp [*]

/-- The three drivers, every run: a read returns 0 just if there has been a read before
it and the latest one was given the message while the mode was off; and the
mode is on just if the writes so far are odd in number. -/
theorem eof_and_mode (cs : List Call) :
    (EofAsMarked luffyTexts luffy cs ∧ ModeIsParity luffy cs) ∧
      (EofAsMarked madreTexts madre cs ∧ ModeIsParity madre cs) ∧
      (EofAsMarked chalecoTexts chaleco cs ∧ ModeIsParity chaleco cs) :=
  ⟨⟨eof_as_marked luffyTexts cs, mode_is_parity luffyTexts cs⟩,
    ⟨eof_as_marked madreTexts cs, mode_is_parity madreTexts cs⟩,
    ⟨eof_as_marked chalecoTexts cs, mode_is_parity chalecoTexts cs⟩⟩

end SO.Proof.Toggle
