import Proyectos.Proof.Sessions
import Proyectos.Spec.Mode
import Proyectos.Spec.Shared

/-!
# Drivers that serve one message

`Serves d` says that the driver `d` does to its two flags what the device of
`Proyectos.Spec.Mode` does, and answers reads as that device does. From it,
once for every such driver:

* `flags_after`, `steps_flags`: a run of the driver is, through `flags` and
  `act`, a run of the device;
* `reply_of_flags`: what a read is answered;
* `isolated_iff`: with stream mode off and valid buffers, when the sessions are
  answered as if each were alone.
-/

namespace SO.Proof

open Spec (Mode.Flags Mode.Act Mode.Reply)

/-- The value returned and the bytes delivered for a reply of the device, to a
read that asks for `n` bytes of `msg`. -/
def Answers (msg : List UInt8) (n : Nat) (ret : Int) (user : List UInt8) : Mode.Reply → Prop
  | .message => ret = n ∧ user = msg.take n
  | .fault => ret = -EFAULT
  | .eof => ret = 0 ∧ user = []
  | .none => False

/-- What a driver's read returns, `r`, is what the device's does, `t`. -/
def ReadsAs {σ : Type} (flags : σ → Mode.Flags) (msg : List UInt8) (n : Nat)
    (r : (Int × Int) × CallSt σ) (t : Mode.Flags × Mode.Reply) : Prop :=
  flags r.2.dev.vars = t.1 ∧ Answers msg n r.1.1 r.2.out.user t.2

/-- The driver's flags and reads are those of the device. -/
structure Serves {σ : Type} (d : Driver σ) where
  msg : List UInt8
  msg_pos : 0 < msg.length
  keep : Bool
  flags : σ → Mode.Flags
  /-- The bytes of the message a read of `len` bytes is given. -/
  size : Nat → Nat
  size_of_le : ∀ len, msg.length ≤ len → size len = msg.length
  /-- What a write does to the device. -/
  writeAct : UserSrc → Mode.Act
  opens : d.Opens
  inv : Dev σ → Prop
  keeps : d.Keeps inv
  kernel : ∀ {v}, inv v → v.kernelBuffer = .ofBytes msg
  init : flags d.init.vars = {}
  opn : ∀ v, flags (d.opn.run { dev := v }).2.dev.vars = flags v.vars
  release : ∀ v, flags (d.release.run { dev := v }).2.dev.vars = flags v.vars
  read : ∀ v buf len off, v.kernelBuffer = .ofBytes msg →
    ReadsAs flags msg (size len) ((d.read buf len off).run { dev := v })
      (Spec.Mode.step keep (flags v.vars) (.read (decide (min buf.missed (size len) ≠ 0))))
  write : ∀ v buf off, flags ((d.write buf buf.bytes.length off).run { dev := v }).2.dev.vars =
    (Spec.Mode.step keep (flags v.vars) (writeAct buf)).1

namespace Serves

variable {σ : Type} {d : Driver σ} (S : Serves d)

/-- The device's act for a call made in state `s`. -/
def act (s : Sys σ) : Call → Mode.Act
  | .read k _ buf len =>
    if k ∈ s.opens then .read (decide (min buf.missed (S.size len) ≠ 0)) else .idle
  | .write k _ buf => if k ∈ s.opens then S.writeAct buf else .idle
  | _ => .idle

/-- The device's flags. -/
def flagsOf (s : Sys σ) : Mode.Flags := S.flags s.dev.vars

theorem flags_step {s : Sys σ} (hs : S.inv s.dev) (c : Call) :
    S.flagsOf (d.step s c).1 = (Spec.Mode.step S.keep (S.flagsOf s) (S.act s c)).1 := by
  have ho := d.step_outcome s c
  generalize d.step s c = r at ho
  cases ho with
  | @refused c h =>
    cases c with
    | opn k | close k => rfl
    | read k at? buf len | write k at? buf => rw [act, if_neg h]; rfl
  | opn _ hr | notOpened _ hr => rw [← hr]; exact S.opn s.dev
  | close _ hr => rw [← hr]; exact S.release s.dev
  | read hk hr => rw [← hr, act, if_pos hk]; exact (S.read s.dev _ _ _ (S.kernel hs)).1
  | write hk hr => rw [← hr, act, if_pos hk]; exact S.write s.dev _ _

/-- The device's acts along a run. -/
def acts (cs : List Call) : List Mode.Act := Run.acts S.act (d.steps cs)

/-- A run of the driver is a run of the device. -/
theorem flags_after (cs : List Call) :
    S.flagsOf (d.after cs) = Run.after (Spec.Mode.step S.keep) {} (S.acts cs) := by
  rw [show ({} : Mode.Flags) = S.flagsOf d.boot from S.init.symm]
  exact Run.after_of_abs (I := fun s => S.inv s.dev) (P := fun _ => True)
    (fun _ c hs _ => S.keeps.step hs c) (fun _ c hs _ => S.flags_step hs c) S.keeps.init
    fun _ _ => trivial

/-- The device's transcript is the driver's, step by step. -/
theorem steps_flags (cs : List Call) : Run.steps (Spec.Mode.step S.keep) {} (S.acts cs) =
    (d.steps cs).map fun t =>
      Run.stepOf (Spec.Mode.step S.keep) (S.flagsOf t.pre) (S.act t.pre t.inp) := by
  rw [show ({} : Mode.Flags) = S.flagsOf d.boot from S.init.symm]
  exact Run.steps_abs (I := fun s => S.inv s.dev) (P := fun _ => True)
    (fun _ c hs _ => S.keeps.step hs c) (fun _ c hs _ => S.flags_step hs c) S.keeps.init
    fun _ _ => trivial

/-- A read that reaches the driver is answered as the device answers. -/
theorem reply_of_flags (cs : List Call) {k : Nat} (hk : k ∈ (d.after cs).opens) (at? : Option Int)
    (buf : UserDst) (len : Nat) :
    Answers S.msg (S.size len) (d.step (d.after cs) (.read k at? buf len)).2.ret
      (d.step (d.after cs) (.read k at? buf len)).2.out.user
      (Spec.Mode.step S.keep (S.flagsOf (d.after cs))
        (.read (decide (min buf.missed (S.size len) ≠ 0)))).2 := by
  rw [Driver.step_read hk rfl]
  exact (S.read _ buf len _ (S.kernel (S.keeps.after cs))).2

/-! ## Sessions that only read -/

/-- The calls of sessions that open, read with a valid buffer of at least `n`
bytes, and close. -/
def Quiet (n : Nat) : Call → Prop
  | .opn _ | .close _ => True
  | .read _ _ buf len => buf.missed = 0 ∧ n ≤ len
  | .write _ _ _ => False

/-- The `i`-th reply of a device with stream mode off: the whole message, then
the end of file, and so on. -/
def turn (msg : List UInt8) (i : Nat) : Int × List UInt8 := if Even i then (msg.length, msg) else (0, [])

/-- Every session is answered as if it were alone on a device just loaded, and
that is with the message and the end of file in turn. -/
def Isolated (d : Driver σ) (msg : List UInt8) (cs : List Call) : Prop :=
  ∀ k, d.replies k cs = d.replies k (Driver.own k cs) ∧
    d.replies k (Driver.own k cs) = Spec.Shared.alone (turn msg) (d.replies k cs).length

/-- Before each read, the reads the other sessions have made are even in
number. -/
def EvenBefore (ks : List Nat) : Prop := ∀ l k r, ks = l ++ k :: r → Even (l.countP (· ≠ k))

theorem evenBefore_iff (ks : List Nat) : EvenBefore ks ↔
    ∀ i (h : i < ks.length), Even ((ks.take i).countP (· ≠ ks[i])) := by
  constructor
  · intro h i hi
    refine h _ _ (ks.drop (i + 1)) ?_
    rw [List.getElem_cons_drop, List.take_append_drop]
  · rintro h l k r rfl
    have hl := h l.length (by simp)
    rwa [List.take_left, List.getElem_of_append rfl rfl] at hl

instance (ks : List Nat) : Decidable (EvenBefore ks) := decidable_of_iff' _ (evenBefore_iff ks)

theorem turn_eq_iff {msg : List UInt8} (h : 0 < msg.length) (i j : Nat) :
    turn msg i = turn msg j ↔ (Even i ↔ Even j) := by
  have hne : msg ≠ [] := List.ne_nil_of_length_pos h
  by_cases hi : Even i <;> by_cases hj : Even j <;> simp [turn, hi, hj, hne, hne.symm]

theorem act_of_reader {cs : List Call} {c : Call} (hc : Quiet S.msg.length c) :
    S.act (d.after cs) c =
      if (Driver.reader (Run.stepOf d.step (d.after cs) c)).isSome then .read false else .idle := by
  cases c with
  | opn k | close k => rfl
  | read k at? buf len =>
    by_cases hk : k ∈ (d.after cs).opens
    · simp [act, Driver.reader, Run.stepOf, hk, hc.1]
    · simp [act, Driver.reader, Run.stepOf, hk]
  | write k at? buf => exact hc.elim

/-- While sessions only read, the flag is the parity of the reads. -/
theorem flags_quiet {cs : List Call} (h : ∀ c ∈ cs, Quiet S.msg.length c) :
    S.flagsOf (d.after cs) = { stream := false, eof := decide (Odd (d.readers cs).length) } := by
  induction cs using List.reverseRecOn with
  | nil => exact S.init
  | append_singleton cs c ih =>
    have hc := h c (List.mem_append_right _ List.mem_cons_self)
    specialize ih fun c hc => h c (List.mem_append_left _ hc)
    rw [Driver.after, Run.after_snoc, S.flags_step (S.keeps.after cs), ih, S.act_of_reader hc,
      Driver.readers_snoc, List.length_append]
    cases Driver.reader (Run.stepOf d.step (d.after cs) c) with
    | none => simp [Spec.Mode.step]
    | some k =>
      by_cases ho : Odd (d.readers cs).length
      · simp [Spec.Mode.step, ho, Nat.odd_add_one]
      · simp [Spec.Mode.step, ho, Nat.odd_add_one]

/-- The answer to the next read. -/
theorem reply_quiet {cs : List Call} {c : Call} (h : ∀ c' ∈ cs ++ [c], Quiet S.msg.length c')
    {k : Nat} (hr : Driver.reader (Run.stepOf d.step (d.after cs) c) = some k) :
    ((d.step (d.after cs) c).2.ret, (d.step (d.after cs) c).2.out.user) =
      turn S.msg (d.readers cs).length := by
  have hc := h c (List.mem_append_right _ List.mem_cons_self)
  cases c with
  | opn m | close m | write m at? buf => cases hr
  | read m at? buf len =>
    have hk : m ∈ (d.after cs).opens := by
      by_contra hk
      simp [Driver.reader, Run.stepOf, hk] at hr
    have ha := S.reply_of_flags cs hk at? buf len
    rw [S.flags_quiet fun c hc => h c (List.mem_append_left _ hc), S.size_of_le len hc.2, hc.1] at ha
    by_cases ho : Odd (d.readers cs).length
    · rw [turn, if_neg (Nat.not_even_iff_odd.mpr ho)]
      simp only [Spec.Mode.step, ho, decide_true, if_true, Answers] at ha
      rw [ha.1, ha.2]
    · rw [turn, if_pos (Nat.not_odd_iff_even.mp ho)]
      simp only [Spec.Mode.step, ho, decide_false, Bool.false_eq_true, if_false, Nat.zero_min,
        ne_eq, not_true_eq_false, Answers, List.take_length] at ha
      rw [ha.1, ha.2]

theorem replies_quiet {cs : List Call} (h : ∀ c ∈ cs, Quiet S.msg.length c) (k : Nat) :
    d.replies k cs = Spec.Shared.answers (turn S.msg) (d.readers cs) k := by
  induction cs using List.reverseRecOn with
  | nil => rfl
  | append_singleton cs c ih =>
    rw [Driver.replies_snoc, Driver.readers_snoc, ih fun c hc => h c (List.mem_append_left _ hc)]
    cases hr : Driver.reader (Run.stepOf d.step (d.after cs) c) with
    | none => simp
    | some m =>
      rw [Option.toList_some, Spec.Shared.answers_snoc, S.reply_quiet h hr]
      simp only [Option.some.injEq]

/-- A session alone is given the message and the end of file in turn. -/
theorem replies_own {cs : List Call} (h : ∀ c ∈ cs, Quiet S.msg.length c) (k : Nat) :
    d.replies k (Driver.own k cs) = Spec.Shared.alone (turn S.msg) ((d.readers cs).count k) := by
  have ho : ∀ c ∈ Driver.own k cs, Quiet S.msg.length c := fun c hc => h c (List.mem_filter.mp hc).1
  rw [S.replies_quiet ho, Driver.readers_own S.opens, Spec.Shared.answers_filter]

/-- The sessions are answered as if each were alone just if the reads the
others have made before each read are even in number. -/
theorem isolated_iff {cs : List Call} (h : ∀ c ∈ cs, Quiet S.msg.length c) :
    Isolated d S.msg cs ↔ EvenBefore (d.readers cs) := by
  rw [EvenBefore, ← Spec.Shared.isolated_iff_even (turn_eq_iff S.msg_pos)]
  refine forall_congr' fun k => ?_
  rw [S.replies_own h, S.replies_quiet h, Spec.Shared.length_answers]
  exact and_iff_left rfl

end Serves

end SO.Proof
