import Proyectos.Proof.Orion.Mode

/-!
# `orion`: failed calls

A write that fails leaves the control state as it was, and `write_buffer` in a
state the next write does not show. A read that fails does not: outside stream
mode it has marked the end of file before its copy, so the same read with a
valid buffer is then told the end of file (`rolledBack_step`). So failed calls are
rolled back just if no such read fails (`rollback_iff`).
-/

namespace SO.Proof.Orion

open SO.Impl.Orion

/-- The control state. -/
def control (v : Vars) : Int × Int × Int := (v.stream, v.exitFlag, v.deviceOpenCount)

/-- The same call with a valid user buffer. -/
def retry : Call → Call
  | .read k at? _ len => .read k at? {} len
  | .write k at? buf => .write k at? { buf with missed := 0 }
  | c => c

/-- The call left the control state as it was, and the same call with a valid
buffer is answered as it would have been before. -/
def RolledBack (t : Step (Sys Vars) Call Event) : Prop :=
  control t.post.dev.vars = control t.pre.dev.vars ∧
    (driver.step t.post (retry t.inp)).2 = (driver.step t.pre (retry t.inp)).2

/-- The call is a read of at least one byte into an invalid buffer that finds
the mode off and no end of file marked. -/
def FailsMarked (t : Step (Sys Vars) Call Event) : Prop :=
  match t.inp with
  | .read k _ buf len => k ∈ t.pre.opens ∧ t.pre.dev.vars.exitFlag = 0 ∧
      t.pre.dev.vars.stream = 0 ∧ buf.missed ≠ 0 ∧ len ≠ 0
  | _ => False

/-! ## Writes -/

/-- What a write with a valid buffer returns and leaves behind does not depend
on `write_buffer`. -/
theorem orionWrite_event (v v' : Dev Vars) {buf : UserSrc} (hb : buf.missed = 0) (off : Int) :
    ∃ ret out, ((orionWrite buf buf.bytes.length off).run { dev := v }).1.1 = ret ∧
      ((orionWrite buf buf.bytes.length off).run { dev := v }).2.out = out ∧
      ((orionWrite buf buf.bytes.length off).run { dev := v' }).1.1 = ret ∧
      ((orionWrite buf buf.bytes.length off).run { dev := v' }).2.out = out := by
  generalize hn : min buf.bytes.length (BUFFER_SIZE - 1) = n
  have hf : min buf.missed n = 0 := by rw [hb, Nat.zero_min]
  rw [orionWrite_ok v buf _ off hn hf rfl, orionWrite_ok v' buf _ off hn hf rfl,
    logged_copied v.writeBuffer v'.writeBuffer hn hf]
  exact ⟨_, _, rfl, rfl, rfl, rfl⟩

theorem step_write_event {s s' : Sys Vars} (ho : s.opens = s'.opens) (hp : s.pos = s'.pos) (k : Nat)
    (at? : Option Int) {buf : UserSrc} (hb : buf.missed = 0) :
    (driver.step s (.write k at? buf)).2 = (driver.step s' (.write k at? buf)).2 := by
  have hoff : s'.offset k at? = s.offset k at? := by rw [Sys.offset, Sys.offset, hp]
  by_cases hk : k ∈ s.opens
  · obtain ⟨ret, out, hr, hu, hr', hu'⟩ := orionWrite_event s.dev s'.dev hb
      (s.offset k at?)
    rw [Driver.step_write hk rfl, Driver.step_write (ho ▸ hk) rfl, hoff]
    show Event.mk true ((orionWrite buf _ _).run _).1.1 ((orionWrite buf _ _).run _).2.out =
      Event.mk true ((orionWrite buf _ _).run _).1.1 ((orionWrite buf _ _).run _).2.out
    rw [hr, hu, hr', hu']
  · rw [Driver.step_write_of_closed hk, Driver.step_write_of_closed (ho ▸ hk)]

/-- A write that fails is rolled back. -/
theorem write_rolledBack {s : Sys Vars} {k : Nat} {at? : Option Int} {buf : UserSrc}
    (h : (driver.step s (.write k at? buf)).2.ret = -EFAULT) :
    RolledBack (Run.stepOf driver.step s (.write k at? buf)) := by
  have hk : k ∈ s.opens := by
    by_contra hk
    rw [Driver.step_write_of_closed hk] at h
    exact Event.badf_ret_ne h
  generalize hn : min buf.bytes.length (BUFFER_SIZE - 1) = n
  by_cases hf : min buf.missed n = 0
  · have hs := Driver.step_write (d := driver) hk
      (orionWrite_ok s.dev buf _ (s.offset k at?) hn hf rfl)
    rw [hs] at h
    have hne : ((n : Nat) : Int) ≠ -EFAULT := by simp only [EFAULT]; omega
    exact absurd h hne
  · have hs := Driver.step_write (d := driver) hk
      (orionWrite_fault s.dev buf _ (s.offset k at?) hn hf)
    refine ⟨?_, ?_⟩
    · show control (driver.step s (.write k at? buf)).1.dev.vars = control s.dev.vars
      rw [hs]; rfl
    · refine step_write_event ?_ ?_ k at? rfl
      · show (driver.step s (.write k at? buf)).1.opens = s.opens
        rw [hs]
      · show (driver.step s (.write k at? buf)).1.pos = s.pos
        rw [hs]
        exact s.newPos_fault k at? _

/-! ## Reads -/

/-- A read that fails is rolled back just if it did not mark the end of file. -/
theorem read_rolledBack {s : Sys Vars} (hs : Sound s.dev) (k : Nat) (at? : Option Int) (buf : UserDst)
    (len : Nat) :
    ((driver.step s (.read k at? buf len)).2.ret = -EFAULT →
        RolledBack (Run.stepOf driver.step s (.read k at? buf len))) ↔
      ¬ FailsMarked (Run.stepOf driver.step s (.read k at? buf len)) := by
  have hlen : message.length ≠ 0 := by decide
  have hn : min len s.dev.kernelBuffer.strlen = min len message.length := by
    rw [strlen_message hs.kernel]
  by_cases hk : k ∈ s.opens
  swap
  · rw [Driver.step_read_of_closed hk]
    exact iff_of_true (fun h => absurd h Event.badf_ret_ne) fun h => hk h.1
  by_cases he : s.dev.vars.exitFlag = 0
  swap
  · rw [Driver.step_read hk (orionRead_eof s.dev buf len _ he)]
    exact iff_of_true (fun h => absurd h (show (0 : Int) ≠ -EFAULT by decide)) fun h => he h.2.1
  by_cases hf : min buf.missed (min len message.length) = 0
  · have hne : ((min len message.length : Nat) : Int) ≠ -EFAULT := by simp only [EFAULT]; omega
    rw [Driver.step_read hk (orionRead_ok s.dev buf len _ he hn hf)]
    refine iff_of_true (fun h => absurd h hne) fun h => ?_
    obtain ⟨-, -, -, hb, hl⟩ := h
    omega
  · have hb : buf.missed ≠ 0 := by omega
    have hl : len ≠ 0 := by omega
    have hst := Driver.step_read (d := driver) hk (orionRead_fault s.dev buf len (s.offset k at?) he hn hf)
    by_cases hm : s.dev.vars.stream = 0
    · refine iff_of_false (fun h => ?_) fun h => h ⟨hk, he, hm, hb, hl⟩
      have hc := (h (by rw [hst])).1
      simp only [Run.stepOf, hst, control, armed, hm, he, ite_true, Prod.mk.injEq] at hc
      exact absurd hc.2.1 (by decide)
    · refine iff_of_true (fun _ => ?_) fun h => hm h.2.2.1
      have hv : armed s.dev.vars = s.dev.vars := by rw [armed, if_neg hm, ← he]
      have hpost : (driver.step s (.read k at? buf len)).1 = s := by
        rw [hst]
        simp only [hv, s.newPos_fault]
      have hp : (Run.stepOf driver.step s (.read k at? buf len)).post = s := hpost
      exact ⟨by rw [hp]; rfl, by rw [hp]; rfl⟩

/-! ## Every run -/

/-- A failed call is rolled back just if it is no read that has marked the end of
file. -/
theorem rolledBack_step {s : Sys Vars} (hs : Sound s.dev) (c : Call) :
    ((driver.step s c).2.ret = -EFAULT → RolledBack (Run.stepOf driver.step s c)) ↔
      ¬ FailsMarked (Run.stepOf driver.step s c) := by
  cases c with
  | opn k =>
    refine iff_of_true (fun h => ?_) id
    by_cases hk : k ∈ s.used
    · rw [Driver.step_opn_of_used hk] at h
      exact absurd h Event.badf_ret_ne
    · rw [Driver.step_opn driver_opens hk] at h
      exact absurd h (show (0 : Int) ≠ -EFAULT by decide)
  | close k =>
    refine iff_of_true (fun h => ?_) id
    by_cases hk : k ∈ s.opens
    · rw [Driver.step_close hk] at h
      have h0 : (orionClose.run { dev := s.dev }).1 = -EFAULT := h
      rw [orionClose_run] at h0
      exact absurd h0 (show (0 : Int) ≠ -EFAULT by decide)
    · rw [Driver.step_close_of_closed hk] at h
      exact absurd h Event.badf_ret_ne
  | read k at? buf len => exact read_rolledBack hs k at? buf len
  | write k at? buf => exact iff_of_true write_rolledBack id

/-- Every run: each call that returns `-EFAULT` is rolled back just if no read
into an invalid buffer finds the mode off and no end of file marked. -/
theorem rollback_iff (cs : List Call) :
    (∀ t ∈ driver.steps cs, t.out.ret = -EFAULT → RolledBack t) ↔
      ∀ t ∈ driver.steps cs, ¬ FailsMarked t := by
  refine forall_congr' fun t => imp_congr_right fun ht => ?_
  obtain ⟨js, c, ks, -, rfl⟩ := Run.mem_steps.mp ht
  exact rolledBack_step (keeps_sound.after js) c

/-- A first read into an invalid buffer. -/
theorem read_not_rolledBack :
    ¬ ∀ cs, ∀ t ∈ driver.steps cs, t.out.ret = -EFAULT → RolledBack t := by
  intro h
  have hr := h [.opn 0, .read 0 none ⟨1⟩ 99]
    (Run.stepOf driver.step (driver.after [.opn 0]) (.read 0 none ⟨1⟩ 99))
    (List.mem_cons_of_mem _ List.mem_cons_self)
  refine (read_rolledBack (keeps_sound.after [.opn 0]) 0 none ⟨1⟩ 99).mp hr ?_
  exact ⟨by decide, by decide, by decide, by decide, by decide⟩

end SO.Proof.Orion
