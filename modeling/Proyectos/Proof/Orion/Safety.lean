import Proyectos.Proof.Orion.Calls
import Proyectos.Proof.Sessions

/-!
# `orion`: the arrays, the mutex and the count of sessions

The last byte of `write_buffer` is never anything but 0: `orion_write` copies
at most `BUFFER_SIZE - 1` bytes, whether the copy fails or not, and what it
stores last is a terminator. `Sound` says this of the variables, with what
else every function keeps: the message, and the mutex unlocked. `Bounded` says
of what a call leaves behind that its stores were inside the array and its
`%s` lines found a terminator. `counts_step` is the count of sessions.
-/

namespace SO.Proof.Orion

open SO.Impl.Orion

/-- What every function of the driver keeps of its variables. -/
structure Sound (v : Dev Vars) : Prop where
  last : v.writeBuffer.get 1023 = 0
  kernel : v.kernelBuffer = .ofBytes message
  bit : v.vars.stream = 0 ∨ v.vars.stream = 1
  unlocked : v.vars.orionMutex = false

/-- What a call leaves behind: stores inside `write_buffer`, and lines that
stop at a terminator. -/
def Bounded (o : Out) : Prop :=
  (∀ w ∈ o.stores, 0 ≤ w.1 ∧ w.1 < BUFFER_SIZE) ∧ ∀ l ∈ o.log, l.Terminated

theorem bounded_of_stores_nil {o : Out} (hs : o.stores = []) (hl : ∀ l ∈ o.log, l.Terminated) :
    Bounded o := ⟨by simp [hs], hl⟩

/-! ## Reading -/

/-- A read changes the flag only. -/
theorem orionRead_dev (v : Dev Vars) (buf : UserDst) (len : Nat) (off : Int) :
    ∃ e, ((orionRead buf len off).run { dev := v }).2.dev =
      { v with vars := { v.vars with exitFlag := e } } := by
  by_cases h : v.vars.exitFlag = 0
  · by_cases hf : min buf.missed (min len v.kernelBuffer.strlen) = 0
    · rw [orionRead_ok v buf len off h rfl hf]; exact ⟨_, rfl⟩
    · rw [orionRead_fault v buf len off h rfl hf]; exact ⟨_, rfl⟩
  · rw [orionRead_eof v buf len off h]; exact ⟨_, rfl⟩

theorem orionRead_bounded (v : Dev Vars) (buf : UserDst) (len : Nat) (off : Int) :
    Bounded ((orionRead buf len off).run { dev := v }).2.out := by
  by_cases h : v.vars.exitFlag = 0
  · by_cases hf : min buf.missed (min len v.kernelBuffer.strlen) = 0
    · rw [orionRead_ok v buf len off h rfl hf]
      exact bounded_of_stores_nil rfl (by simp)
    · rw [orionRead_fault v buf len off h rfl hf]
      exact bounded_of_stores_nil rfl (by simp [Line.Terminated])
  · rw [orionRead_eof v buf len off h]
    exact bounded_of_stores_nil rfl (by simp)

/-! ## Writing -/

/-- A copy of at most `BUFFER_SIZE - 1` bytes leaves the last one. -/
theorem copied_last (b : Buf BUFFER_SIZE) (buf : UserSrc) {n : Nat} (hn : n ≤ BUFFER_SIZE - 1) :
    (b.copied buf n 0).get 1023 = b.get 1023 := by
  rw [Buf.get_copied, if_neg]
  simp only [BUFFER_SIZE] at hn
  show ¬ ((0 : Int) ≤ (1023 : Nat) ∧ ((1023 : Nat) : Int) < 0 + n)
  omega

theorem terminated_last {b : Buf BUFFER_SIZE} (hb : b.get 1023 = 0) (n : Nat) :
    (b.store (n, 0)).get 1023 = 0 := by
  rw [Buf.get_store]
  split <;> [rfl; exact hb]

/-- The stores of a copy of at most `BUFFER_SIZE - 1` bytes. -/
theorem copyTo_bounded {buf : UserSrc} {n : Nat} (hn : n ≤ BUFFER_SIZE - 1) :
    ∀ w ∈ Buf.copyTo 0 n (buf.image n), 0 ≤ w.1 ∧ w.1 < BUFFER_SIZE := by
  intro w hw
  obtain ⟨h0, hlt⟩ := Buf.copyTo_between w hw
  simp only [BUFFER_SIZE] at hn ⊢
  omega

/-- The line logged finds the terminator just stored. -/
theorem logged_terminated (b : Buf BUFFER_SIZE) {n : Nat} (hn : n ≤ BUFFER_SIZE - 1) :
    (logged (b.store (n, 0))).Terminated := by
  have h : (b.store (n, 0)).cstr ≠ none :=
    Buf.cstr_ne_none.mpr ⟨⟨n, by simp only [BUFFER_SIZE] at hn ⊢; omega⟩,
      by rw [Buf.get_store, if_pos rfl]⟩
  simp only [logged, Line.Terminated]
  split <;> [simp; split] <;> simp [Ne.symm h]

theorem obey_eq (b : UInt8) (v : Vars) :
    ∃ s e, (v.stream = 0 ∨ v.stream = 1 → s = 0 ∨ s = 1) ∧
      obey b v = { v with stream := s, exitFlag := e } := by
  unfold obey
  split
  · exact ⟨1, 0, fun _ => .inr rfl, rfl⟩
  · split
    · exact ⟨0, v.exitFlag, fun _ => .inl rfl, rfl⟩
    · exact ⟨v.stream, v.exitFlag, id, rfl⟩

/-- A write changes the mode and the flag, and `write_buffer` but for its last
byte. -/
theorem orionWrite_dev (v : Dev Vars) (buf : UserSrc) (len : Nat) (off : Int) :
    ∃ s e b, (v.writeBuffer.get 1023 = 0 → b.get 1023 = 0) ∧
      (v.vars.stream = 0 ∨ v.vars.stream = 1 → s = 0 ∨ s = 1) ∧
      ((orionWrite buf len off).run { dev := v }).2.dev =
        { v with
          vars := { v.vars with stream := s, exitFlag := e, orionMutex := false }
          writeBuffer := b } := by
  have hn : min len (BUFFER_SIZE - 1) ≤ BUFFER_SIZE - 1 := min_le_right _ _
  have hc := copied_last v.writeBuffer buf hn
  by_cases hf : min buf.missed (min len (BUFFER_SIZE - 1)) = 0
  · rw [orionWrite_ok v buf len off rfl hf rfl]
    obtain ⟨s, e, hb, ho⟩ := obey_eq
      (((v.writeBuffer.copied buf (min len (BUFFER_SIZE - 1)) 0).store
        ((min len (BUFFER_SIZE - 1) : Nat), 0)).get 0) { v.vars with orionMutex := false }
    exact ⟨s, e, _, fun h => terminated_last (hc.trans h) _, hb, by rw [ho]⟩
  · rw [orionWrite_fault v buf len off rfl hf]
    exact ⟨_, _, _, hc.trans, id, rfl⟩

theorem orionWrite_bounded (v : Dev Vars) (buf : UserSrc) (len : Nat) (off : Int) :
    Bounded ((orionWrite buf len off).run { dev := v }).2.out := by
  have hn : min len (BUFFER_SIZE - 1) ≤ BUFFER_SIZE - 1 := min_le_right _ _
  by_cases hf : min buf.missed (min len (BUFFER_SIZE - 1)) = 0
  · rw [orionWrite_ok v buf len off rfl hf rfl]
    refine ⟨fun w hw => ?_, fun l hl => ?_⟩
    · rcases List.mem_append.mp hw with hw | hw
      · exact copyTo_bounded hn w hw
      · rw [List.mem_singleton.mp hw]
        simp only [BUFFER_SIZE] at hn ⊢
        omega
    · rw [List.mem_singleton.mp hl]
      exact logged_terminated _ hn
  · rw [orionWrite_fault v buf len off rfl hf]
    exact ⟨copyTo_bounded hn, by simp⟩

/-! ## Every run -/

theorem keeps_sound : driver.Keeps Sound where
  init := ⟨rfl, rfl, .inl rfl, rfl⟩
  opn v h := by
    show Sound (orionOpen.run { dev := v }).2.dev
    rw [orionOpen_run]; exact ⟨h.last, h.kernel, h.bit, rfl⟩
  release v h := by
    show Sound (orionClose.run { dev := v }).2.dev
    rw [orionClose_run]; exact ⟨h.last, h.kernel, h.bit, rfl⟩
  read v buf len off h := by
    obtain ⟨e, he⟩ := orionRead_dev v buf len off
    show Sound ((orionRead buf len off).run { dev := v }).2.dev
    rw [he]; exact ⟨h.last, h.kernel, h.bit, h.unlocked⟩
  write v buf off h := by
    obtain ⟨s, e, b, hl, hb, he⟩ := orionWrite_dev v buf buf.bytes.length off
    show Sound ((orionWrite buf buf.bytes.length off).run { dev := v }).2.dev
    rw [he]; exact ⟨hl h.last, h.kernel, hb h.bit, rfl⟩

theorem leaves_bounded : driver.Leaves Bounded where
  nothing := bounded_of_stores_nil rfl (by simp)
  opn v := by
    show Bounded (orionOpen.run { dev := v }).2.out
    rw [orionOpen_run]; exact bounded_of_stores_nil rfl (by simp [Line.Terminated])
  release v := by
    show Bounded (orionClose.run { dev := v }).2.out
    rw [orionClose_run]; exact bounded_of_stores_nil rfl (by simp [Line.Terminated])
  read := orionRead_bounded

theorem bounded_steps (cs : List Call) : ∀ t ∈ driver.steps cs, Bounded t.out.out := by
  intro t ht
  obtain ⟨js, c, ks, -, rfl⟩ := Run.mem_steps.mp ht
  exact leaves_bounded.step fun _ _ buf _ _ => orionWrite_bounded _ buf _ _

theorem driver_opens : driver.Opens := fun v => by
  show (orionOpen.run { dev := v }).1 = 0
  rw [orionOpen_run]

/-- `device_open_count` is the number of open sessions, as an `int`. -/
def Counts (s : Sys Vars) : Prop := s.dev.vars.deviceOpenCount = int32 s.opens.card

theorem counts_step {s : Sys Vars} (h : Counts s) (hu : s.opens ⊆ s.used) (c : Call) :
    Counts (driver.step s c).1 := by
  have ho := driver.step_outcome s c
  generalize driver.step s c = r at ho
  cases ho with
  | refused => exact h
  | @opn k _ hk hr =>
    rw [← hr]
    show (orionOpen.run { dev := s.dev }).2.dev.vars.deviceOpenCount = int32 (insert k s.opens).card
    rw [orionOpen_run, Finset.card_insert_of_notMem fun hk' => hk (hu hk')]
    show int32 (s.dev.vars.deviceOpenCount + 1) = _
    rw [h, int32, int32, Int.bmod_add_bmod]; rfl
  | notOpened _ hr h0 => exact absurd (hr ▸ driver_opens s.dev) h0
  | @close k _ hk hr =>
    rw [← hr]
    show (orionClose.run { dev := s.dev }).2.dev.vars.deviceOpenCount = int32 (s.opens.erase k).card
    have hc : ((s.opens.erase k).card : Int) = s.opens.card - 1 := by
      have := Finset.card_erase_add_one hk
      omega
    rw [orionClose_run, hc]
    show int32 (s.dev.vars.deviceOpenCount - 1) = _
    rw [h, int32, int32, Int.bmod_sub_bmod]; rfl
  | @read k at? buf len _ _ hr =>
    obtain ⟨e, he⟩ := orionRead_dev s.dev buf len (s.offset k at?)
    rw [← hr]
    show ((orionRead buf len _).run { dev := s.dev }).2.dev.vars.deviceOpenCount = _
    rw [he]; exact h
  | @write k at? buf _ _ hr =>
    obtain ⟨st, e, b, -, -, he⟩ := orionWrite_dev s.dev buf buf.bytes.length (s.offset k at?)
    rw [← hr]
    show ((orionWrite buf buf.bytes.length _).run { dev := s.dev }).2.dev.vars.deviceOpenCount = _
    rw [he]; exact h

theorem counts_after (cs : List Call) : Counts (driver.after cs) := by
  induction cs using List.reverseRecOn with
  | nil => exact (by decide : (0 : Int) = int32 0)
  | append_singleton cs c ih =>
    rw [Driver.after, Run.after_snoc]
    exact counts_step ih (Driver.opens_subset_used driver_opens cs) c

/-- Every run, with fewer than `2³¹` sessions open at once: the last byte of
`write_buffer` is 0, `kernel_buffer` holds its message, `device_open_count` is
the number of open sessions, and no call stored outside `write_buffer` or logged
a string that ran past its end. -/
theorem orion_safe (cs : List Call) (h : ∀ t ∈ driver.steps cs, t.post.opens.card < 2 ^ 31) :
    (driver.after cs).dev.writeBuffer.get 1023 = 0 ∧
      (driver.after cs).dev.kernelBuffer = .ofBytes message ∧
      (driver.after cs).dev.vars.deviceOpenCount = (driver.after cs).opens.card ∧
      ∀ t ∈ driver.steps cs,
        (∀ w ∈ t.out.out.stores, 0 ≤ w.1 ∧ w.1 < BUFFER_SIZE) ∧
        ∀ l ∈ t.out.out.log, l.Terminated := by
  have hs := keeps_sound.after cs
  refine ⟨hs.last, hs.kernel, ?_, bounded_steps cs⟩
  have hc : (driver.after cs).opens.card < 2 ^ 31 :=
    Run.after_of_steps (Q := fun s : Sys Vars => s.opens.card < 2 ^ 31) (by decide) h
  rw [counts_after cs]
  exact int32_of_lt (by omega) (by exact_mod_cast hc)

theorem orion_safe_two_sessions :
    (driver.after [.opn 0, .opn 1, .write 0 none ⟨[0x68, 0x69], 0, []⟩,
      .close 1]).dev.vars.deviceOpenCount = 1 := by
  refine (orion_safe _ ?_).2.2.1.trans rfl
  decide

end SO.Proof.Orion
