import Proyectos.Proof.Pokemon.Bounds
import Proyectos.Spec.Mode

/-!
# `pokemon`: the mode

`poke_write` stores the payload at the file offset and then tests the first byte
of `write_buffer`. At the offset 0 that is the payload's first byte; elsewhere
it is the byte that was there (`tested_pos`). So a write sets the mode its
payload asks for just if it is at the offset 0 or the byte there asks for the
same (`step_follows`).

A write that fills the array stores its terminator past it, and C does not say
what that changes: `stream` may be what comes next in memory. So the mode
follows, whatever such a store changes, just if there is also no such write
(`follows_iff`).
-/

namespace SO.Proof.Pokemon

open SO.Impl.Pokemon
open SO.Driver (vfs vfs_admitted_of_eq InVfs)
open SO.Spec.Mode (asks)

theorem obey_stream (b : UInt8) (v : Vars) : (obey b v).stream = (asks b).getD v.stream :=
  Spec.Mode.stream_asks Vars.stream rfl rfl b

/-- The call is a write that the driver accepts at least one byte of. -/
def Accepts (t : Step (Sys Vars) Call Event) : Prop :=
  match t.inp with
  | .write _ _ _ => 1 ≤ t.out.ret
  | _ => False

/-- The first byte of the call's payload. -/
def firstByte (c : Call) : UInt8 :=
  match c with
  | .write _ _ buf => buf.bytes.getD 0 0
  | _ => 0

/-- If the call is an accepted write, it leaves the mode its own payload asks for. -/
def Obeyed (t : Step (Sys Vars) Call Event) : Prop := Accepts t →
  t.post.dev.vars.stream = (asks (firstByte t.inp)).getD t.pre.dev.vars.stream

/-- Each accepted write leaves the mode its own payload asks for. -/
def Follows (cs : List Call) : Prop := ∀ t ∈ driver.steps cs, Obeyed t

/-- One call, where `past` is what a call that stores outside `write_buffer` changes
besides. -/
def stepPast (past : Dev Vars → Dev Vars) (s : Sys Vars) (c : Call) : Sys Vars × Event :=
  let r := driver.step s c
  if StoresIn r.2.out then r else ({ r.1 with dev := past r.1.dev }, r.2)

/-- Each accepted write leaves the mode its own payload asks for, whatever a store
outside `write_buffer`, which C leaves undefined, changes. -/
def FollowsAnyhow (cs : List Call) : Prop :=
  ∀ past, ∀ t ∈ Run.steps (stepPast past) driver.boot cs, Obeyed t

/-- The call is a write that reaches the test of the first byte, with at least
one byte copied: it is inside the array, not empty, and does not fail. -/
def Tests (t : Step (Sys Vars) Call Event) : Prop :=
  match t.inp with
  | .write k at? buf =>
    k ∈ t.pre.opens ∧ t.pre.offset k at? < BUFFER_SIZE ∧ buf.missed = 0 ∧ buf.bytes ≠ []
  | _ => False

/-- The offset the call works at. -/
def offsetOf (t : Step (Sys Vars) Call Event) : Int :=
  match t.inp with
  | .read k at? _ _ | .write k at? _ => t.pre.offset k at?
  | _ => 0

/-- The write is at the offset 0, or the first byte of `write_buffer` and the
payload's ask for the same mode. -/
def Agrees (t : Step (Sys Vars) Call Event) : Prop :=
  offsetOf t = 0 ∨ (asks (t.pre.dev.writeBuffer.get 0)).getD t.pre.dev.vars.stream =
    (asks (firstByte t.inp)).getD t.pre.dev.vars.stream

/-! ## One call -/

/-- The byte tested after a write at an offset other than 0 is the one that was
there. -/
theorem tested_pos (b : Buf BUFFER_SIZE) (buf : UserSrc) {n : Nat} (hn : 0 < n) {off : Int}
    (ho : 0 < off) : ((b.copied buf n off).store (n, 0)).get 0 = b.get 0 := by
  have h0 : (((0 : Fin BUFFER_SIZE) : Nat) : Int) = 0 := rfl
  rw [Buf.get_store, if_neg (by rw [h0]; omega), Buf.get_copied, if_neg (by rw [h0]; omega)]

/-- What a write returns and the mode it leaves. -/
theorem pokeWrite_mode (v : Dev Vars) (buf : UserSrc) {off : Int} (h0 : 0 ≤ off)
    (hl : buf.bytes.length ≤ MAX_RW_COUNT) :
    (1 ≤ ((pokeWrite buf buf.bytes.length off).run { dev := v }).1.1 ↔
      off < BUFFER_SIZE ∧ buf.missed = 0 ∧ buf.bytes ≠ []) ∧
    (off < BUFFER_SIZE ∧ buf.missed = 0 ∧ buf.bytes ≠ [] →
      ((pokeWrite buf buf.bytes.length off).run { dev := v }).2.dev.vars.stream =
        (asks (if off = 0 then buf.bytes.getD 0 0 else v.writeBuffer.get 0)).getD v.vars.stream) := by
  have hb : buf.bytes ≠ [] ↔ 0 < buf.bytes.length := List.length_pos_iff.symm
  rw [hb]
  by_cases h : off ≥ BUFFER_SIZE
  · rw [pokeWrite_far v buf _ off h]
    have hc : ¬ off < BUFFER_SIZE := not_lt.mpr h
    exact ⟨iff_of_false (show ¬ (1 : Int) ≤ 0 by decide) fun h => hc h.1, fun h => absurd h.1 hc⟩
  · have hn := clamp_eq h0 h hl
    have hc : off < BUFFER_SIZE := not_le.mp h
    by_cases hf : min buf.missed (min buf.bytes.length (BUFFER_SIZE - off.toNat)) = 0
    · rw [pokeWrite_ok v buf _ off h hn hf rfl]
      have hr : int32 ((min buf.bytes.length (BUFFER_SIZE - off.toNat) : Nat) : Int) =
          (min buf.bytes.length (BUFFER_SIZE - off.toNat) : Nat) := int32_count (by omega)
      rw [hr]
      simp only [BUFFER_SIZE] at h hf ⊢
      refine ⟨by omega, fun hp => ?_⟩
      rw [obey_stream]
      split
      · rename_i ho
        subst ho
        rw [Buf.first_copied _ (by omega) hf]
      · rw [tested_pos _ _ (by omega) (by omega)]
    · rw [pokeWrite_fault v buf _ off h hn hf]
      simp only [BUFFER_SIZE] at h hf ⊢
      exact ⟨iff_of_false (by decide) (by omega), fun hp => absurd hp.2.1 (by omega)⟩

/-- The writes that are accepted are those that get to the test. -/
theorem accepts_iff {s : Sys Vars} {c : Call} (hc : InVfs s c) :
    Accepts (Run.stepOf driver.step s c) ↔ Tests (Run.stepOf driver.step s c) := by
  cases c with
  | opn k | close k | read k at? buf len => exact Iff.rfl
  | write k at? buf =>
    by_cases hk : k ∈ s.opens
    · obtain ⟨h0, hl⟩ := hc k at? buf rfl
      have hg : Tests (Run.stepOf driver.step s (.write k at? buf)) ↔
          s.offset k at? < BUFFER_SIZE ∧ buf.missed = 0 ∧ buf.bytes ≠ [] := and_iff_right hk
      rw [hg, ← (pokeWrite_mode s.dev buf h0 hl).1, Accepts, Run.stepOf, Driver.step_write hk rfl]
      rfl
    · refine iff_of_false ?_ fun h => hk h.1
      rw [Accepts, Run.stepOf, Driver.step_write_of_closed hk]
      show ¬ (1 : Int) ≤ -EBADF
      decide

/-- A call leaves the mode its payload asks for just if it agrees. -/
theorem step_follows {s : Sys Vars} {c : Call} (hc : InVfs s c) :
    Obeyed (Run.stepOf driver.step s c) ↔
      (Tests (Run.stepOf driver.step s c) → Agrees (Run.stepOf driver.step s c)) := by
  rw [Obeyed, accepts_iff hc]
  refine imp_congr_right fun ht => ?_
  cases c with
  | opn k | close k | read k at? buf len => exact ht.elim
  | write k at? buf =>
    obtain ⟨hk, hp⟩ := ht
    have hk : k ∈ s.opens := hk
    obtain ⟨h0, hl⟩ := hc k at? buf rfl
    have hm := (pokeWrite_mode s.dev buf h0 hl).2 hp
    rw [Run.stepOf, Driver.step_write hk rfl]
    show ((pokeWrite buf _ _).run { dev := s.dev }).2.dev.vars.stream = _ ↔ _
    rw [hm]
    by_cases hz : s.offset k at? = 0
    · rw [if_pos hz]
      exact iff_of_true rfl (.inl hz)
    · rw [if_neg hz]
      exact (or_iff_right hz).symm

/-- A write that fills the array gets to the test, at the offset 0. -/
theorem Fills.tests {t : Step (Sys Vars) Call Event} (h : Fills t) : Tests t ∧ Agrees t := by
  obtain ⟨s, c, e, s'⟩ := t
  cases c with
  | opn k | close k | read k at? buf len => exact h.elim
  | write k at? buf =>
    obtain ⟨hk, h0, hl, hf⟩ := h
    have h0 : s.offset k at? = 0 := h0
    refine ⟨⟨hk, ?_, hf, fun hb => ?_⟩, .inl h0⟩
    · show s.offset k at? < BUFFER_SIZE
      rw [h0]
      decide
    · rw [hb] at hl
      exact absurd hl (by decide)

/-! ## Runs -/

/-- A run that stores inside the array runs the same, whatever a store outside it
changes. -/
theorem steps_past (past : Dev Vars → Dev Vars) {cs : List Call}
    (h : ∀ t ∈ driver.steps cs, StoresIn t.out.out) :
    Run.steps (stepPast past) driver.boot cs = driver.steps cs ∧
      Run.after (stepPast past) driver.boot cs = driver.after cs := by
  refine Run.steps_congr fun t ht => ?_
  have hin := h t ht
  obtain ⟨js, c, ks, -, rfl⟩ := Run.mem_steps.mp ht
  exact if_pos hin

/-- A store outside the array may change nothing. -/
theorem stepPast_id : stepPast id = driver.step := by
  funext s c
  exact ite_self (driver.step s c)

theorem FollowsAnyhow.follows {cs : List Call} (h : FollowsAnyhow cs) : Follows cs := by
  have hid := h id
  rwa [stepPast_id] at hid

/-- What turns the mode into another one. -/
def upset (d : Dev Vars) : Dev Vars := { d with vars.stream := d.vars.stream + 1 }

/-- If the mode follows although each store outside the array upsets it, there is
none. -/
theorem storesIn_of_obeyed {cs : List VfsCall}
    (h : ∀ t ∈ Run.steps (stepPast upset) driver.boot (vfs cs), Obeyed t) :
    ∀ t ∈ driver.steps (vfs cs), StoresIn t.out.out := by
  induction cs using List.reverseRecOn with
  | nil => exact nofun
  | append_singleton cs c ih =>
    have e : vfs (cs ++ [c]) = vfs cs ++ [c.1] := List.map_append
    rw [e, Run.steps_snoc, List.forall_mem_append, List.forall_mem_singleton] at h
    rw [e, Driver.steps, Run.steps_snoc, List.forall_mem_append, List.forall_mem_singleton]
    obtain ⟨hl, hc⟩ := h
    have hin := ih hl
    refine ⟨hin, ?_⟩
    rw [(steps_past upset hin).2] at hc
    by_contra hout
    -- the write that stores outside obeys its payload, and is upset after that
    have hv : InVfs (driver.after (vfs cs)) c.1 := moves.inVfs keeps_holds (vfs_admitted_of_eq e)
    have hf : Fills (Run.stepOf driver.step (driver.after (vfs cs)) c.1) := by
      by_contra hf
      exact hout ((step_storesIn hv).mpr hf)
    have ha := (accepts_iff hv).mpr hf.tests.1
    have hm : (driver.step (driver.after (vfs cs)) c.1).1.dev.vars.stream = _ :=
      (step_follows hv).mpr (fun _ => hf.tests.2) ha
    have hp : stepPast upset (driver.after (vfs cs)) c.1 = _ := if_neg hout
    rw [Run.stepOf, hp] at hc
    have hu : (driver.step (driver.after (vfs cs)) c.1).1.dev.vars.stream + 1 = _ := hc ha
    exact absurd (hu.trans hm.symm) (by omega)

/-- Every run of calls the VFS lets through: each accepted write leaves the mode
its own payload asks for, whatever a store outside the array changes, just if none
of them fills the array and each is at the offset 0 or agrees with the byte there. -/
theorem follows_iff (cs : List VfsCall) :
    FollowsAnyhow (vfs cs) ↔ ∀ t ∈ driver.steps (vfs cs), Tests t → ¬ Fills t ∧ Agrees t := by
  have hstep : ∀ t ∈ driver.steps (vfs cs),
      (StoresIn t.out.out ↔ ¬ Fills t) ∧ (Obeyed t ↔ (Tests t → Agrees t)) := by
    intro t ht
    obtain ⟨js, c, ks, e, rfl⟩ := Run.mem_steps.mp ht
    have hv := moves.inVfs keeps_holds (vfs_admitted_of_eq e)
    exact ⟨step_storesIn hv, step_follows hv⟩
  constructor
  · intro h t ht hg
    have hin := storesIn_of_obeyed (h upset)
    exact ⟨(hstep t ht).1.mp (hin t ht), (hstep t ht).2.mp (h.follows t ht) hg⟩
  · intro h past
    have hin : ∀ t ∈ driver.steps (vfs cs), StoresIn t.out.out := fun t ht =>
      (hstep t ht).1.mpr fun hf => (h t ht hf.tests.1).1 hf
    rw [(steps_past past hin).1]
    exact fun t ht => (hstep t ht).2.mpr fun hg => (h t ht hg).2

/-- Two writes through one file, the first a `'1'` and the second a `'0'`, with
no copy faults. -/
theorem second_directive_lost :
    ¬ ∀ cs : List VfsCall, (∀ c ∈ cs, c.1.Faultless) → Follows (vfs cs) := by
  intro h
  have hw : ∀ b : UInt8, (Call.write 0 none ⟨[b], 0, []⟩).Admitted := fun b =>
    ⟨by show 1 ≤ MAX_RW_COUNT; decide, fun p hp => by cases hp⟩
  have hf := h [⟨.opn 0, trivial⟩, ⟨_, hw 0x31⟩, ⟨_, hw 0x30⟩] (by simp [Call.Faultless])
    (Run.stepOf driver.step (driver.after [.opn 0, .write 0 none ⟨[0x31], 0, []⟩])
      (.write 0 none ⟨[0x30], 0, []⟩))
    (List.mem_cons_of_mem _ (List.mem_cons_of_mem _ List.mem_cons_self))
  have hr : 1 ≤ (driver.step (driver.after [.opn 0, .write 0 none ⟨[0x31], 0, []⟩])
    (.write 0 none ⟨[0x30], 0, []⟩)).2.ret := by decide +kernel
  exact absurd (hf hr) (by decide +kernel)

end SO.Proof.Pokemon
