import Proyectos.Proof.Toggle.Log

/-!
# `luffy`, `madre` and `chaleco`: failed calls

A write toggles the mode before it tests its offset and makes its copy, so one
that accepts nothing has toggled it all the same; a read that fails clears the
flag it has set. So failed calls change nothing just if no write is refused
(`unchangedOnFailure_iff`).
-/

namespace SO.Proof.Toggle

open SO.Impl.Toggle
open SO.Driver (vfs vfs_admitted_of_eq InVfs)

/-- The call is a write past the end of the array, or returns `-EFAULT`. -/
def Failed (t : Step (Sys Vars) Call Event) : Prop :=
  match t.inp with
  | .write k at? _ => (k ∈ t.pre.opens ∧ t.pre.offset k at? ≥ BUFFER_SIZE) ∨ t.out.ret = -EFAULT
  | .read _ _ _ _ => t.out.ret = -EFAULT
  | _ => False

/-- The call left the mode, the flag and the file offsets as they were. -/
def Unchanged (t : Step (Sys Vars) Call Event) : Prop :=
  t.post.dev.vars.stream = t.pre.dev.vars.stream ∧ t.post.dev.vars.exit = t.pre.dev.vars.exit ∧
    t.post.pos = t.pre.pos

/-- The call is a write that reaches the driver, past the end of the array or
with at least one byte and an invalid buffer. -/
def Refused (t : Step (Sys Vars) Call Event) : Prop :=
  match t.inp with
  | .write k at? buf => k ∈ t.pre.opens ∧
      (t.pre.offset k at? ≥ BUFFER_SIZE ∨ buf.missed ≠ 0 ∧ buf.bytes ≠ [])
  | _ => False

def UnchangedOnFailure (d : Driver Vars) (cs : List Call) : Prop :=
  ∀ t ∈ d.steps cs, Failed t → Unchanged t

theorem toggled_stream_ne (v : Vars) : (toggled v).stream ≠ v.stream := by
  by_cases h : v.stream = 0
  · have ht : (toggled v).stream = 1 := if_pos h
    rw [ht, h]
    decide
  · have ht : (toggled v).stream = 0 := if_neg h
    rw [ht]
    exact Ne.symm h

variable {x : Texts}

/-- A write that reaches the driver toggles the mode, whatever becomes of it. -/
theorem write_changed {s : Sys Vars} {k : Nat} (hk : k ∈ s.opens) (at? : Option Int) (buf : UserSrc) :
    ¬ Unchanged (Run.stepOf (driver x).step s (.write k at? buf)) := by
  intro h
  obtain ⟨b, hb⟩ := toggleWrite_dev x s.dev buf buf.bytes.length (s.offset k at?)
  have hs := h.1
  simp only [Run.stepOf, Driver.step_write (d := driver x) hk rfl] at hs
  have ht : ((toggleWrite x buf buf.bytes.length (s.offset k at?)).run
      { dev := s.dev }).2.dev.vars.stream = s.dev.vars.stream := hs
  rw [hb] at ht
  exact toggled_stream_ne _ ht

/-- A write fails just if it is refused. -/
theorem write_failed_iff {s : Sys Vars} {k : Nat} {at? : Option Int} {buf : UserSrc}
    (h0 : 0 ≤ s.offset k at?) (hl : buf.bytes.length ≤ MAX_RW_COUNT) :
    Failed (Run.stepOf (driver x).step s (.write k at? buf)) ↔
      Refused (Run.stepOf (driver x).step s (.write k at? buf)) := by
  by_cases hk : k ∈ s.opens
  swap
  · refine iff_of_false ?_ fun h => hk h.1
    rintro (⟨ho, -⟩ | hr)
    · exact hk ho
    · simp only [Run.stepOf, Driver.step_write_of_closed (d := driver x) hk] at hr
      exact Event.badf_ret_ne hr
  by_cases h : s.offset k at? ≥ BUFFER_SIZE
  · exact iff_of_true (.inl ⟨hk, h⟩) ⟨hk, .inl h⟩
  have hn := clamp_eq h0 h hl
  have hm : min buf.missed (min buf.bytes.length (BUFFER_SIZE - (s.offset k at?).toNat)) = 0 ↔
      ¬ (buf.missed ≠ 0 ∧ buf.bytes ≠ []) := by
    have hb : buf.bytes ≠ [] ↔ 0 < buf.bytes.length := List.length_pos_iff.symm
    rw [hb]
    simp only [BUFFER_SIZE] at h ⊢
    omega
  have hrf : Refused (Run.stepOf (driver x).step s (.write k at? buf)) ↔
      buf.missed ≠ 0 ∧ buf.bytes ≠ [] := (and_iff_right hk).trans (or_iff_right h)
  have hfl : Failed (Run.stepOf (driver x).step s (.write k at? buf)) ↔
      ((driver x).step s (.write k at? buf)).2.ret = -EFAULT := or_iff_right fun hc => h hc.2
  rw [hrf, hfl]
  by_cases hf : min buf.missed (min buf.bytes.length (BUFFER_SIZE - (s.offset k at?).toNat)) = 0
  · have hi : int32 ((min buf.bytes.length (BUFFER_SIZE - (s.offset k at?).toNat) : Nat) : Int) =
        (min buf.bytes.length (BUFFER_SIZE - (s.offset k at?).toNat) : Nat) := int32_count (by omega)
    have hne : ((min buf.bytes.length (BUFFER_SIZE - (s.offset k at?).toNat) : Nat) : Int) ≠
        -EFAULT := by
      simp only [EFAULT]
      omega
    rw [Driver.step_write hk (toggleWrite_ok x s.dev buf _ _ h hn hf rfl), hi]
    exact iff_of_false hne (hm.mp hf)
  · rw [Driver.step_write hk (toggleWrite_fault x s.dev buf _ _ h hn hf)]
    exact iff_of_true rfl (not_not.mp fun hc => hf (hm.mpr hc))

/-- A read that fails changes nothing. -/
theorem read_unchanged {s : Sys Vars} (hs : Holds x s.dev) {k : Nat} {at? : Option Int} {buf : UserDst}
    {len : Nat} (h : Failed (Run.stepOf (driver x).step s (.read k at? buf len))) :
    Unchanged (Run.stepOf (driver x).step s (.read k at? buf len)) := by
  have hr : ((driver x).step s (.read k at? buf len)).2.ret = -EFAULT := h
  have hk : k ∈ s.opens := by
    by_contra hk
    rw [Driver.step_read_of_closed hk] at hr
    exact Event.badf_ret_ne hr
  have hn := strlen_message hs
  have he : s.dev.vars.exit = 0 := by
    by_contra he
    rw [Driver.step_read hk (toggleRead_eof x s.dev buf len _ he)] at hr
    exact absurd hr (show (0 : Int) ≠ -EFAULT by decide)
  have hf : min buf.missed x.message.length ≠ 0 := by
    intro hf
    have hne : (x.message.length : Int) ≠ -EFAULT := by
      simp only [EFAULT]
      omega
    rw [Driver.step_read hk (toggleRead_ok x s.dev buf len _ he hn hf), int32_message] at hr
    exact hne hr
  have hst : (driver x).step s (.read k at? buf len) = _ :=
    Driver.step_read hk (toggleRead_fault x s.dev buf len (s.offset k at?) he hn hf)
  simp only [Unchanged, Run.stepOf, hst, s.newPos_fault, and_self]

theorem step_unchanged {s : Sys Vars} (hs : Holds x s.dev) {c : Call} (hc : InVfs s c) :
    (Failed (Run.stepOf (driver x).step s c) → Unchanged (Run.stepOf (driver x).step s c)) ↔
      ¬ Refused (Run.stepOf (driver x).step s c) := by
  cases c with
  | opn k | close k => exact iff_of_true (fun h => h.elim) id
  | read k at? buf len => exact iff_of_true (read_unchanged hs) id
  | write k at? buf =>
    obtain ⟨h0, hl⟩ := hc k at? buf rfl
    rw [write_failed_iff h0 hl]
    constructor
    · intro h hr
      exact write_changed hr.1 at? buf (h hr)
    · intro h hr
      exact absurd hr h

theorem unchangedOnFailure_iff (x : Texts) (cs : List VfsCall) :
    UnchangedOnFailure (driver x) (vfs cs) ↔ ∀ t ∈ (driver x).steps (vfs cs), ¬ Refused t := by
  refine forall_congr' fun t => imp_congr_right fun ht => ?_
  obtain ⟨js, c, ks, e, rfl⟩ := Run.mem_steps.mp ht
  exact step_unchanged ((keeps_holds x).after js) ((moves x).inVfs (keeps_holds x) (vfs_admitted_of_eq e))

/-- The three drivers, every run of calls the VFS lets through. -/
theorem unchanged_on_failure_iff (cs : List VfsCall) :
    (UnchangedOnFailure luffy (vfs cs) ↔ ∀ t ∈ luffy.steps (vfs cs), ¬ Refused t) ∧
      (UnchangedOnFailure madre (vfs cs) ↔ ∀ t ∈ madre.steps (vfs cs), ¬ Refused t) ∧
      (UnchangedOnFailure chaleco (vfs cs) ↔ ∀ t ∈ chaleco.steps (vfs cs), ¬ Refused t) :=
  ⟨unchangedOnFailure_iff luffyTexts cs, unchangedOnFailure_iff madreTexts cs,
    unchangedOnFailure_iff chalecoTexts cs⟩

/-- A write of one byte from an invalid buffer. -/
theorem failed_write_toggles : ¬ ∀ cs, UnchangedOnFailure luffy (vfs cs) := by
  intro h
  have hw : (Call.write 0 none ⟨[0x31], 1, []⟩).Admitted :=
    ⟨by show 1 ≤ MAX_RW_COUNT; decide, fun p hp => by cases hp⟩
  exact (unchangedOnFailure_iff luffyTexts [⟨.opn 0, trivial⟩, ⟨_, hw⟩]).mp (h _)
    (Run.stepOf luffy.step (luffy.after [.opn 0]) (.write 0 none ⟨[0x31], 1, []⟩))
    (List.mem_cons_of_mem _ List.mem_cons_self) ⟨by decide, .inr ⟨by decide, by decide⟩⟩

end SO.Proof.Toggle
