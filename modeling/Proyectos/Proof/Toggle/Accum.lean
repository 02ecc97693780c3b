import Proyectos.Proof.Apart
import Proyectos.Proof.Toggle.Log

/-!
# `luffy`, `madre` and `chaleco`: accumulated writes

Where one session does all the writing, through its own offset, the offset is
what has been accepted so far, and `write_buffer` starts with exactly that
(`accumulates`). A copy stays between the offset and the array's end, so a copy
that fails half-way damages none of it; a write at the array's end accepts
nothing.
-/

namespace SO.Proof.Toggle

open SO.Impl.Toggle
open SO.Driver (vfs vfs_admitted_of_eq)

/-- The length a write's copy is cut to. -/
def clamped (len : Nat) (off : Int) : Nat :=
  if sizeT (len + off) > BUFFER_SIZE then sizeT (BUFFER_SIZE - off) else len

/-- How many bytes the call, if it is a write, reports as accepted. -/
def count (t : Step (Sys Vars) Call Event) : Nat :=
  match t.inp with
  | .write _ _ _ => t.out.ret.toNat
  | _ => 0

/-- The bytes it reports as accepted. -/
def taken (t : Step (Sys Vars) Call Event) : List UInt8 :=
  match t.inp with
  | .write _ _ buf => buf.bytes.take t.out.ret.toNat
  | _ => []

def total (ts : List (Step (Sys Vars) Call Event)) : Nat := (ts.map count).sum

def accepted (ts : List (Step (Sys Vars) Call Event)) : List UInt8 := (ts.map taken).flatten

theorem total_snoc (ts : List (Step (Sys Vars) Call Event)) (t : Step (Sys Vars) Call Event) :
    total (ts ++ [t]) = total ts + count t := by
  simp [total]

theorem accepted_snoc (ts : List (Step (Sys Vars) Call Event)) (t : Step (Sys Vars) Call Event) :
    accepted (ts ++ [t]) = accepted ts ++ taken t := by
  simp [accepted]

/-- The stores of the call are at its offset and within the length its copy is
cut to, which is computed without a wrap and ends inside the array; a call that
is no write makes none. -/
def Within (t : Step (Sys Vars) Call Event) : Prop :=
  match t.inp with
  | .write k _ buf =>
    (sizeT (buf.bytes.length + t.pre.pos k) : Int) = buf.bytes.length + t.pre.pos k ∧
      t.pre.pos k + clamped buf.bytes.length (t.pre.pos k) ≤ BUFFER_SIZE ∧
      ∀ w ∈ t.out.out.stores, t.pre.pos k ≤ w.1 ∧
        w.1 < t.pre.pos k + clamped buf.bytes.length (t.pre.pos k)
  | _ => t.out.out.stores = []

/-- All the writing is session `k`'s, through its own offset. -/
def WritesAlone (k : Nat) (cs : List Call) : Prop :=
  ∀ m at? buf, .write m at? buf ∈ cs → m = k ∧ at? = none

/-- The offset of session `k` is what has been accepted so far, `write_buffer`
starts with that, and every store was where it belongs. -/
def Accumulates (d : Driver Vars) (k : Nat) (cs : List Call) : Prop :=
  (d.after cs).pos k = total (d.steps cs) ∧ (d.after cs).pos k ≤ BUFFER_SIZE ∧
    (d.after cs).dev.writeBuffer.bytes.take ((d.after cs).pos k).toNat = accepted (d.steps cs) ∧
    ∀ t ∈ d.steps cs, Within t

/-! ## One write -/

theorem clamped_eq {len off : Nat} (h : off ≤ BUFFER_SIZE) (hl : len ≤ MAX_RW_COUNT) :
    clamped len off = min len (BUFFER_SIZE - off) := by
  by_cases ho : (off : Int) ≥ BUFFER_SIZE
  · have hs : (sizeT ((len : Int) + off) : Int) = len + off := by
      simp only [BUFFER_SIZE, MAX_RW_COUNT] at h hl
      exact sizeT_of_lt (by omega) (by omega)
    have hz : sizeT ((BUFFER_SIZE : Int) - off) = 0 := by
      have : (BUFFER_SIZE : Int) - off = 0 := by omega
      rw [this]; rfl
    rw [clamped, hz]
    split <;> omega
  · exact clamp_eq (by omega) ho hl

/-- What a write accepts, stores and returns, from an offset within the array. -/
theorem toggleWrite_accum (x : Texts) (v : Dev Vars) (buf : UserSrc) {off : Nat}
    (h : off ≤ BUFFER_SIZE) (hl : buf.bytes.length ≤ MAX_RW_COUNT)
    {r : (Int × Int) × CallSt Vars}
    (hr : (toggleWrite x buf buf.bytes.length off).run { dev := v } = r) :
    off + r.1.1.toNat ≤ BUFFER_SIZE ∧ (0 ≤ r.1.1 → r.1.2 = off + r.1.1.toNat) ∧
      r.2.dev.writeBuffer.bytes.take (off + r.1.1.toNat) =
        v.writeBuffer.bytes.take off ++ buf.bytes.take r.1.1.toNat ∧
      ∀ w ∈ r.2.out.stores, (off : Int) ≤ w.1 ∧ w.1 < off + clamped buf.bytes.length off := by
  subst hr
  rw [clamped_eq h hl]
  by_cases ho : (off : Int) ≥ BUFFER_SIZE
  · rw [toggleWrite_far x v buf _ off ho]
    exact ⟨h, fun _ => rfl, by simp, by simp⟩
  · have h0 : (0 : Int) ≤ off := Int.natCast_nonneg off
    have hn := clamp_eq h0 ho hl
    rw [Int.toNat_natCast] at hn
    generalize hm : min buf.bytes.length (BUFFER_SIZE - off) = n at hn ⊢
    have hn1 : n ≤ buf.bytes.length := by omega
    have hn2 : off + n ≤ BUFFER_SIZE := by omega
    have hcopy : ∀ w ∈ Buf.copyTo off n (buf.image n), (off : Int) ≤ w.1 ∧ w.1 < off + n :=
      Buf.copyTo_between
    by_cases hf : min buf.missed n = 0
    · have hi : int32 (n : Int) = n := int32_count (by omega)
      have hp : loffT ((off : Int) + n) = off + n := by
        simp only [BUFFER_SIZE] at hn2
        exact loffT_of_lt (by omega) (by omega)
      rw [toggleWrite_ok x v buf _ off ho hn hf rfl, hi, hp]
      exact ⟨hn2, fun _ => rfl, Buf.take_copied_ok _ hf hn1 hn2, hcopy⟩
    · rw [toggleWrite_fault x v buf _ off ho hn hf]
      refine ⟨h, fun hc => absurd hc (show ¬ (0 : Int) ≤ -EFAULT by decide), ?_,
        hcopy⟩
      show ((v.writeBuffer.copied buf n off).bytes.take off) = _
      rw [Buf.take_copied]
      exact (List.append_nil _).symm

/-! ## Every run -/

variable (x : Texts)

theorem toggleRead_off (v : Dev Vars) (buf : UserDst) (len : Nat) (off : Int) :
    ((toggleRead x buf len off).run { dev := v }).1.2 = off ∧
      ((toggleRead x buf len off).run { dev := v }).2.out.stores = [] := by
  by_cases h : v.vars.exit = 0
  · by_cases hf : min buf.missed v.kernelBuffer.strlen = 0
    · rw [toggleRead_ok x v buf len off h rfl hf]; exact ⟨rfl, rfl⟩
    · rw [toggleRead_fault x v buf len off h rfl hf]; exact ⟨rfl, rfl⟩
  · rw [toggleRead_eof x v buf len off h]; exact ⟨rfl, rfl⟩

/-- What holds of the writing session `k` after any calls. -/
structure Accum (k : Nat) (cs : List Call) : Prop where
  pos : ((driver x).after cs).pos k = total ((driver x).steps cs)
  le : total ((driver x).steps cs) ≤ BUFFER_SIZE
  bytes : ((driver x).after cs).dev.writeBuffer.bytes.take (total ((driver x).steps cs)) =
    accepted ((driver x).steps cs)
  fresh : k ∉ ((driver x).after cs).used → total ((driver x).steps cs) = 0

variable {x}

/-- A call that accepts nothing and leaves the offset, the name and
`write_buffer` alone. -/
theorem accum_keep {k : Nat} {cs : List Call} (h : Accum x k cs) {c : Call} {s' : Sys Vars}
    (hs : ((driver x).step ((driver x).after cs) c).1 = s')
    (hc : count (Run.stepOf (driver x).step ((driver x).after cs) c) = 0)
    (ht : taken (Run.stepOf (driver x).step ((driver x).after cs) c) = [])
    (hp : s'.pos k = ((driver x).after cs).pos k)
    (hu : k ∉ s'.used → k ∉ ((driver x).after cs).used)
    (hb : s'.dev.writeBuffer = ((driver x).after cs).dev.writeBuffer) : Accum x k (cs ++ [c]) := by
  subst hs
  have ha : (driver x).after (cs ++ [c]) = ((driver x).step ((driver x).after cs) c).1 :=
    Run.after_snoc _ _ _
  have htot : total ((driver x).steps (cs ++ [c])) = total ((driver x).steps cs) := by
    rw [Driver.steps, Run.steps_snoc, total_snoc, hc]; rfl
  have hacc : accepted ((driver x).steps (cs ++ [c])) = accepted ((driver x).steps cs) := by
    rw [Driver.steps, Run.steps_snoc, accepted_snoc, ht, List.append_nil]
  refine ⟨?_, ?_, ?_, fun hf => ?_⟩
  · rw [htot, ha, hp]; exact h.pos
  · rw [htot]; exact h.le
  · rw [htot, hacc, ha, hb]; exact h.bytes
  · rw [ha] at hf
    rw [htot]; exact h.fresh (hu hf)

/-- The session's own open: nothing has been accepted yet. -/
theorem accum_opn {k : Nat} {cs : List Call} (h : Accum x k cs) : Accum x k (cs ++ [.opn k]) := by
  have hb : ((driver x).step ((driver x).after cs) (.opn k)).1.dev.writeBuffer =
      ((driver x).after cs).dev.writeBuffer :=
    (frames_writeBuffer x _).step (c := .opn k) rfl fun m at? buf e => by cases e
  by_cases hu : k ∈ ((driver x).after cs).used
  · have hs := congrArg Prod.fst (Driver.step_opn_of_used (d := driver x) hu)
    exact accum_keep h hs rfl rfl rfl id rfl
  · refine accum_keep h rfl rfl rfl ?_ (fun _ => hu) hb
    rw [Driver.step_opn (driver_opens x) hu, h.pos, h.fresh hu]
    exact Function.update_self _ _ _

/-- What a write of the session does: it works at the offset that counts what has
been accepted. -/
theorem accum_own {k : Nat} {cs : List Call} (h : Accum x k cs)
    (ho : k ∈ ((driver x).after cs).opens) {buf : UserSrc} (hl : buf.bytes.length ≤ MAX_RW_COUNT) :
    ∃ r : (Int × Int) × CallSt Vars,
      (driver x).step ((driver x).after cs) (.write k none buf) =
        ({ (driver x).after cs with
            dev := r.2.dev, pos := ((driver x).after cs).newPos k none r.1.1 r.1.2 },
          ⟨true, r.1.1, r.2.out⟩) ∧
      total ((driver x).steps cs) + r.1.1.toNat ≤ BUFFER_SIZE ∧
      (0 ≤ r.1.1 → r.1.2 = total ((driver x).steps cs) + r.1.1.toNat) ∧
      r.2.dev.writeBuffer.bytes.take (total ((driver x).steps cs) + r.1.1.toNat) =
        accepted ((driver x).steps cs) ++ buf.bytes.take r.1.1.toNat ∧
      ∀ w ∈ r.2.out.stores, (total ((driver x).steps cs) : Int) ≤ w.1 ∧
        w.1 < total ((driver x).steps cs) +
          clamped buf.bytes.length (total ((driver x).steps cs)) := by
  have hoff : ((driver x).after cs).offset k none = (total ((driver x).steps cs) : Int) := h.pos
  generalize hr : ((driver x).write buf buf.bytes.length (total ((driver x).steps cs))).run
    { dev := ((driver x).after cs).dev } = r
  have hr' := hr
  rw [← hoff] at hr'
  obtain ⟨hle, hpos, hbytes, hst⟩ := toggleWrite_accum x _ buf h.le hl hr
  rw [h.bytes] at hbytes
  exact ⟨r, Driver.step_write ho hr', hle, hpos, hbytes, hst⟩

/-- The session's own write. -/
theorem accum_write {k : Nat} {cs : List Call} (h : Accum x k cs) {buf : UserSrc}
    (hl : buf.bytes.length ≤ MAX_RW_COUNT) : Accum x k (cs ++ [.write k none buf]) := by
  by_cases ho : k ∈ ((driver x).after cs).opens
  swap
  · have hs : (driver x).step ((driver x).after cs) (.write k none buf) = _ :=
      Driver.step_write_of_closed ho
    refine accum_keep h (congrArg Prod.fst hs) ?_ ?_ rfl id rfl
    · simp only [count, Run.stepOf, hs]; rfl
    · simp only [taken, Run.stepOf, hs]; rfl
  have ha : (driver x).after (cs ++ [.write k none buf]) =
      ((driver x).step ((driver x).after cs) (.write k none buf)).1 := Run.after_snoc _ _ _
  obtain ⟨r, hs, hle, hpos, hbytes, -⟩ := accum_own h ho hl
  have htot : total ((driver x).steps (cs ++ [.write k none buf])) =
      total ((driver x).steps cs) + r.1.1.toNat := by
    rw [Driver.steps, Run.steps_snoc, total_snoc]
    simp only [count, Run.stepOf, hs]
  have hacc : accepted ((driver x).steps (cs ++ [.write k none buf])) =
      accepted ((driver x).steps cs) ++ buf.bytes.take r.1.1.toNat := by
    rw [Driver.steps, Run.steps_snoc, accepted_snoc]
    simp only [taken, Run.stepOf, hs]
  refine ⟨?_, ?_, ?_, fun hf => ?_⟩
  · rw [htot, ha, hs]
    show ((driver x).after cs).newPos k none r.1.1 r.1.2 k = _
    by_cases h0 : 0 ≤ r.1.1
    · rw [Sys.newPos_own _ _ h0, hpos h0, Nat.cast_add]
    · have hz : r.1.1.toNat = 0 := by omega
      rw [Sys.newPos, if_neg fun hc => h0 hc.2, hz]
      exact h.pos
  · rw [htot]; exact hle
  · rw [htot, hacc, ha, hs]; exact hbytes
  · rw [ha, hs] at hf
    exact absurd (Driver.opens_subset_used (driver_opens x) cs ho) hf

theorem writeBuffer_keep {s : Sys Vars} {c : Call} (hc : ∀ m at? buf, c ≠ .write m at? buf) :
    ((driver x).step s c).1.dev.writeBuffer = s.dev.writeBuffer :=
  (frames_writeBuffer x _).step rfl fun m at? buf e => absurd e (hc m at? buf)

/-- The session's own close. -/
theorem accum_close {k : Nat} {cs : List Call} (h : Accum x k cs) : Accum x k (cs ++ [.close k]) := by
  refine accum_keep h rfl rfl rfl ?_ ?_ (writeBuffer_keep fun _ _ _ e => by cases e)
  · by_cases ho : k ∈ ((driver x).after cs).opens
    · rw [Driver.step_close ho]
    · rw [Driver.step_close_of_closed ho]
  · by_cases ho : k ∈ ((driver x).after cs).opens
    · rw [Driver.step_close ho]; exact id
    · rw [Driver.step_close_of_closed ho]; exact id

/-- A read leaves the offsets. -/
theorem pos_read (s : Sys Vars) (k : Nat) (at? : Option Int) (buf : UserDst) (len : Nat) :
    ((driver x).step s (.read k at? buf len)).1.pos = s.pos := by
  by_cases ho : k ∈ s.opens
  · have hoff := (toggleRead_off x s.dev buf len (s.offset k at?)).1
    rw [Driver.step_read ho rfl]
    show s.newPos k at? _ ((toggleRead x buf len (s.offset k at?)).run { dev := s.dev }).1.2 = s.pos
    rw [hoff]
    unfold Sys.newPos
    split
    · rename_i hat
      rw [hat.1]
      exact Function.update_eq_self _ _
    · rfl
  · rw [Driver.step_read_of_closed ho]

/-- The session's own read, which leaves the offset where it is. -/
theorem accum_read {k : Nat} {cs : List Call} (h : Accum x k cs) (at? : Option Int) (buf : UserDst)
    (len : Nat) : Accum x k (cs ++ [.read k at? buf len]) := by
  by_cases ho : k ∈ ((driver x).after cs).opens
  swap
  · have hs : ((driver x).step ((driver x).after cs) (.read k at? buf len)).1 = _ :=
      congrArg Prod.fst (Driver.step_read_of_closed ho)
    exact accum_keep h hs rfl rfl rfl id rfl
  have hs : ((driver x).step ((driver x).after cs) (.read k at? buf len)).1 = _ :=
    congrArg Prod.fst (Driver.step_read ho rfl)
  refine accum_keep h hs rfl rfl ?_ id ?_
  · have hp := congrFun (pos_read (x := x) ((driver x).after cs) k at? buf len) k
    exact (congrArg (fun s : Sys Vars => s.pos k) hs).symm.trans hp
  · have hb := writeBuffer_keep (x := x) (s := (driver x).after cs) (c := .read k at? buf len)
      fun _ _ _ e => by cases e
    exact (congrArg (fun s : Sys Vars => s.dev.writeBuffer) hs).symm.trans hb

/-- The call of another session, which is no write. -/
theorem accum_aside {k : Nat} {cs : List Call} (h : Accum x k cs) {c : Call} (hk : c.session ≠ k)
    (hn : ∀ m at? buf, c ≠ .write m at? buf) : Accum x k (cs ++ [c]) := by
  have hd := driver_opens x
  have hused := (Driver.status_eq_iff.mp (Driver.status_of_ne (s := (driver x).after cs) hd hk)).2
  refine accum_keep h rfl ?_ ?_ (Driver.pos_of_ne hd hk) (fun hf hu => hf (hused.mpr hu))
    (writeBuffer_keep hn)
  · cases c with
    | opn m | close m | read m at? buf len => rfl
    | write m at? buf => exact absurd rfl (hn m at? buf)
  · cases c with
    | opn m | close m | read m at? buf len => rfl
    | write m at? buf => exact absurd rfl (hn m at? buf)

theorem accum_snoc {k : Nat} {cs : List Call} (h : Accum x k cs) {c : Call} (hc : c.Admitted)
    (hw : ∀ m at? buf, c = .write m at? buf → m = k ∧ at? = none) : Accum x k (cs ++ [c]) := by
  by_cases hk : c.session = k
  · cases c with
    | opn m =>
      obtain rfl : m = k := hk
      exact accum_opn h
    | close m =>
      obtain rfl : m = k := hk
      exact accum_close h
    | read m at? buf len =>
      obtain rfl : m = k := hk
      exact accum_read h at? buf len
    | write m at? buf =>
      obtain ⟨rfl, rfl⟩ := hw m at? buf rfl
      exact accum_write h hc.1
  · exact accum_aside h hk fun m at? buf e => hk (by rw [e]; exact (hw m at? buf e).1)

theorem accum_after {k : Nat} {cs : List Call} (hc : ∀ c ∈ cs, c.Admitted) (hw : WritesAlone k cs) :
    Accum x k cs := by
  induction cs using List.reverseRecOn with
  | nil => exact ⟨rfl, Nat.zero_le _, rfl, fun _ => rfl⟩
  | append_singleton cs c ih =>
    have hl : ∀ c' ∈ cs, c' ∈ cs ++ [c] := fun _ h => List.mem_append_left _ h
    have hr : c ∈ cs ++ [c] := List.mem_append_right _ List.mem_cons_self
    refine accum_snoc (ih (fun c' h => hc c' (hl c' h)) fun m at? buf h => hw m at? buf (hl _ h))
      (hc c hr) fun m at? buf e => hw m at? buf (by rw [← e]; exact hr)

/-- Only writes store anything. -/
theorem leaves_nothing (x : Texts) : (driver x).Leaves fun o => o.stores = [] where
  nothing := rfl
  opn v := by
    show ((toggleOpen x).run _).2.out.stores = []
    rw [toggleOpen_run]
  release v := by
    show ((toggleClose x).run _).2.out.stores = []
    rw [toggleClose_run]
  read v buf len off := (toggleRead_off x v buf len off).2

/-- Every call of such a run stores where it should. -/
theorem within_step {k : Nat} {cs : List Call} (h : Accum x k cs) {c : Call} (hc : c.Admitted)
    (hw : ∀ m at? buf, c = .write m at? buf → m = k ∧ at? = none) :
    Within (Run.stepOf (driver x).step ((driver x).after cs) c) := by
  cases c with
  | opn m => exact (leaves_nothing x).step (c := .opn m) fun _ _ _ e => by cases e
  | close m => exact (leaves_nothing x).step (c := .close m) fun _ _ _ e => by cases e
  | read m at? buf len =>
    exact (leaves_nothing x).step (c := .read m at? buf len) fun _ _ _ e => by cases e
  | write m at? buf =>
    obtain ⟨rfl, rfl⟩ := hw m at? buf rfl
    have hlen : buf.bytes.length ≤ MAX_RW_COUNT := hc.1
    have hle := h.le
    have hcl := clamped_eq hle hlen
    show (sizeT (buf.bytes.length + ((driver x).after cs).pos m) : Int) =
        buf.bytes.length + ((driver x).after cs).pos m ∧
      ((driver x).after cs).pos m + clamped buf.bytes.length (((driver x).after cs).pos m) ≤
        BUFFER_SIZE ∧
      ∀ w ∈ ((driver x).step ((driver x).after cs) (.write m none buf)).2.out.stores,
        ((driver x).after cs).pos m ≤ w.1 ∧ w.1 <
          ((driver x).after cs).pos m + clamped buf.bytes.length (((driver x).after cs).pos m)
    rw [h.pos]
    refine ⟨?_, ?_, fun w hst => ?_⟩
    · simp only [BUFFER_SIZE, MAX_RW_COUNT] at hle hlen
      exact sizeT_of_lt (by omega) (by omega)
    · rw [hcl]; omega
    · by_cases ho : m ∈ ((driver x).after cs).opens
      · obtain ⟨r, hs, -, -, -, hstores⟩ := accum_own h ho hlen
        rw [hs] at hst
        exact hstores w hst
      · simp only [Driver.step_write_of_closed (d := driver x) ho] at hst
        cases hst

theorem accumulates_of (x : Texts) {k : Nat} {cs : List VfsCall} (hw : WritesAlone k (vfs cs)) :
    Accumulates (driver x) k (vfs cs) := by
  have h := accum_after (x := x) (Driver.vfs_admitted cs) hw
  have hn : ((driver x).after (vfs cs)).pos k = (total ((driver x).steps (vfs cs)) : Int) := h.pos
  refine ⟨hn, ?_, ?_, fun t ht => ?_⟩
  · rw [hn]; exact_mod_cast h.le
  · rw [hn, Int.toNat_natCast]; exact h.bytes
  · obtain ⟨js, c, ks, e, rfl⟩ := Run.mem_steps.mp ht
    have hj := vfs_admitted_of_eq e
    have hin : ∀ c' ∈ js ++ [c], c' ∈ vfs cs := fun c' hc' => by
      rw [e, ← List.singleton_append, ← List.append_assoc]
      exact List.mem_append_left _ hc'
    have hwj : WritesAlone k js := fun m at? buf hm =>
      hw m at? buf (hin _ (List.mem_append_left _ hm))
    refine within_step (accum_after (fun c' hc' => hj c' (List.mem_append_left _ hc')) hwj)
      (hj c (List.mem_append_right _ List.mem_cons_self)) fun m at? buf ec => hw m at? buf (hin _ ?_)
    rw [← ec]
    exact List.mem_append_right _ List.mem_cons_self

/-- The three drivers, every run of calls the VFS lets through in which one
session does all the writing, through its own offset. -/
theorem accumulates (k : Nat) (cs : List VfsCall) (hw : WritesAlone k (vfs cs)) :
    Accumulates luffy k (vfs cs) ∧ Accumulates madre k (vfs cs) ∧ Accumulates chaleco k (vfs cs) :=
  ⟨accumulates_of luffyTexts hw, accumulates_of madreTexts hw, accumulates_of chalecoTexts hw⟩

/-- A write that is accepted, one that fails half-way, and one that is accepted. -/
theorem accumulates_around_fault :
    ∃ cs : List VfsCall, vfs cs = [.opn 0, .write 0 none ⟨[0x68, 0x6f], 0, []⟩,
        .write 0 none ⟨[0x78, 0x78], 1, [some 0x78]⟩, .write 0 none ⟨[0x79], 0, []⟩] ∧
      (luffy.after (vfs cs)).dev.writeBuffer.bytes.take ((luffy.after (vfs cs)).pos 0).toNat =
        accepted (luffy.steps (vfs cs)) := by
  have hw : ∀ b : UserSrc, b.bytes.length ≤ 2 → (Call.write 0 none b).Admitted := fun b hb =>
    ⟨hb.trans (by decide), fun p hp => by cases hp⟩
  refine ⟨[⟨.opn 0, trivial⟩, ⟨_, hw ⟨[0x68, 0x6f], 0, []⟩ (by decide)⟩,
    ⟨_, hw ⟨[0x78, 0x78], 1, [some 0x78]⟩ (by decide)⟩, ⟨_, hw ⟨[0x79], 0, []⟩ (by decide)⟩], rfl, ?_⟩
  refine (accumulates 0 _ fun m at? buf hm => ?_).1.2.2.1
  simp only [List.map_cons, List.map_nil, List.mem_cons, List.not_mem_nil, or_false, Call.write.injEq,
    reduceCtorEq, false_or] at hm
  rcases hm with ⟨rfl, rfl, -⟩ | ⟨rfl, rfl, -⟩ | ⟨rfl, rfl, -⟩ <;> exact ⟨rfl, rfl⟩

end SO.Proof.Toggle
