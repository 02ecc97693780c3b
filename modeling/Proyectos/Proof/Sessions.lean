import Proyectos.Kernel.Vfs
import Mathlib.Data.List.Induction

/-!
# Sessions, whatever the driver

What holds of a device and its sessions for any driver. `Keeps` is the
invariant rule: what the driver's four functions keep of its variables holds
after every run (`Keeps.after`). `Frames` and `Leaves` are for what all of them
but `write` keep and leave behind. Whether a session is open depends on its own
calls only (`mem_opens_own`), so the reads of a session that reach the driver
are those that would reach it alone (`readers_own`).
-/

namespace SO.Driver

variable {σ : Type} {d : Driver σ}

/-! ## Invariants of the driver's variables -/

/-- What every function but `write` keeps of the driver's variables. -/
structure Frames (d : Driver σ) (I : Dev σ → Prop) : Prop where
  opn : ∀ v, I v → I (d.opn.run { dev := v }).2.dev
  release : ∀ v, I v → I (d.release.run { dev := v }).2.dev
  read : ∀ v buf len off, I v → I ((d.read buf len off).run { dev := v }).2.dev

/-- What holds of the driver's variables at load and is kept by its functions. -/
structure Keeps (d : Driver σ) (I : Dev σ → Prop) : Prop extends Frames d I where
  init : I d.init
  write : ∀ v buf off, I v → I ((d.write buf buf.bytes.length off).run { dev := v }).2.dev

variable {I : Dev σ → Prop}

theorem Frames.step (h : d.Frames I) {s : Sys σ} (hs : I s.dev) {c : Call}
    (hw : ∀ k at? buf, c = .write k at? buf → k ∈ s.opens →
      I ((d.write buf buf.bytes.length (s.offset k at?)).run { dev := s.dev }).2.dev) :
    I (d.step s c).1.dev := by
  have ho := d.step_outcome s c
  generalize d.step s c = r at ho
  cases ho with
  | refused => exact hs
  | opn _ hr | notOpened _ hr => rw [← hr]; exact h.opn _ hs
  | close _ hr => rw [← hr]; exact h.release _ hs
  | read _ hr => rw [← hr]; exact h.read _ _ _ _ hs
  | write hk hr => rw [← hr]; exact hw _ _ _ rfl hk

theorem Keeps.step (h : d.Keeps I) {s : Sys σ} (hs : I s.dev) (c : Call) : I (d.step s c).1.dev :=
  h.toFrames.step hs fun _ _ buf _ _ => h.write _ buf _ hs

theorem Keeps.after (h : d.Keeps I) (cs : List Call) : I (d.after cs).dev :=
  Run.inv_after (I := fun s : Sys σ => I s.dev) (P := fun _ => True) (fun _ c hs _ => h.step hs c)
    h.init fun _ _ => trivial

/-- What the functions but `write` leave behind. -/
structure Leaves (d : Driver σ) (O : Out → Prop) : Prop where
  nothing : O {}
  opn : ∀ v, O (d.opn.run { dev := v }).2.out
  release : ∀ v, O (d.release.run { dev := v }).2.out
  read : ∀ v buf len off, O ((d.read buf len off).run { dev := v }).2.out

variable {O : Out → Prop}

theorem Leaves.step (h : d.Leaves O) {s : Sys σ} {c : Call}
    (hw : ∀ k at? buf, c = .write k at? buf → k ∈ s.opens →
      O ((d.write buf buf.bytes.length (s.offset k at?)).run { dev := s.dev }).2.out) :
    O (d.step s c).2.out := by
  have ho := d.step_outcome s c
  generalize d.step s c = r at ho
  cases ho with
  | refused => exact h.nothing
  | opn _ hr | notOpened _ hr => rw [← hr]; exact h.opn _
  | close _ hr => rw [← hr]; exact h.release _
  | read _ hr => rw [← hr]; exact h.read _ _ _ _
  | write hk hr => rw [← hr]; exact hw _ _ _ rfl hk

/-! ## Open sessions -/

/-- The driver never refuses to be opened. -/
def Opens (d : Driver σ) : Prop := ∀ v, (d.opn.run { dev := v }).1 = 0

theorem step_opn (hd : d.Opens) {s : Sys σ} {k : Nat} (h : k ∉ s.used) : d.step s (.opn k) =
    ({ dev := (d.opn.run { dev := s.dev }).2.dev, opens := insert k s.opens, used := insert k s.used
       pos := Function.update s.pos k 0 }, ⟨true, 0, (d.opn.run { dev := s.dev }).2.out⟩) := by
  simp only [step, if_neg h, hd s.dev, ite_true]

theorem step_opn_of_used {s : Sys σ} {k : Nat} (h : k ∈ s.used) :
    d.step s (.opn k) = (s, .badf) := if_pos h

/-- Open sessions have been opened. -/
theorem opens_subset_used (hd : d.Opens) (cs : List Call) :
    (d.after cs).opens ⊆ (d.after cs).used := by
  refine Run.inv_after (I := fun s : Sys σ => s.opens ⊆ s.used) (P := fun _ => True) ?_
    (Finset.Subset.refl _) fun _ _ => trivial
  intro s c hs _
  have ho := d.step_outcome s c
  generalize d.step s c = r at ho
  cases ho with
  | refused | read | write => exact hs
  | opn => exact Finset.insert_subset_insert _ hs
  | notOpened _ hr h0 => exact absurd (hr ▸ hd s.dev) h0
  | close => exact (Finset.erase_subset _ _).trans hs

/-- A session's place: whether it is open and whether its name is used. -/
def status (s : Sys σ) (k : Nat) : Bool × Bool := (decide (k ∈ s.opens), decide (k ∈ s.used))

/-- What a session's own call does to its place. -/
def statusStep (p : Bool × Bool) : Call → Bool × Bool
  | .opn _ => if p.2 then p else (true, true)
  | .close _ => (false, p.2)
  | _ => p

theorem status_step (hd : d.Opens) (s : Sys σ) (c : Call) (k : Nat) :
    status (d.step s c).1 k = if c.session = k then statusStep (status s k) c else status s k := by
  have ho := d.step_outcome s c
  generalize d.step s c = r at ho
  cases ho with
  | @refused c h =>
    cases c with
    | opn m =>
      have hm : m ∈ s.used := h
      by_cases e : m = k
      · subst e; simp [status, statusStep, hm]
      · simp [Call.session, e]
    | close m =>
      have hm : m ∉ s.opens := h
      by_cases e : m = k
      · subst e; simp [status, statusStep, hm, Call.session]
      · simp [Call.session, e]
    | read m at? buf len | write m at? buf => exact (ite_self _).symm
  | @opn m _ hm =>
    by_cases e : m = k
    · subst e; simp [status, statusStep, hm, Call.session]
    · simp [status, Call.session, e, Ne.symm e]
  | notOpened _ hr h0 => exact absurd (hr ▸ hd s.dev) h0
  | @close m =>
    by_cases e : m = k
    · subst e; simp [status, statusStep, Call.session]
    · simp [status, Call.session, e, Ne.symm e]
  | read | write => exact (ite_self _).symm

/-- The others' calls leave a session's place. -/
theorem status_of_ne (hd : d.Opens) {s : Sys σ} {c : Call} {k : Nat} (h : c.session ≠ k) :
    status (d.step s c).1 k = status s k := by
  rw [status_step hd, if_neg h]

theorem status_eq_iff {s s' : Sys σ} {k : Nat} : status s k = status s' k ↔
    (k ∈ s.opens ↔ k ∈ s'.opens) ∧ (k ∈ s.used ↔ k ∈ s'.used) := by
  simp only [status, Prod.mk.injEq, decide_eq_decide]

/-- The calls of session `k`. -/
def own (k : Nat) (cs : List Call) : List Call := cs.filter (·.session = k)

theorem own_snoc (k : Nat) (cs : List Call) (c : Call) :
    own k (cs ++ [c]) = own k cs ++ if c.session = k then [c] else [] := by
  rw [own, List.filter_append]
  by_cases h : c.session = k <;> simp [own, h]

/-- A session's place depends on its own calls only. -/
theorem status_own (hd : d.Opens) (k : Nat) (cs : List Call) :
    status (d.after (own k cs)) k = status (d.after cs) k := by
  induction cs using List.reverseRecOn with
  | nil => rfl
  | append_singleton cs c ih =>
    rw [own_snoc, after, after, Run.after_snoc, status_step hd]
    by_cases h : c.session = k
    · rw [if_pos h, if_pos h, Run.after_snoc, status_step hd, if_pos h, ih]
    · rw [if_neg h, if_neg h, List.append_nil, ih]

theorem mem_opens_own (hd : d.Opens) (k : Nat) (cs : List Call) :
    k ∈ (d.after (own k cs)).opens ↔ k ∈ (d.after cs).opens := by
  have h := congrArg Prod.fst (status_own hd k cs)
  simpa [status] using h

/-! ## Reads -/

/-- The session whose read the step is, if it reached the driver. -/
def reader (t : SO.Step (Sys σ) Call Event) : Option Nat :=
  match t.inp with
  | .read k _ _ _ => if k ∈ t.pre.opens then some k else none
  | _ => none

/-- The sessions that read, in the order of their reads. -/
def readers (d : Driver σ) (cs : List Call) : List Nat := (d.steps cs).filterMap reader

/-- The reply to session `k`'s read, if the step is one: the value returned and
the bytes delivered. -/
def replyTo (k : Nat) (t : SO.Step (Sys σ) Call Event) : Option (Int × List UInt8) :=
  if reader t = some k then some (t.out.ret, t.out.out.user) else none

/-- The replies session `k` gets to its reads. -/
def replies (d : Driver σ) (k : Nat) (cs : List Call) : List (Int × List UInt8) :=
  (d.steps cs).filterMap (replyTo k)

/-- If the step is a read, it returned at most the length asked for and delivered
no more bytes than that. -/
def Fits (t : SO.Step (Sys σ) Call Event) : Prop :=
  match t.inp with
  | .read _ _ _ len => t.out.ret ≤ len ∧ t.out.out.user.length ≤ len
  | _ => True

/-- A read on a session that is not open. -/
theorem fits_of_closed {s : Sys σ} {k : Nat} (h : k ∉ s.opens) (at? : Option Int) (buf : UserDst)
    (len : Nat) : Fits (Run.stepOf d.step s (.read k at? buf len)) := by
  rw [Fits, Run.stepOf, step_read_of_closed h]
  exact ⟨(show (-EBADF : Int) ≤ 0 by decide).trans (Int.natCast_nonneg len), Nat.zero_le _⟩

/-- The step is a read that reaches the driver, and `p` holds of it. -/
def ReadIn (p : Dev σ → UserDst → Nat → Int → Prop) (t : SO.Step (Sys σ) Call Event) : Prop :=
  match t.inp with
  | .read k at? buf len => k ∈ t.pre.opens ∧ p t.pre.dev buf len (t.pre.offset k at?)
  | _ => False

/-- Every run: the reads stay within their buffers just if none of them is one of
those, `short`, that do not. -/
theorem fits_iff (hI : d.Keeps I) {short : Dev σ → UserDst → Nat → Int → Prop}
    (h : ∀ v buf len off, I v → (((d.read buf len off).run { dev := v }).1.1 ≤ len ∧
      ((d.read buf len off).run { dev := v }).2.out.user.length ≤ len ↔ ¬ short v buf len off))
    (cs : List Call) : (∀ t ∈ d.steps cs, Fits t) ↔ ∀ t ∈ d.steps cs, ¬ ReadIn short t := by
  refine forall_congr' fun t => imp_congr_right fun ht => ?_
  obtain ⟨js, c, ks, -, rfl⟩ := Run.mem_steps.mp ht
  cases c with
  | opn k | close k | write k at? buf => exact iff_of_true trivial id
  | read k at? buf len =>
    by_cases hk : k ∈ (d.after js).opens
    · have hg : ReadIn short (Run.stepOf d.step (d.after js) (.read k at? buf len)) ↔
          short (d.after js).dev buf len ((d.after js).offset k at?) := and_iff_right hk
      rw [hg, Fits, Run.stepOf, step_read hk rfl]
      exact h _ _ _ _ (hI.after js)
    · exact iff_of_true (fits_of_closed hk at? buf len) fun h => hk h.1

theorem readers_snoc (cs : List Call) (c : Call) :
    readers d (cs ++ [c]) = readers d cs ++ (reader (Run.stepOf d.step (d.after cs) c)).toList := by
  rw [readers, steps, Run.steps_snoc, List.filterMap_append, readers]
  cases h : reader (Run.stepOf d.step (d.after cs) c) <;> simp [h]

theorem replies_snoc (k : Nat) (cs : List Call) (c : Call) :
    replies d k (cs ++ [c]) = replies d k cs ++
      if reader (Run.stepOf d.step (d.after cs) c) = some k then
        [((d.step (d.after cs) c).2.ret, (d.step (d.after cs) c).2.out.user)] else [] := by
  rw [replies, steps, Run.steps_snoc, List.filterMap_append, replies]
  refine congrArg _ ?_
  by_cases h : reader (Run.stepOf d.step (d.after cs) c) = some k
  · have hr : replyTo k (Run.stepOf d.step (d.after cs) c) =
        some ((d.step (d.after cs) c).2.ret, (d.step (d.after cs) c).2.out.user) := if_pos h
    rw [if_pos h, List.filterMap_cons_some hr]; rfl
  · have hr : replyTo k (Run.stepOf d.step (d.after cs) c) = none := if_neg h
    rw [if_neg h, List.filterMap_cons_none hr]; rfl

theorem reader_session {t : SO.Step (Sys σ) Call Event} {k : Nat} (h : reader t = some k) :
    t.inp.session = k := by
  unfold reader at h
  split at h
  · rename_i m at? buf len e
    split at h <;> cases h
    rw [e]; rfl
  · cases h

/-- The reads of a session alone are its reads among the others'. -/
theorem readers_own (hd : d.Opens) (k : Nat) (cs : List Call) :
    readers d (own k cs) = (readers d cs).filter (· = k) := by
  induction cs using List.reverseRecOn with
  | nil => rfl
  | append_singleton cs c ih =>
    rw [own_snoc, readers_snoc, List.filter_append, ← ih]
    by_cases h : c.session = k
    · rw [if_pos h, readers_snoc]
      have hr : reader (Run.stepOf d.step (d.after (own k cs)) c) =
          reader (Run.stepOf d.step (d.after cs) c) := by
        cases c with
        | read m at? buf len =>
          obtain rfl : m = k := h
          exact if_congr (mem_opens_own hd m cs) rfl rfl
        | opn m | close m | write m at? buf => rfl
      rw [hr]
      congr 1
      cases e : reader (Run.stepOf d.step (d.after cs) c) with
      | none => rfl
      | some m =>
        obtain rfl : m = k := (reader_session e).symm.trans h
        simp
    · rw [if_neg h, List.append_nil]
      cases e : reader (Run.stepOf d.step (d.after cs) c) with
      | none => simp
      | some m =>
        have hm : m ≠ k := fun hm => h ((reader_session e).trans hm)
        simp [hm]

end SO.Driver
