import Proyectos.Framework.Races
import Proyectos.Proof.Toggle.Ways

/-!
# `luffy`, `madre` and `chaleco`: opens and writes that race

The three take no mutex: an open loads `device_open_count` and then stores it,
and a write does so with `stream`, the mode it toggles. So of the opens some may
not be counted, and of the toggles some may be lost; but no more than all but one
of each, and all else is possible (`races`).
-/

namespace SO.Access.Toggle

open SO.Impl.Toggle (Texts Vars)
open Thread (Free Leaves Updates)
open History (calls)

variable (x : Texts)

def isOpen : Fop → Bool
  | .opn => true
  | _ => false

def isWrite : Fop → Bool
  | .write _ _ => true
  | _ => false

theorem updates_open : Updates (·.vars.deviceOpenCount) (fun n => int32 (n + 1))
    ((fops x).code .opn) :=
  .load (fun _ => rfl) fun _ => .store (fun _ => rfl) fun _ => .ret trivial

theorem updates_write (buf : UserSrc) (off : Int) :
    Updates (·.vars.stream) (fun s => if s = 0 then 1 else 0) ((fops x).code (.write buf off)) := by
  have h : Updates (·.vars.stream) (fun s => if s = 0 then 1 else 0)
      ((toggleWrite x buf buf.bytes.length off).run {}) := by
    rw [toggleWrite_eq]
    refine .load (fun _ => rfl) fun d => .store (fun _ => rfl) fun _ => ?_
    exact Free.mono (yields_settled x (fun _ _ _ => ⟨rfl, trivial⟩) rfl rfl) fun _ _ => trivial
  exact h.bind fun _ => .ret trivial

section Leaves

variable {π : Type} {w : Vars → π}

theorem leaves_open (hw : ∀ v n, w { v with deviceOpenCount := n } = w v) :
    Leaves (w ·.vars) ((fops x).code .opn) :=
  Free.bind (yields_open x (Q := fun _ _ => True) (fun _ _ _ => ⟨hw _ _, trivial⟩)
    fun _ _ => trivial) fun _ _ => .ret trivial

theorem leaves_close : Leaves (w ·.vars) ((fops x).code .release) :=
  Free.bind (yields_close x (Q := fun _ _ => True) fun _ _ => trivial) fun _ _ => .ret trivial

theorem leaves_read (hw : ∀ v e, w { v with exit := e } = w v) (buf : UserDst) (len : Nat)
    (off : Int) : Leaves (w ·.vars) ((fops x).code (.read buf len off)) :=
  Free.bind (yields_read x buf len off (Q := fun _ _ => True) (fun _ _ _ => ⟨hw _ _, trivial⟩)
    trivial (fun _ _ _ _ _ _ _ => trivial) fun _ _ _ _ _ _ _ => trivial) fun _ _ => .ret trivial

theorem leaves_write (hw : ∀ v s, w { v with stream := s } = w v) (buf : UserSrc) (off : Int) :
    Leaves (w ·.vars) ((fops x).code (.write buf off)) :=
  Free.bind (yields_write x (fun _ _ _ => ⟨rfl, trivial⟩) fun _ _ _ => ⟨hw _ _, trivial⟩)
    fun _ _ => .ret trivial

end Leaves

/-- Opens count themselves, and nothing else does. -/
theorem racy_count : Racy (fops x).code (·.vars.deviceOpenCount) (fun n => int32 (n + 1)) isOpen where
  updates c hc := by
    cases c with
    | opn => exact updates_open x
    | _ => cases hc
  leaves c hc := by
    cases c with
    | opn => cases hc
    | release => exact leaves_close x (w := (·.deviceOpenCount))
    | read buf len off => exact leaves_read x (w := (·.deviceOpenCount)) (fun _ _ => rfl) buf len off
    | write buf off => exact leaves_write x (w := (·.deviceOpenCount)) (fun _ _ => rfl) buf off

/-- Writes toggle the mode, and nothing else does. -/
theorem racy_stream : Racy (fops x).code (·.vars.stream) (fun s => if s = 0 then 1 else 0) isWrite where
  updates c hc := by
    cases c with
    | write buf off => exact updates_write x buf off
    | _ => cases hc
  leaves c hc := by
    cases c with
    | opn => exact leaves_open x (w := (·.stream)) fun _ _ => rfl
    | release => exact leaves_close x (w := (·.stream))
    | read buf len off => exact leaves_read x (w := (·.stream)) (fun _ _ => rfl) buf len off
    | write buf off => cases hc

theorem count_iterate (j : Nat) : (fun n => int32 (n + 1))^[j] 0 = int32 j := by
  induction j with
  | zero => rfl
  | succ j ih =>
    rw [Function.iterate_succ_apply', ih, int32, int32, Int.bmod_add_bmod]
    rfl

theorem stream_iterate (i : Nat) :
    (fun s : Int => if s = 0 then 1 else 0)^[i] 0 = (i % 2 : Nat) := by
  induction i with
  | zero => rfl
  | succ i ih =>
    rw [Function.iterate_succ_apply', ih]
    rcases Nat.mod_two_eq_zero_or_one i with h | h
    · have h' : (i + 1) % 2 = 1 := by omega
      simp only [h, h', Nat.cast_zero, if_true, Nat.cast_one]
    · have h' : (i + 1) % 2 = 0 := by omega
      simp only [h, h', Nat.cast_one, one_ne_zero, if_false, Nat.cast_zero]

/-! ## What they leave -/

section Run

variable (es : List (Sched Fop))

/-- The threads after the turns `es`. -/
abbrev threads : Threads (Dev Vars) Fop Reply := Run.after (Threads.move (fops x).code) (boot x) es

/-- The history of the turns `es`. -/
abbrev history : History (Dev Vars) Fop Reply := Run.steps (Threads.move (fops x).code) (boot x) es

end Run

/-- A run of opens. -/
theorem exists_opens {n j : Nat} (hj : Remain n j) : ∃ os, (∀ e ∈ os, e.Starts (· = .opn)) ∧
    calls (history x os) = List.replicate n .opn ∧ (∀ k, (threads x os).todo k = none) ∧
    (threads x os).shared.vars.deviceOpenCount = int32 j ∧
    (threads x os).shared.vars.stream = 0 := by
  have h0 : ∀ k, (boot x).todo k = none := fun _ => rfl
  obtain ⟨t, ⟨os, ho, hc, rfl⟩, ht, hv⟩ := exists_run (racy_count x) (c := .opn) rfl hj h0
  have hi : ∀ k, (threads x os).todo k = none := fun k => congrFun ht k
  refine ⟨os, ho, hc, hi, hv.trans (count_iterate j), ?_⟩
  refine view_of_none (racy_stream x) h0 hi fun c hm => ?_
  rw [hc] at hm
  rw [List.eq_of_mem_replicate hm]
  rfl

/-- A run of writes, from stream mode off. -/
theorem exists_writes {m i : Nat} (hi : Remain m i) (buf : UserSrc) (off : Int)
    {s : Threads (Dev Vars) Fop Reply} (h0 : ∀ k, s.todo k = none) (hs : s.shared.vars.stream = 0) :
    ∃ ws, (∀ e ∈ ws, e.Starts (· = .write buf off)) ∧
      calls (Run.steps (Threads.move (fops x).code) s ws) = List.replicate m (.write buf off) ∧
      (∀ k, (Run.after (Threads.move (fops x).code) s ws).todo k = none) ∧
      (Run.after (Threads.move (fops x).code) s ws).shared.vars.deviceOpenCount =
        s.shared.vars.deviceOpenCount ∧
      (Run.after (Threads.move (fops x).code) s ws).shared.vars.stream = (i % 2 : Nat) := by
  obtain ⟨u, ⟨ws, hw, hc, rfl⟩, hu, hv⟩ :=
    exists_run (racy_stream x) (c := .write buf off) rfl hi h0
  have hi : ∀ k, (Run.after (Threads.move (fops x).code) s ws).todo k = none := fun k => by
    rw [hu, h0]
  refine ⟨ws, hw, hc, hi, ?_, ?_⟩
  · refine view_of_none (racy_count x) h0 hi fun c hm => ?_
    rw [hc] at hm
    rw [List.eq_of_mem_replicate hm]
    rfl
  · rw [hs] at hv
    exact hv.trans (stream_iterate i)

/-- Once every call is over, `device_open_count` counts the opens, of which some may be
lost, but not all, and the writes have toggled the mode, of which the same is true; and
any such loss is that of some run, which opens first and writes then. -/
theorem races :
    (∀ es, (∀ e ∈ es, e.Starts Fop.Passed) → (∀ k, (threads x es).todo k = none) → ∃ j i,
      Remain ((calls (history x es)).countP isOpen) j ∧
      Remain ((calls (history x es)).countP isWrite) i ∧
      (threads x es).shared.vars.deviceOpenCount = int32 j ∧
      (threads x es).shared.vars.stream = (i % 2 : Nat)) ∧
    ∀ n j m i buf off, 0 < n → Remain n j → Remain m i → (Fop.write buf off).Passed → ∃ os ws,
      (∀ e ∈ os, e.Starts (· = .opn)) ∧ (∀ e ∈ ws, e.Starts (· = .write buf off)) ∧
      (∀ k, (threads x os).todo k = none) ∧ (∀ k, (threads x (os ++ ws)).todo k = none) ∧
      calls (history x (os ++ ws)) = List.replicate n .opn ++ List.replicate m (.write buf off) ∧
      (threads x (os ++ ws)).shared.vars.deviceOpenCount = int32 j ∧
      (threads x (os ++ ws)).shared.vars.stream = (i % 2 : Nat) := by
  constructor
  · intro es _ hi
    have h0 : ∀ k, (boot x).todo k = none := fun _ => rfl
    obtain ⟨j, hj, hc⟩ := view_of_idle (racy_count x) h0 hi
    obtain ⟨i, hi, hs⟩ := view_of_idle (racy_stream x) h0 hi
    exact ⟨j, i, hj, hi, hc.trans (count_iterate j), hs.trans (stream_iterate i)⟩
  · intro n j m i buf off _ hj hi _
    obtain ⟨os, ho, hco, hto, hcount, hstream⟩ := exists_opens x hj
    obtain ⟨ws, hw, hcw, htw, hcount', hstream'⟩ := exists_writes x hi buf off hto hstream
    refine ⟨os, ws, ho, hw, hto, ?_⟩
    rw [history, Run.steps_append, History.calls_append, hco, hcw, threads, Run.after_append]
    exact ⟨htw, rfl, hcount'.trans hcount, hstream'⟩

end SO.Access.Toggle
