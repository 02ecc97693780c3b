import Proyectos.Proof.Orion.Interleaved

/-!
# `orion`: the race for `exit_flag`

`orion_read` tests `stream` and sets `exit_flag` without `orion_mutex`, and a
directive `'1'` may run between the two: the flag it cleared is set again, and a
read in stream mode is told the file ends. That is the only way: in stream mode,
with `exit_flag` clear and no read between its test and its store, no read is told
so, in any interleaving that does not turn the mode off (`endless_iff`).
-/

namespace SO.Access.Orion

open SO.Impl.Orion (Vars driver)
open History (Begun)
open Thread (Free Each)

/-- The call does not turn stream mode off. -/
def KeepsOn : Fop → Prop
  | .write buf _ => ¬ (min buf.missed (min buf.bytes.length (BUFFER_SIZE - 1)) = 0 ∧
      buf.bytes.getD 0 0 = '0'.toUInt8)
  | _ => True

/-- Stream mode, with `exit_flag` clear. -/
def Streaming (v : Vars) : Prop := v.stream = 1 ∧ v.exitFlag = 0

theorem kept_streaming : Kept Streaming KeepsOn False where
  quiet _ h := ⟨h.1, rfl⟩
  count _ _ h := h
  on _ h := ⟨rfl, h.2⟩
  clear _ h := ⟨h.1, rfl⟩
  off _ _ hP hf h0 := absurd ⟨hf, h0⟩ hP
  arm v h h0 := absurd (h.1.symm.trans h0) (by decide)
  eof _ h he := he h.2

/-! ## What a read may have left -/

section Left

variable (buf : UserDst) (len : Nat) (off : Int)

/-- What a read has left keeps stream mode, or is about to set `exit_flag`. -/
def Left (p : Thread (Dev Vars) Reply) : Prop :=
  Free guarded (Shared Streaming) (fun _ => True) p ∨ ∃ n, p = arming buf off n

theorem free_testing (n : Nat) :
    Free guarded (Shared Streaming) (fun _ => True) (testing buf off n) := by
  refine .act (fun _ hs => ⟨rfl, hs⟩) fun s hs => ?_
  rw [if_neg (by rw [hs.1.1]; decide)]
  exact free_copying buf off fun _ _ => trivial

theorem free_ending : Free guarded (Shared Streaming) (fun _ => True) (ending off) :=
  .act (fun _ hs => ⟨rfl, ⟨hs.1.1, rfl⟩, hs.2⟩) fun _ _ => .ret trivial

theorem each_copying (n : Nat) : Each (Left buf off) (copying buf off n) := by
  refine .act (.inl (free_copying buf off fun _ _ => trivial)) fun d => ?_
  simp only [Thread.ret_bind]
  split <;> exact .ret (.inl (.ret trivial))

theorem each_read : Each (Left buf off) (fops.code (.read buf len off)) := by
  have hfree := (free_read buf len off kept_streaming).mono fun _ _ => trivial
  rw [code_read] at hfree ⊢
  refine .act (.inl hfree) fun d₀ => .act (.inl ?_) fun d => ?_
  · refine .act (fun _ hs => ⟨rfl, hs⟩) fun s hs => ?_
    rw [if_pos hs.1.2]
    exact free_testing buf off _
  · by_cases he : d.vars.exitFlag = 0
    · rw [if_pos he]
      refine .act (.inl (free_testing buf off _)) fun d => ?_
      split
      · exact .act (.inr ⟨_, rfl⟩) fun _ => each_copying buf off _
      · exact each_copying buf off _
    · rw [if_neg he]
      exact .act (.inl (free_ending off)) fun _ => .ret (.inl (.ret trivial))

end Left

/-! ## Runs from stream mode -/

/-- Thread `k`'s next access sets `exit_flag`. -/
def Armed (s : Threads (Dev Vars) Fop Reply) (k : Nat) : Prop :=
  ∃ c f q, s.todo k = some (c, .act f q) ∧ ∀ d, (f d).vars.exitFlag = 1

/-- What a call in flight has left, if it is a read. -/
def LeftOf : Fop → Thread (Dev Vars) Reply → Prop
  | .read buf _ off, p => Left buf off p
  | _, _ => True

theorem each_code (c : Fop) : Each (LeftOf c) (fops.code c) := by
  cases c with
  | read buf len off => exact each_read buf len off
  | _ => exact Thread.each_of_forall (fun _ => trivial) _

theorem exec_arming (buf : UserDst) (off : Int) (n : Nat) (d : Dev Vars) :
    ((arming buf off n).exec d).2.vars.exitFlag = 1 ∧
      ((arming buf off n).exec d).2.kernelBuffer = d.kernelBuffer := by
  rw [arming, Thread.exec_act, copying, run_copyToUser, Thread.act_bind, Thread.exec_act]
  simp only [Thread.ret_bind]
  split <;> exact ⟨rfl, rfl⟩

/-- A read that finds `exit_flag` set. -/
theorem exec_read_eof (buf : UserDst) (len : Nat) (off : Int) {d : Dev Vars}
    (h : d.vars.exitFlag ≠ 0) : ((fops.code (.read buf len off)).exec d).1 = ⟨0, some off, {}⟩ := by
  simp only [code_read, Thread.exec_act, id, if_neg h]
  rfl

section Run

variable {es₀ : List (Sched Fop)} {k : Nat} {c : Fop} {p : Thread (Dev Vars) Reply}

theorem leftOf_todo (h : (threads es₀).todo k = some (c, p)) : LeftOf c p :=
  (Threads.each_after (s := boot) each_code (fun _ _ _ h => nomatch h) es₀ h).self

variable (hs : Streaming (threads es₀).shared.vars)
  (hq : ∀ k c p, (threads es₀).todo k = some (c, p) → ¬ Guarded c)

theorem shared_kernel : (threads es₀).shared.kernelBuffer = .ofBytes Impl.Orion.message :=
  (Discipline.inv_after serial_boot (starts_any es₀)).2

include hq

/-- No call in flight can hold the mutex. -/
theorem holder_of_reads : (threads es₀).holder = none := by
  have h := Discipline.serial_after serial_boot (starts_any es₀)
  by_contra hn
  obtain ⟨k, hk⟩ := Option.ne_none_iff_exists'.mp hn
  obtain ⟨c, p, a, hp, hG, -⟩ := h.held k hk
  exact hq k c p hp hG

/-- With no read about to set `exit_flag`, stream mode lasts. -/
theorem serial_streaming (hs : Streaming (threads es₀).shared.vars)
    (ha : ∀ k, ¬ Armed (threads es₀) k) :
    (discipline kept_streaming).Serial (guarded (threads es₀).shared) [] (threads es₀) := by
  have hI : (discipline kept_streaming).I (threads es₀).shared := ⟨hs, shared_kernel⟩
  refine Discipline.serial_nil hI (holder_of_reads hq) fun k c p hk => ⟨hq k c p hk, ?_⟩
  cases c with
  | read buf len off =>
    rcases leftOf_todo hk with hp | ⟨n, rfl⟩
    · exact hp
    · exact absurd ⟨_, _, _, hk, fun _ => rfl⟩ (ha k)
  | _ => exact absurd trivial (hq k _ p hk)

/-- A read about to set `exit_flag`. -/
theorem arming_of_armed (hs : Streaming (threads es₀).shared.vars) (ha : Armed (threads es₀) k) :
    ∃ buf len off n, (threads es₀).todo k = some (.read buf len off, arming buf off n) := by
  obtain ⟨c, f, q, hk, hf⟩ := ha
  cases c with
  | read buf len off =>
    rcases leftOf_todo hk with hp | ⟨n, hn⟩
    · -- code that keeps stream mode does not set the flag
      have hv := (Thread.free_act hp ⟨hs, shared_kernel⟩).2.1.1.2
      rw [hf] at hv
      exact absurd hv (by decide)
    · exact ⟨buf, len, off, n, hn ▸ hk⟩
  | _ => exact absurd trivial (hq k _ _ hk)

/-- What a read about to set `exit_flag` leads to: its flag set, and so the next read told
that the file ends. -/
theorem eof_of_armed (hs : Streaming (threads es₀).shared.vars) (ha : Armed (threads es₀) k) :
    ∃ es, (∀ e ∈ es, e.Starts KeepsOn) ∧ ∃ l t,
      Run.steps (Threads.move fops.code) (threads es₀) es = l ++ [t] ∧ Begun l k ∧
        t.out = .returned k (.read {} 1 0) ⟨0, some 0, {}⟩ := by
  obtain ⟨buf, len, off, n, hk⟩ := arming_of_armed hq hs ha
  have hf : Free guarded (Shared fun _ => True) (fun _ => True) (arming buf off n) :=
    .act (fun _ h => ⟨rfl, trivial, h.2⟩) fun _ _ => free_copying buf off fun _ _ => trivial
  -- the read finishes, and the same thread reads again
  obtain ⟨n₁, h₁⟩ := Threads.alone_finish fops.code hf ⟨trivial, shared_kernel⟩ hk
  have hsh := exec_arming buf off n (threads es₀).shared
  obtain ⟨n₂, l, t, e, hb, ht⟩ := History.alone_call fops.code
    (s := Run.after (Threads.move fops.code) (threads es₀) (List.replicate n₁ (.step k)))
    (free_read {} 1 0 kept_any) (by rw [h₁]; exact ⟨trivial, hsh.2.trans shared_kernel⟩)
    (by rw [h₁]; exact Threads.finish_todo ..)
  refine ⟨List.replicate n₁ (.step k) ++ .start k (.read {} 1 0) :: List.replicate n₂ (.step k), ?_,
    Run.steps (Threads.move fops.code) (threads es₀) (List.replicate n₁ (.step k)) ++ l, t, ?_, ?_, ?_⟩
  · intro e' he
    rcases List.mem_append.mp he with h | h
    · obtain rfl := List.eq_of_mem_replicate h
      trivial
    · rcases List.mem_cons.mp h with rfl | h
      · trivial
      · obtain rfl := List.eq_of_mem_replicate h
        trivial
  · rw [Run.steps_append, e, ← List.append_assoc]
  · obtain ⟨u, hu, hc⟩ := hb
    exact ⟨u, List.mem_append_right _ hu, hc⟩
  · rw [ht, h₁, exec_read_eof _ _ _ (by rw [hsh.1]; decide)]

end Run

/-- Stream mode, no open, close or write in flight: no interleaving that keeps the mode
on tells a read it starts that the file ends, exactly if no read in flight is about to set
`exit_flag`. -/
theorem endless_iff (es₀ : List (Sched Fop)) (hs : Streaming (threads es₀).shared.vars)
    (hq : ∀ k c p, (threads es₀).todo k = some (c, p) → ¬ Guarded c) :
    (∀ es, (∀ e ∈ es, e.Starts KeepsOn) → ∀ l t r k buf len off a,
      Run.steps (Threads.move fops.code) (threads es₀) es = l ++ t :: r →
      t.out = .returned k (.read buf len off) a → Begun l k → 0 < len → a.ret ≠ 0) ↔
    ∀ k, ¬ Armed (threads es₀) k := by
  constructor
  · intro h k ha
    obtain ⟨es, he, l, t, e, hb, ht⟩ := eof_of_armed hq hs ha
    exact h es he l t [] k {} 1 0 _ e ht hb (by decide) rfl
  · intro ha es he l t r k buf len off a e ht hb hl
    have hv : Served buf len off False a :=
      Discipline.replies_free (serial_streaming hq hs ha) he e ht id hb
    cases hv with
    | eof h => exact h.elim
    | fault hr =>
      rw [hr]
      decide
    | @ok n hn =>
      have hm : 0 < Impl.Orion.message.length := by decide
      show (n : Int) ≠ 0
      omega

/-- A read finds `stream` clear; a directive `'1'` runs to its end. -/
def raced : List (Sched Fop) :=
  .start 1 (.read {} 64 0) :: List.replicate 3 (.step 1) ++
    .start 0 (.write ⟨['1'.toUInt8], 0, []⟩ 0) :: List.replicate 8 (.step 0)

/-- The directive is obeyed, and a later read is told that the file ends. -/
theorem raced_eof : ¬ ∀ es, (∀ e ∈ es, e.Starts KeepsOn) → ∀ l t r k buf len off a,
    Run.steps (Threads.move fops.code) (threads raced) es = l ++ t :: r →
    t.out = .returned k (.read buf len off) a → Begun l k → 0 < len → a.ret ≠ 0 := by
  intro h
  refine (endless_iff raced ⟨rfl, rfl⟩ fun k c p hk => ?_).mp h 1 ⟨_, _, _, rfl, fun _ => rfl⟩
  have hb : k ∈ raced.map Sched.thread :=
    (Threads.busy_after (s := boot) (hk ▸ Option.some_ne_none _)).resolve_left fun hn => hn rfl
  obtain rfl | rfl : k = 1 ∨ k = 0 := by simpa [raced, Sched.thread] using hb
  · cases hk
    exact id
  · cases hk

end SO.Access.Orion
