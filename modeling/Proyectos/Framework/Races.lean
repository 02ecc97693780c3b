import Proyectos.Framework.Serial
import Mathlib.Data.Finset.Card
import Mathlib.Logic.Function.Iterate

/-!
# Updates without a mutex

Code that loads a part of the state, its view, and later stores what `up` makes
of what it saw (`Updates`), with no mutex, beside code that leaves the view alone
(`Racy`). When `n` updates have been made, some of them may be lost: the view is
`up^[j]` of what it was, where `j ≤ n`, and `0 < j` if `0 < n` (`view_of_idle`,
from the invariant `Racing`). No more than that can be said: each such `j` is
where some run leads to (`exists_run`).
-/

namespace SO

variable {σ α β κ π : Type}

namespace Thread

variable (view : σ → π) (up : π → π)

/-- Code that takes no mutex and leaves the view alone. -/
abbrev Leaves (p : Thread σ α) : Prop := Free view (fun _ => True) (fun _ => True) p

/-- Code that will store `y`. -/
inductive Stores (y : π) : Thread σ α → Prop
  | act {f : σ → σ} {k : σ → Thread σ α} (hf : ∀ s, view (f s) = view s)
      (hk : ∀ s, Stores y (k s)) : Stores y (.act f k)
  | store {f : σ → σ} {k : σ → Thread σ α} (hf : ∀ s, view (f s) = y)
      (hk : ∀ s, Leaves view (k s)) : Stores y (.act f k)

/-- Code that will load the view, and store what `up` makes of it. -/
inductive Updates : Thread σ α → Prop
  | act {f : σ → σ} {k : σ → Thread σ α} (hf : ∀ s, view (f s) = view s)
      (hk : ∀ s, Updates (k s)) : Updates (.act f k)
  | load {f : σ → σ} {k : σ → Thread σ α} (hf : ∀ s, view (f s) = view s)
      (hk : ∀ s, Stores view (up (view s)) (k s)) : Updates (.act f k)

variable {view} {up}

theorem Stores.bind {y : π} {p : Thread σ α} {q : α → Thread σ β} (hp : Stores view y p)
    (hq : ∀ a, Leaves view (q a)) : Stores view y (p.bind q) := by
  induction hp with
  | act hf _ ih => exact .act hf ih
  | store hf hk => exact .store hf fun s => (hk s).bind fun a _ => hq a

theorem Updates.bind {p : Thread σ α} {q : α → Thread σ β} (hp : Updates view up p)
    (hq : ∀ a, Leaves view (q a)) : Updates view up (p.bind q) := by
  induction hp with
  | act hf _ ih => exact .act hf ih
  | load hf hk => exact .load hf fun s => (hk s).bind hq

end Thread

open Thread (Free Leaves Stores Updates)

/-- `j` of `n` updates remain: one at least, if there is any. -/
def Remain (n j : Nat) : Prop := j ≤ n ∧ (0 < n → 0 < j)

/-- The calls that were started. -/
def History.calls (ts : History σ κ α) : List κ :=
  ts.filterMap fun t => match t.out with
    | .began _ c => some c
    | _ => none

/-- The calls in `U` update the view, the others leave it alone. -/
structure Racy (code : κ → Thread σ α) (view : σ → π) (up : π → π) (U : κ → Bool) : Prop where
  updates : ∀ c, U c = true → Updates view up (code c)
  leaves : ∀ c, U c = false → Leaves view (code c)

/-- An update to be stored yet, where `g` have been since the view was `x`. -/
def Pending (view : σ → π) (up : π → π) (x : π) (g : Nat) (p : Thread σ α) : Prop :=
  Updates view up p ∨ ∃ i ≤ g, Stores view (up^[i + 1] x) p

/-- Since the view was `x`, `n` updates were started: those of the threads `S` are to be
stored yet, `g` have been stored, and `j` of these remain. -/
structure Racing (view : σ → π) (up : π → π) (x : π) (n : Nat) (s : Threads σ κ α)
    (S : Finset Nat) (g j : Nat) : Prop where
  total : g + S.card = n
  remain : Remain g j
  seen : view s.shared = up^[j] x
  inside : ∀ k ∈ S, ∃ c p, s.todo k = some (c, p) ∧ Pending view up x g p
  outside : ∀ k ∉ S, ∀ c p, s.todo k = some (c, p) → Leaves view p

namespace History

variable {ts : History σ κ α}

theorem calls_append (us : History σ κ α) : calls (ts ++ us) = calls ts ++ calls us :=
  List.filterMap_append

end History

section Pending

variable {view : σ → π} {up : π → π} {x : π} {g : Nat}

theorem Pending.mono {g' : Nat} {p : Thread σ α} (h : Pending view up x g p) (hg : g ≤ g') :
    Pending view up x g' p := h.imp_right fun ⟨i, hi, hs⟩ => ⟨i, hi.trans hg, hs⟩

/-- The next access of an update: it leaves the view alone, or it stores what the update
makes of an earlier one. -/
theorem Pending.act {f : σ → σ} {k : σ → Thread σ α} (h : Pending view up x g (.act f k)) {s : σ}
    {j : Nat} (hj : j ≤ g) (hs : view s = up^[j] x) :
    (view (f s) = view s ∧ Pending view up x g (k s)) ∨
      ∃ i ≤ g, view (f s) = up^[i + 1] x ∧ Leaves view (k s) := by
  rcases h with h | ⟨i, hi, h⟩
  · cases h with
    | act hf hk => exact .inl ⟨hf s, .inl (hk s)⟩
    | load hf hk =>
      have hu : up (view s) = up^[j + 1] x := by rw [hs, Function.iterate_succ_apply']
      exact .inl ⟨hf s, .inr ⟨j, hj, hu ▸ hk s⟩⟩
  · cases h with
    | act hf hk => exact .inl ⟨hf s, .inr ⟨i, hi, hk s⟩⟩
    | store hf hk => exact .inr ⟨i, hi, hf s, hk s⟩

theorem not_pending_ret {a : α} : ¬ Pending view up x g (.ret a : Thread σ α) := by
  rintro (h | ⟨_, -, h⟩) <;> cases h

theorem not_pending_lock {p : Thread σ α} : ¬ Pending view up x g (.lock p) := by
  rintro (h | ⟨_, -, h⟩) <;> cases h

theorem not_pending_unlock {p : Thread σ α} : ¬ Pending view up x g (.unlock p) := by
  rintro (h | ⟨_, -, h⟩) <;> cases h

end Pending

namespace Racing

variable {code : κ → Thread σ α} {view : σ → π} {up : π → π} {U : κ → Bool} {x : π}
  {s : Threads σ κ α} {n g j : Nat} {S : Finset Nat}

theorem of_idle (h : ∀ k, s.todo k = none) : Racing view up (view s.shared) 0 s ∅ 0 0 where
  total := rfl
  remain := ⟨le_rfl, id⟩
  seen := rfl
  inside := nofun
  outside k _ c p hk := by
    rw [h k] at hk
    cases hk

/-- The threads in `S` are in a call. -/
theorem eq_empty (R : Racing view up x n s S g j) (h : ∀ k, s.todo k = none) : S = ∅ := by
  refine Finset.eq_empty_of_forall_notMem fun k hk => ?_
  obtain ⟨c, p, hp, -⟩ := R.inside k hk
  rw [h k] at hp
  cases hp

/-- What one thread does keeps the rest of the invariant. -/
theorem of_ne (R : Racing view up x n s S g j) {k : Nat} {s' : Threads σ κ α} {S' : Finset Nat}
    {n' g' j' : Nat} (ht : ∀ i ≠ k, s'.todo i = s.todo i) (hS : ∀ i ≠ k, i ∈ S' ↔ i ∈ S)
    (hg : g ≤ g') (total : g' + S'.card = n') (remain : Remain g' j')
    (seen : view s'.shared = up^[j'] x)
    (inside : k ∈ S' → ∃ c p, s'.todo k = some (c, p) ∧ Pending view up x g' p)
    (outside : k ∉ S' → ∀ c p, s'.todo k = some (c, p) → Leaves view p) :
    Racing view up x n' s' S' g' j' where
  total := total
  remain := remain
  seen := seen
  inside i hi := by
    by_cases hik : i = k
    · exact hik ▸ inside (hik ▸ hi)
    · obtain ⟨c, p, e, hp⟩ := R.inside i ((hS i hik).mp hi)
      exact ⟨c, p, (ht i hik).trans e, hp.mono hg⟩
  outside i hi c p e := by
    by_cases hik : i = k
    · subst hik
      exact outside hi c p e
    · exact R.outside i (fun h => hi ((hS i hik).mpr h)) c p ((ht i hik).symm.trans e)

/-- What a thread in a call has left: an update's, if it is in `S`. -/
theorem left (R : Racing view up x n s S g j) {k : Nat} {c : κ} {p : Thread σ α}
    (h : s.todo k = some (c, p)) : if k ∈ S then Pending view up x g p else Leaves view p := by
  split
  · rename_i hk
    obtain ⟨c', p', e, hp⟩ := R.inside k hk
    cases h.symm.trans e
    exact hp
  · rename_i hk
    exact R.outside k hk c p h

/-- What an access that leaves the view alone keeps. -/
theorem goOn (R : Racing view up x n s S g j) {k : Nat} {s' : Threads σ κ α} {c : κ}
    {p : Thread σ α} (e : s'.todo = (s.goOn k c p).todo) (hv : view s'.shared = view s.shared)
    (hp : if k ∈ S then Pending view up x g p else Leaves view p) :
    Racing view up x n s' S g j := by
  refine R.of_ne (k := k) (fun i hi => ?_) (fun _ _ => Iff.rfl) le_rfl R.total R.remain
    (hv.trans R.seen) (fun hk => ?_) fun hk c' p' h => ?_
  · rw [e, Threads.goOn_todo_of_ne s k c p hi]
  · rw [if_pos hk] at hp
    exact ⟨c, p, by rw [e, Threads.goOn_todo], hp⟩
  · rw [e, Threads.goOn_todo] at h
    cases h
    rwa [if_neg hk] at hp

/-- The start of a call. -/
theorem began (R : Racing view up x n s S g j) (hc : Racy code view up U) {k : Nat}
    (h : s.todo k = none) (c : κ) :
    ∃ S', Racing view up x (n + [c].countP U) (s.goOn k c (code c)) S' g j := by
  have hk : k ∉ S := fun hk => by
    obtain ⟨_, _, e, -⟩ := R.inside k hk
    cases h.symm.trans e
  cases hU : U c with
  | false =>
    rw [List.countP_cons_of_neg (by simp [hU])]
    exact ⟨S, R.goOn rfl rfl ((if_neg hk).mpr (hc.leaves c hU))⟩
  | true =>
    rw [List.countP_cons_of_pos hU]
    refine ⟨insert k S, R.of_ne (k := k) (fun i hi => Threads.goOn_todo_of_ne s k c _ hi)
      (fun i hi => Finset.mem_insert.trans (or_iff_right hi)) le_rfl ?_ R.remain R.seen
      (fun _ => ⟨c, _, Threads.goOn_todo .., .inl (hc.updates c hU)⟩)
      fun hi => absurd (Finset.mem_insert_self k S) hi⟩
    rw [Finset.card_insert_of_notMem hk, List.countP_nil, ← R.total]
    omega

/-- An access to the state. -/
theorem acted (R : Racing view up x n s S g j) {k : Nat} {c : κ} {f : σ → σ}
    {p : σ → Thread σ α} (h : s.todo k = some (c, .act f p)) : ∃ S' g' j',
      Racing view up x n { s.goOn k c (p s.shared) with shared := f s.shared } S' g' j' := by
  have hp := R.left h
  split at hp
  · rename_i hk
    rcases hp.act R.remain.1 R.seen with ⟨hv, hp⟩ | ⟨i, hi, hv, hp⟩
    · exact ⟨S, g, j, R.goOn rfl hv ((if_pos hk).mpr hp)⟩
    · -- the update is stored, over what others may have stored since it was loaded
      refine ⟨S.erase k, g + 1, i + 1, R.of_ne (k := k)
        (fun l hl => Threads.goOn_todo_of_ne s k c _ hl)
        (fun l hl => Finset.mem_erase.trans (and_iff_right hl)) (Nat.le_succ g) ?_
        ⟨Nat.succ_le_succ hi, fun _ => Nat.succ_pos i⟩ hv
        (fun hi => absurd hi (Finset.notMem_erase k S)) fun _ c' p' e => ?_⟩
      · have := Finset.card_erase_add_one hk
        have := R.total
        omega
      · cases (Threads.goOn_todo ..).symm.trans e
        exact hp
  · rename_i hk
    obtain ⟨hv, -, hp⟩ := Thread.free_act hp (s := s.shared) trivial
    exact ⟨S, g, j, R.goOn rfl hv ((if_neg hk).mpr hp)⟩

/-- A call that is over has stored its update. -/
theorem finish (R : Racing view up x n s S g j) {k : Nat} {c : κ} {a : α}
    (h : s.todo k = some (c, .ret a)) : Racing view up x n (s.finish k) S g j := by
  have hk : k ∉ S := fun hk => not_pending_ret (((if_pos hk).mp (R.left h)))
  refine R.of_ne (k := k) (fun i hi => Threads.finish_todo_of_ne s k hi) (fun _ _ => Iff.rfl) le_rfl
    R.total R.remain R.seen (fun hi => absurd hi hk) fun _ c p e => ?_
  cases (Threads.finish_todo ..).symm.trans e

/-- What a turn keeps. -/
theorem step (R : Racing view up x n s S g j) (hc : Racy code view up U) (e : Sched κ) :
    ∃ S' g' j', Racing view up x (n + (History.calls [Run.stepOf (Threads.move code) s e]).countP U)
      (Threads.move code s e).1 S' g' j' := by
  have ho := Threads.move_outcome code s e
  rw [Run.stepOf]
  generalize Threads.move code s e = r at ho
  cases ho with
  | idle e => exact ⟨S, g, j, R⟩
  | began c h =>
    obtain ⟨S', R'⟩ := R.began hc h c
    exact ⟨S', g, j, R'⟩
  | acted h => exact R.acted h
  | @locked k c p h hn =>
    have hp := R.left h
    split at hp
    · exact absurd hp not_pending_lock
    · exact absurd hp Thread.not_free_lock
  | @unlocked k c p h =>
    have hp := R.left h
    split at hp
    · exact absurd hp not_pending_unlock
    · exact absurd hp Thread.not_free_unlock
  | returned h => exact ⟨S, g, j, R.finish h⟩

/-- What a run keeps. -/
theorem after (h : ∀ k, s.todo k = none) (hc : Racy code view up U) (es : List (Sched κ)) :
    ∃ S g j, Racing view up (view s.shared)
      ((History.calls (Run.steps (Threads.move code) s es)).countP U)
      (Run.after (Threads.move code) s es) S g j := by
  induction es using List.reverseRecOn with
  | nil => exact ⟨∅, 0, 0, of_idle h⟩
  | append_singleton es e ih =>
    obtain ⟨S, g, j, R⟩ := ih
    rw [Run.after_snoc, Run.steps_snoc, History.calls_append, List.countP_append]
    exact R.step hc e

end Racing

variable {code : κ → Thread σ α} {view : σ → π} {up : π → π} {U : κ → Bool} {s : Threads σ κ α}

/-- Where any run that starts and ends with no thread in a call leads to. -/
theorem view_of_idle (hc : Racy code view up U) (h : ∀ k, s.todo k = none) {es : List (Sched κ)}
    (hi : ∀ k, (Run.after (Threads.move code) s es).todo k = none) :
    ∃ j, Remain ((History.calls (Run.steps (Threads.move code) s es)).countP U) j ∧
      view (Run.after (Threads.move code) s es).shared = up^[j] (view s.shared) := by
  obtain ⟨S, g, j, R⟩ := Racing.after h hc es
  have hg := R.total
  rw [R.eq_empty hi, Finset.card_empty, Nat.add_zero] at hg
  exact ⟨j, hg ▸ R.remain, R.seen⟩

/-- Runs without an update leave the view alone. -/
theorem view_of_none (hc : Racy code view up U) (h : ∀ k, s.todo k = none) {es : List (Sched κ)}
    (hi : ∀ k, (Run.after (Threads.move code) s es).todo k = none)
    (hU : ∀ c ∈ History.calls (Run.steps (Threads.move code) s es), U c = false) :
    view (Run.after (Threads.move code) s es).shared = view s.shared := by
  obtain ⟨j, hj, hv⟩ := view_of_idle hc h hi
  have h0 : (History.calls (Run.steps (Threads.move code) s es)).countP U = 0 :=
    List.countP_eq_zero.mpr fun c hm => Bool.eq_false_iff.mp (hU c hm)
  rw [h0] at hj
  obtain rfl : j = 0 := Nat.le_zero.mp hj.1
  exact hv

/-! ## Each of them is reached -/

/-- A run leads from `s` to `t` that starts `n` calls, each of them `c`. -/
def Leads (code : κ → Thread σ α) (c : κ) (n : Nat) (s t : Threads σ κ α) : Prop :=
  ∃ es, (∀ e ∈ es, e.Starts (· = c)) ∧
    History.calls (Run.steps (Threads.move code) s es) = List.replicate n c ∧
    Run.after (Threads.move code) s es = t

namespace Leads

variable {c : κ} {n m k : Nat} {t u : Threads σ κ α} {p : Thread σ α}

theorem refl (s : Threads σ κ α) : Leads code c 0 s s := ⟨[], nofun, rfl, rfl⟩

theorem trans (h : Leads code c n s t) (h' : Leads code c m t u) : Leads code c (n + m) s u := by
  obtain ⟨es, he, hn, rfl⟩ := h
  obtain ⟨es', he', hm, rfl⟩ := h'
  refine ⟨es ++ es', fun e hm => (List.mem_append.mp hm).elim (he e) (he' e), ?_,
    Run.after_append ..⟩
  rw [Run.steps_append, History.calls_append, hn, hm, List.replicate_append_replicate]

theorem start (h : s.todo k = none) : Leads code c 1 s (s.goOn k c (code c)) := by
  have hs : Threads.move code s (.start k c) = (s.goOn k c (code c), .began k c) := if_pos h
  refine ⟨[.start k c], by simp [Sched.Starts], ?_, ?_⟩
  · simp [History.calls, Run.stepOf, hs]
  · rw [Run.after_cons, Run.after_nil, hs]

theorem step (s : Threads σ κ α) (k : Nat) : Leads code c 0 s (Threads.move code s (.step k)).1 := by
  refine ⟨[.step k], by simp [Sched.Starts], ?_, rfl⟩
  have ho := Threads.move_outcome code s (.step k)
  rw [Run.steps_cons, Run.stepOf]
  generalize Threads.move code s (.step k) = r at ho
  cases ho <;> rfl

theorem steps (s : Threads σ κ α) (k n : Nat) :
    Leads code c 0 s (Run.after (Threads.move code) s (List.replicate n (.step k))) := by
  induction n generalizing s with
  | zero => exact refl s
  | succ n ih => exact (step s k).trans (ih _)

/-- `s` after thread `k`'s access. -/
abbrev next (s : Threads σ κ α) (k : Nat) (c : κ) (f : σ → σ) (q : σ → Thread σ α) :
    Threads σ κ α := { s.goOn k c (q s.shared) with shared := f s.shared }

theorem next_todo (s : Threads σ κ α) (k : Nat) (c : κ) (f : σ → σ) (q : σ → Thread σ α) :
    (next s k c f q).todo k = some (c, q s.shared) := Threads.goOn_todo ..

theorem act {f : σ → σ} {q : σ → Thread σ α} (h : s.todo k = some (c, .act f q)) :
    Leads code c 0 s (next s k c f q) := by
  have hs : Leads code c 0 s (Threads.move code s (.step k)).1 := step s k
  rwa [Threads.move_step h] at hs

/-- Code that leaves the view alone comes to its end. -/
theorem leaves (hp : Leaves view p) (h : s.todo k = some (c, p)) : ∃ t, Leads code c 0 s t ∧
    t.todo = Function.update s.todo k none ∧ view t.shared = view s.shared := by
  obtain ⟨n, hn⟩ := Threads.alone_finish code hp trivial h
  refine ⟨_, steps s k n, ?_, ?_⟩
  · rw [hn, Threads.finish]
  · rw [hn]
    exact (hp.exec trivial).2

/-- An update that has been loaded is stored. -/
theorem stores {y : π} (hp : Stores view y p) (h : s.todo k = some (c, p)) : ∃ t,
    Leads code c 0 s t ∧ t.todo = Function.update s.todo k none ∧ view t.shared = y := by
  induction hp generalizing s with
  | @act f q _ _ ih =>
    obtain ⟨t, hl, ht, hv⟩ := ih s.shared (next_todo s k c f q)
    exact ⟨t, (act h).trans hl, ht.trans (Function.update_idem ..), hv⟩
  | @store f q hf hq =>
    obtain ⟨t, hl, ht, hv⟩ := leaves (hq s.shared) (next_todo s k c f q)
    exact ⟨t, (act h).trans hl, ht.trans (Function.update_idem ..), hv.trans (hf s.shared)⟩

/-- An update is loaded. -/
theorem loads (hp : Updates view up p) (h : s.todo k = some (c, p)) : ∃ t q, Leads code c 0 s t ∧
    t.todo = Function.update s.todo k (some (c, q)) ∧ view t.shared = view s.shared ∧
    Stores view (up (view s.shared)) q := by
  induction hp generalizing s with
  | @act f q hf _ ih =>
    obtain ⟨t, r, hl, ht, hv, hr⟩ := ih s.shared (next_todo s k c f q)
    refine ⟨t, r, (act h).trans hl, ht.trans (Function.update_idem ..), hv.trans (hf s.shared), ?_⟩
    exact hf s.shared ▸ hr
  | @load f q hf hq => exact ⟨_, _, act h, rfl, hf s.shared, hq s.shared⟩

variable (hc : Racy code view up U) (hU : U c = true)

include hc hU

/-- Calls that all load the view before any of them stores: one update remains. -/
theorem overlap (n : Nat) (h : ∀ k < n, s.todo k = none) : ∃ t, Leads code c n s t ∧
    t.todo = s.todo ∧ (0 < n → view t.shared = up (view s.shared)) := by
  induction n generalizing s with
  | zero => exact ⟨s, refl s, rfl, nofun⟩
  | succ n ih =>
    -- thread `n` loads first, and stores last
    obtain ⟨t, q, hl, ht, hv, hq⟩ := loads (hc.updates c hU) (s := s.goOn n c (code c))
      (Threads.goOn_todo ..)
    replace ht : t.todo = Function.update s.todo n (some (c, q)) :=
      ht.trans (Function.update_idem ..)
    have hn : ∀ k < n, t.todo k = none := fun k hk => by
      rw [ht, Function.update_of_ne (Nat.ne_of_lt hk)]
      exact h k (Nat.lt_succ_of_lt hk)
    obtain ⟨u, hu, htu, -⟩ := ih hn
    have hun : u.todo n = some (c, q) := by rw [htu, ht, Function.update_self]
    obtain ⟨w, hw, htw, hvw⟩ := stores hq hun
    have hl := (((start (h n (Nat.lt_succ_self n))).trans hl).trans hu).trans hw
    refine ⟨w, by simpa [Nat.add_comm] using hl, ?_, fun _ => hvw⟩
    rw [htw, htu, ht, Function.update_idem, ← h n (Nat.lt_succ_self n), Function.update_eq_self]

/-- Calls one after another: every update remains. -/
theorem sequence (n : Nat) (h : s.todo 0 = none) : ∃ t, Leads code c n s t ∧ t.todo = s.todo ∧
    view t.shared = up^[n] (view s.shared) := by
  induction n with
  | zero => exact ⟨s, refl s, rfl, rfl⟩
  | succ n ih =>
    obtain ⟨t, hl, ht, hv⟩ := ih
    have h0 : ∀ k < 1, t.todo k = none := fun k hk => by
      obtain rfl := Nat.lt_one_iff.mp hk
      rw [ht, h]
    obtain ⟨u, hu, htu, hvu⟩ := overlap hc hU 1 h0
    refine ⟨u, hl.trans hu, htu.trans ht, ?_⟩
    rw [hvu Nat.one_pos, hv, Function.iterate_succ_apply']

end Leads

/-- Any number of updates that may remain do, in some run. -/
theorem exists_run (hc : Racy code view up U) {c : κ} (hU : U c = true) {n j : Nat}
    (hj : Remain n j) (h : ∀ k, s.todo k = none) :
    ∃ t, Leads code c n s t ∧ t.todo = s.todo ∧ view t.shared = up^[j] (view s.shared) := by
  rcases n with _ | n
  · obtain rfl : j = 0 := Nat.le_zero.mp hj.1
    exact ⟨s, .refl s, rfl, rfl⟩
  · obtain ⟨j, rfl⟩ : ∃ i, j = i + 1 := ⟨j - 1, (Nat.succ_pred_eq_of_pos (hj.2 n.succ_pos)).symm⟩
    have hle : j ≤ n := Nat.le_of_succ_le_succ hj.1
    obtain ⟨t, hl, ht, hv⟩ := Leads.overlap (s := s) hc hU (n - j + 1) fun k _ => h k
    obtain ⟨u, hu, htu, hvu⟩ := Leads.sequence (s := t) hc hU j (by rw [ht, h])
    refine ⟨u, ?_, htu.trans ht, ?_⟩
    · have he : n - j + 1 + j = n + 1 := by omega
      exact he ▸ hl.trans hu
    · rw [hvu, hv (Nat.succ_pos _), Function.iterate_succ_apply]

end SO
