import Proyectos.Framework.Run
import Mathlib.Logic.Function.Basic

/-!
# Threads over a shared state and a mutex

A `Thread` is what is left of a call: it returns, it makes one access to the
shared state and goes on with what it saw there, or it takes or releases the
mutex. `Threads.move` is the machine (of `Proyectos.Framework.Run`) any number
of threads make: each input starts a call on an idle thread or lets a thread
make its next access, so a run is any interleaving. A thread that waits for the
mutex makes no move. What a turn can come to is told once, by `move_outcome`.

Code is of one of two kinds, told by what it does to a part of the shared state,
its `view`, in states with an invariant `I`:

* `Free`: it takes no mutex and leaves the view alone; `Q` holds of its reply.
* `Locks`: it takes the mutex once; from there to where it releases it (`Holds`),
  it does to the view, and replies, what `ser` does in one step.
-/

namespace SO

variable {σ α β κ π : Type}

/-- What is left of a call: its accesses to the shared state `σ`, to its reply. -/
inductive Thread (σ α : Type) where
  | ret (a : α)
  | act (f : σ → σ) (k : σ → Thread σ α)
  | lock (p : Thread σ α)
  | unlock (p : Thread σ α)

namespace Thread

/-- The code `q` after `p`. -/
def bind : Thread σ α → (α → Thread σ β) → Thread σ β
  | ret a, q => q a
  | act f k, q => act f fun s => (k s).bind q
  | lock p, q => lock (p.bind q)
  | unlock p, q => unlock (p.bind q)

/-- The reply of a thread no other runs beside, and the state it leaves. -/
def exec : Thread σ α → σ → α × σ
  | ret a, s => (a, s)
  | act f k, s => (k s).exec (f s)
  | lock p, s => p.exec s
  | unlock p, s => p.exec s

@[simp] theorem ret_bind (a : α) (q : α → Thread σ β) : (ret a).bind q = q a := rfl

@[simp] theorem act_bind (f : σ → σ) (k : σ → Thread σ α) (q : α → Thread σ β) :
    (act f k).bind q = act f fun s => (k s).bind q := rfl

@[simp] theorem lock_bind (p : Thread σ α) (q : α → Thread σ β) :
    (lock p).bind q = lock (p.bind q) := rfl

@[simp] theorem unlock_bind (p : Thread σ α) (q : α → Thread σ β) :
    (unlock p).bind q = unlock (p.bind q) := rfl

@[simp] theorem bind_ret (p : Thread σ α) : p.bind ret = p := by
  induction p with
  | ret a => rfl
  | act f k ih => exact congrArg (act f) (funext ih)
  | lock p ih => exact congrArg lock ih
  | unlock p ih => exact congrArg unlock ih

theorem bind_assoc {γ : Type} (p : Thread σ α) (q : α → Thread σ β) (r : β → Thread σ γ) :
    (p.bind q).bind r = p.bind fun a => (q a).bind r := by
  induction p with
  | ret a => rfl
  | act f k ih => exact congrArg (act f) (funext ih)
  | lock p ih => exact congrArg lock ih
  | unlock p ih => exact congrArg unlock ih

@[simp] theorem exec_ret (a : α) (s : σ) : (ret a : Thread σ α).exec s = (a, s) := rfl

@[simp] theorem exec_act (f : σ → σ) (k : σ → Thread σ α) (s : σ) :
    (act f k).exec s = (k s).exec (f s) := rfl

@[simp] theorem exec_lock (p : Thread σ α) (s : σ) : (lock p).exec s = p.exec s := rfl

@[simp] theorem exec_unlock (p : Thread σ α) (s : σ) : (unlock p).exec s = p.exec s := rfl

@[simp] theorem exec_bind (p : Thread σ α) (q : α → Thread σ β) (s : σ) :
    (p.bind q).exec s = (q (p.exec s).1).exec (p.exec s).2 := by
  induction p generalizing s with
  | ret a => rfl
  | act f k ih => exact ih s (f s)
  | lock p ih => exact ih s
  | unlock p ih => exact ih s

/-! ## Code that keeps to the mutex -/

section Discipline

variable (view : σ → π) (I : σ → Prop)

/-- Code without the mutex: it leaves the view, and `Q` holds of its reply. -/
inductive Free (Q : α → Prop) : Thread σ α → Prop
  | ret {a : α} (h : Q a) : Free Q (.ret a)
  | act {f : σ → σ} {k : σ → Thread σ α} (hf : ∀ s, I s → view (f s) = view s ∧ I (f s))
      (hk : ∀ s, I s → Free Q (k s)) : Free Q (.act f k)

/-- Code with the mutex held and the view at the third argument, that takes the
view to `y`, releases the mutex and returns `a`. -/
inductive Holds (a : α) (y : π) : π → Thread σ α → Prop
  | act {x x' : π} {f : σ → σ} {k : σ → Thread σ α}
      (hf : ∀ s, I s → view s = x → view (f s) = x' ∧ I (f s))
      (hk : ∀ s, I s → view s = x → Holds a y x' (k s)) : Holds a y x (.act f k)
  | unlock {p : Thread σ α} (h : Free view I (· = a) p) : Holds a y y (.unlock p)

/-- Code that takes the mutex once, to do what `ser` does. -/
inductive Locks (ser : π → π × α) : Thread σ α → Prop
  | lock {p : Thread σ α}
      (h : ∀ s, I s → Holds view I (ser (view s)).2 (ser (view s)).1 (view s) p) : Locks ser (.lock p)
  | act {f : σ → σ} {k : σ → Thread σ α} (hf : ∀ s, I s → view (f s) = view s ∧ I (f s))
      (hk : ∀ s, I s → Locks ser (k s)) : Locks ser (.act f k)

/-- Code without the mutex, run with the mutex held and the view at the third
argument: it takes the view to `y`, and returns `a`. -/
inductive Does (a : α) (y : π) : π → Thread σ α → Prop
  | ret : Does a y y (.ret a)
  | act {x x' : π} {f : σ → σ} {k : σ → Thread σ α}
      (hf : ∀ s, I s → view s = x → view (f s) = x' ∧ I (f s))
      (hk : ∀ s, I s → view s = x → Does a y x' (k s)) : Does a y x (.act f k)

/-- Code with the mutex held and the view at `x`, that releases it. -/
def Closes (x : π) (p : Thread σ α) : Prop := ∃ a y, Holds view I a y x p

variable {view I}

theorem Free.mono {Q R : α → Prop} {p : Thread σ α} (hp : Free view I Q p) (h : ∀ a, Q a → R a) :
    Free view I R p := by
  induction hp with
  | ret hq => exact .ret (h _ hq)
  | act hf _ ih => exact .act hf ih

theorem Free.bind {Q : α → Prop} {R : β → Prop} {p : Thread σ α} {q : α → Thread σ β}
    (hp : Free view I Q p) (hq : ∀ a, Q a → Free view I R (q a)) : Free view I R (p.bind q) := by
  induction hp with
  | ret h => exact hq _ h
  | act hf _ ih => exact .act hf ih

/-- What code leaves alone keeps what holds of it. -/
theorem Free.keeps {Q : α → Prop} {p : Thread σ α} (hp : Free view (fun _ => True) Q p)
    (J : π → Prop) : Free (fun _ => ()) (fun s => J (view s)) Q p := by
  induction hp with
  | ret h => exact .ret h
  | act hf _ ih => exact .act (fun s hs => ⟨rfl, by rwa [(hf s trivial).1]⟩) fun s _ => ih s trivial

section Inversion

variable {a b : α} {x y : π} {f : σ → σ} {k : σ → Thread σ α} {p : Thread σ α} {Q : α → Prop}
  {ser : π → π × α}

theorem free_ret (h : Free view I Q (.ret a)) : Q a := by cases h; assumption

theorem free_act (h : Free view I Q (.act f k)) {s : σ} (hs : I s) :
    view (f s) = view s ∧ I (f s) ∧ Free view I Q (k s) := by
  cases h with
  | act hf hk => exact ⟨(hf s hs).1, (hf s hs).2, hk s hs⟩

theorem not_free_lock : ¬ Free view I Q (.lock p) := nofun

theorem not_free_unlock : ¬ Free view I Q (.unlock p) := nofun

theorem not_holds_ret : ¬ Holds view I a y x (.ret b) := nofun

theorem holds_act (h : Holds view I a y x (.act f k)) {s : σ} (hs : I s) (hx : view s = x) :
    I (f s) ∧ Holds view I a y (view (f s)) (k s) := by
  cases h with
  | act hf hk =>
    obtain ⟨rfl, hi⟩ := hf s hs hx
    exact ⟨hi, hk s hs hx⟩

theorem holds_unlock (h : Holds view I a y x (.unlock p)) : x = y ∧ Free view I (· = a) p := by
  cases h with
  | unlock h => exact ⟨rfl, h⟩

theorem not_locks_ret : ¬ Locks view I ser (.ret a) := nofun

theorem not_locks_unlock : ¬ Locks view I ser (.unlock p) := nofun

theorem locks_lock (h : Locks view I ser (.lock p)) {s : σ} (hs : I s) :
    Holds view I (ser (view s)).2 (ser (view s)).1 (view s) p := by
  cases h with
  | lock h => exact h s hs

theorem locks_act (h : Locks view I ser (.act f k)) {s : σ} (hs : I s) :
    view (f s) = view s ∧ I (f s) ∧ Locks view I ser (k s) := by
  cases h with
  | act hf hk => exact ⟨(hf s hs).1, (hf s hs).2, hk s hs⟩

end Inversion

theorem Does.bind {a : α} {b : β} {x y z : π} {p : Thread σ α} {q : α → Thread σ β}
    (hp : Does view I a y x p) (hq : Does view I b z y (q a)) : Does view I b z x (p.bind q) := by
  induction hp with
  | ret => exact hq
  | act hf _ ih => exact .act hf ih

theorem Does.holds {a : α} {b : β} {x y z : π} {p : Thread σ α} {q : α → Thread σ β}
    (hp : Does view I a y x p) (hq : Holds view I b z y (q a)) : Holds view I b z x (p.bind q) := by
  induction hp with
  | ret => exact hq
  | act hf _ ih => exact .act hf ih

theorem Free.exec {Q : α → Prop} {p : Thread σ α} (hp : Free view I Q p) {s : σ} (hs : I s) :
    Q (p.exec s).1 ∧ view (p.exec s).2 = view s := by
  induction hp generalizing s with
  | ret h => exact ⟨h, rfl⟩
  | act hf _ ih =>
    have h := ih s hs (hf s hs).2
    exact ⟨h.1, h.2.trans (hf s hs).1⟩

theorem Holds.exec {a : α} {x y : π} {p : Thread σ α} (hp : Holds view I a y x p) {s : σ} (hs : I s)
    (hx : view s = x) : (p.exec s).1 = a ∧ view (p.exec s).2 = y := by
  induction hp generalizing s with
  | act hf _ ih => exact ih s hs hx (hf s hs hx).2 (hf s hs hx).1
  | unlock hp => exact ⟨(hp.exec hs).1, (hp.exec hs).2.trans hx⟩

theorem Does.closes {a : α} {x y : π} {p : Thread σ α} {q : α → Thread σ β}
    (hp : Does view I a y x p) (hq : Closes view I y (q a)) : Closes view I x (p.bind q) := by
  obtain ⟨b, z, hq⟩ := hq
  exact ⟨b, z, hp.holds hq⟩

/-- Where code with the mutex held ends is where it ends alone. -/
theorem Closes.holds {p : Thread σ α} {s : σ} (h : Closes view I (view s) p) (hs : I s) :
    Holds view I (p.exec s).1 (view (p.exec s).2) (view s) p := by
  obtain ⟨a, y, hp⟩ := h
  obtain ⟨rfl, rfl⟩ := hp.exec hs rfl
  exact hp

end Discipline

/-- `C` holds of the code and of all it may have left, whatever it finds in the state. -/
inductive Each (C : Thread σ α → Prop) : Thread σ α → Prop
  | ret {a : α} (h : C (.ret a)) : Each C (.ret a)
  | act {f : σ → σ} {k : σ → Thread σ α} (h : C (.act f k)) (hk : ∀ s, Each C (k s)) :
      Each C (.act f k)
  | lock {p : Thread σ α} (h : C (.lock p)) (hp : Each C p) : Each C (.lock p)
  | unlock {p : Thread σ α} (h : C (.unlock p)) (hp : Each C p) : Each C (.unlock p)

theorem each_of_forall {C : Thread σ α → Prop} (h : ∀ p, C p) (p : Thread σ α) : Each C p := by
  induction p with
  | ret a => exact .ret (h _)
  | act f k ih => exact .act (h _) ih
  | lock p ih => exact .lock (h _) ih
  | unlock p ih => exact .unlock (h _) ih

theorem Each.self {C : Thread σ α → Prop} {p : Thread σ α} (h : Each C p) : C p := by
  cases h <;> assumption

end Thread

/-! ## The machine -/

/-- What runs next: a new call on thread `k`, or the next access of thread `k`. -/
inductive Sched (κ : Type) where
  | start (k : Nat) (c : κ)
  | step (k : Nat)

/-- What came of it. -/
inductive Move (κ α : Type) where
  /-- Nothing: the thread has no call to go on with, is in one already, or waits
  for the mutex. -/
  | idle
  | began (k : Nat) (c : κ)
  | acted (k : Nat)
  | locked (k : Nat) (c : κ)
  | unlocked (k : Nat)
  | returned (k : Nat) (c : κ) (a : α)

/-- The threads: the state they share, the thread that holds the mutex, and each
thread's call with what is left of it. -/
structure Threads (σ κ α : Type) where
  shared : σ
  holder : Option Nat := none
  todo : Nat → Option (κ × Thread σ α) := fun _ => none

/-- The thread whose turn it is. -/
def Sched.thread : Sched κ → Nat
  | start k _ => k
  | step k => k

/-- Only calls satisfying `P` are started. -/
def Sched.Starts (P : κ → Prop) : Sched κ → Prop
  | start _ c => P c
  | step _ => True

theorem Sched.starts_any (e : Sched κ) : e.Starts fun _ => True := by
  cases e <;> trivial

namespace Threads

open Thread (Free Each)

/-- Thread `k` has `p` left of the call `c`. -/
def goOn (s : Threads σ κ α) (k : Nat) (c : κ) (p : Thread σ α) : Threads σ κ α :=
  { s with todo := Function.update s.todo k (some (c, p)) }

/-- Thread `k`'s call is over. -/
def finish (s : Threads σ κ α) (k : Nat) : Threads σ κ α :=
  { s with todo := Function.update s.todo k none }

/-- The next access of thread `k`, which has `p` left of the call `c`. -/
def access (s : Threads σ κ α) (k : Nat) (c : κ) : Thread σ α → Threads σ κ α × Move κ α
  | .ret a => (s.finish k, .returned k c a)
  | .act f p => ({ s.goOn k c (p s.shared) with shared := f s.shared }, .acted k)
  | .lock p =>
    if s.holder = none then ({ s.goOn k c p with holder := some k }, .locked k c) else (s, .idle)
  | .unlock p => ({ s.goOn k c p with holder := none }, .unlocked k)

/-- One turn. -/
def move (code : κ → Thread σ α) (s : Threads σ κ α) : Sched κ → Threads σ κ α × Move κ α
  | .start k c => if s.todo k = none then (s.goOn k c (code c), .began k c) else (s, .idle)
  | .step k =>
    match s.todo k with
    | none => (s, .idle)
    | some (c, p) => s.access k c p

section Todo

variable (s : Threads σ κ α) (k : Nat) {j : Nat} (c : κ) (p : Thread σ α)

@[simp] theorem goOn_todo : (s.goOn k c p).todo k = some (c, p) := Function.update_self ..

theorem goOn_todo_of_ne (h : j ≠ k) : (s.goOn k c p).todo j = s.todo j := Function.update_of_ne h ..

@[simp] theorem finish_todo : (s.finish k).todo k = none := Function.update_self ..

theorem finish_todo_of_ne (h : j ≠ k) : (s.finish k).todo j = s.todo j := Function.update_of_ne h ..

end Todo

variable (code : κ → Thread σ α) (s : Threads σ κ α)

/-- What a turn can come to. -/
inductive Outcome : Sched κ → Threads σ κ α × Move κ α → Prop
  | idle (e : Sched κ) : Outcome e (s, .idle)
  | began {k : Nat} (c : κ) (h : s.todo k = none) :
      Outcome (.start k c) (s.goOn k c (code c), .began k c)
  | acted {k : Nat} {c : κ} {f : σ → σ} {p : σ → Thread σ α} (h : s.todo k = some (c, .act f p)) :
      Outcome (.step k) ({ s.goOn k c (p s.shared) with shared := f s.shared }, .acted k)
  | locked {k : Nat} {c : κ} {p : Thread σ α} (h : s.todo k = some (c, .lock p))
      (hn : s.holder = none) : Outcome (.step k) ({ s.goOn k c p with holder := some k }, .locked k c)
  | unlocked {k : Nat} {c : κ} {p : Thread σ α} (h : s.todo k = some (c, .unlock p)) :
      Outcome (.step k) ({ s.goOn k c p with holder := none }, .unlocked k)
  | returned {k : Nat} {c : κ} {a : α} (h : s.todo k = some (c, .ret a)) :
      Outcome (.step k) (s.finish k, .returned k c a)

theorem move_outcome (e : Sched κ) : Outcome code s e (move code s e) := by
  cases e with
  | start k c =>
    by_cases h : s.todo k = none
    · rw [move, if_pos h]
      exact .began c h
    · rw [move, if_neg h]
      exact .idle _
  | step k =>
    cases h : s.todo k with
    | none =>
      simp only [move, h]
      exact .idle _
    | some cp =>
      obtain ⟨c, p⟩ := cp
      simp only [move, h]
      cases p with
      | ret a => exact .returned h
      | act f p => exact .acted h
      | lock p =>
        by_cases hn : s.holder = none
        · rw [access, if_pos hn]
          exact .locked h hn
        · rw [access, if_neg hn]
          exact .idle _
      | unlock p => exact .unlocked h

variable {code} {s} {k : Nat}

/-- A turn changes what its own thread has left, at most. -/
theorem todo_of_ne {e : Sched κ} (h : e.thread ≠ k) : (move code s e).1.todo k = s.todo k := by
  have ho := move_outcome code s e
  generalize move code s e = r at ho
  cases ho with
  | idle e => rfl
  | began c _ => exact goOn_todo_of_ne s _ c _ (Ne.symm h)
  | acted _ => exact goOn_todo_of_ne s _ _ _ (Ne.symm h)
  | locked _ _ => exact goOn_todo_of_ne s _ _ _ (Ne.symm h)
  | unlocked _ => exact goOn_todo_of_ne s _ _ _ (Ne.symm h)
  | returned _ => exact finish_todo_of_ne s _ (Ne.symm h)

/-- The threads with a call are among those that had one or were given a turn. -/
theorem busy_after {es : List (Sched κ)} (h : (Run.after (move code) s es).todo k ≠ none) :
    s.todo k ≠ none ∨ k ∈ es.map Sched.thread := by
  induction es generalizing s with
  | nil => exact .inl h
  | cons e es ih =>
    by_cases hk : e.thread = k
    · exact .inr (by simp [hk])
    · rcases ih h with hs | hm
      · exact .inl (todo_of_ne hk ▸ hs)
      · exact .inr (List.mem_cons_of_mem _ hm)

/-- What holds of each call's code and of all it may have left holds of what the threads
have left after any run. -/
theorem each_after {C : κ → Thread σ α → Prop} (hC : ∀ c, Each (C c) (code c))
    (hs : ∀ k c p, s.todo k = some (c, p) → Each (C c) p) (es : List (Sched κ)) {c : κ}
    {p : Thread σ α} (h : (Run.after (move code) s es).todo k = some (c, p)) : Each (C c) p := by
  induction es using List.reverseRecOn generalizing k c p with
  | nil => exact hs k c p h
  | append_singleton es e ih =>
    rw [Run.after_snoc] at h
    by_cases hk : e.thread = k
    swap
    · exact ih ((todo_of_ne hk).symm.trans h)
    have ho := move_outcome code (Run.after (move code) s es) e
    generalize move code (Run.after (move code) s es) e = r at ho h
    cases ho with
    | idle e => exact ih h
    | began c' _ =>
      obtain rfl := hk
      cases (goOn_todo ..).symm.trans h
      exact hC c
    | acted hj =>
      obtain rfl := hk
      cases (goOn_todo ..).symm.trans h
      cases ih hj with
      | act _ hk => exact hk _
    | locked hj _ =>
      obtain rfl := hk
      cases (goOn_todo ..).symm.trans h
      cases ih hj with
      | lock _ hp => exact hp
    | unlocked hj =>
      obtain rfl := hk
      cases (goOn_todo ..).symm.trans h
      cases ih hj with
      | unlock _ hp => exact hp
    | returned _ =>
      obtain rfl := hk
      cases (finish_todo ..).symm.trans h

section Unlocked

variable {P : κ → Prop} {view : σ → π} {I : σ → Prop} {Q : κ → α → Prop}

/-- Calls in flight that take no mutex, in a state with `I`. -/
structure Unlocked (view : σ → π) (I : σ → Prop) (Q : κ → α → Prop) (s : Threads σ κ α) : Prop where
  inv : I s.shared
  free : ∀ k c p, s.todo k = some (c, p) → Free view I (Q c) p

theorem Unlocked.of_ne (h : Unlocked view I Q s) {s' : Threads σ κ α}
    (ht : ∀ i ≠ k, s'.todo i = s.todo i) (inv : I s'.shared)
    (free : ∀ c p, s'.todo k = some (c, p) → Free view I (Q c) p) : Unlocked view I Q s' where
  inv := inv
  free i c p hp := by
    by_cases hik : i = k
    · subst hik
      exact free c p hp
    · exact h.free i c p ((ht i hik).symm.trans hp)

theorem Unlocked.step (h : Unlocked view I Q s) (hc : ∀ c, P c → Free view I (Q c) (code c))
    {e : Sched κ} (he : e.Starts P) : Unlocked view I Q (move code s e).1 := by
  have ho := move_outcome code s e
  generalize move code s e = r at ho ⊢
  cases ho with
  | idle e => exact h
  | @began k c hk =>
    refine h.of_ne (k := k) (fun i hi => goOn_todo_of_ne s k c _ hi) h.inv fun c' q hq => ?_
    cases (goOn_todo ..).symm.trans hq
    exact hc c he
  | @acted k c f p hk =>
    obtain ⟨-, hI, hp⟩ := Thread.free_act (h.free k c _ hk) h.inv
    refine h.of_ne (k := k) (fun i hi => goOn_todo_of_ne s k c _ hi) hI fun c' q hq => ?_
    cases (goOn_todo ..).symm.trans hq
    exact hp
  | locked hk _ => exact absurd (h.free _ _ _ hk) Thread.not_free_lock
  | unlocked hk => exact absurd (h.free _ _ _ hk) Thread.not_free_unlock
  | @returned k c a hk =>
    refine h.of_ne (k := k) (fun i hi => finish_todo_of_ne s k hi) h.inv fun c' q hq => ?_
    cases (finish_todo ..).symm.trans hq

theorem Unlocked.after (h : Unlocked view I Q s) (hc : ∀ c, P c → Free view I (Q c) (code c))
    {es : List (Sched κ)} (he : ∀ e ∈ es, e.Starts P) :
    Unlocked view I Q (Run.after (move code) s es) := by
  induction es generalizing s with
  | nil => exact h
  | cons e es ih =>
    exact ih (h.step hc (he e List.mem_cons_self)) fun e' h' => he e' (List.mem_cons_of_mem _ h')

/-- What a call that takes no mutex replies, at the turn at which it returns. -/
theorem Unlocked.reply (h : Unlocked view I Q s) {e : Sched κ} {c : κ} {a : α}
    (ht : (move code s e).2 = .returned k c a) : Q c a := by
  have ho := move_outcome code s e
  generalize move code s e = r at ho ht
  cases ho with
  | returned hk =>
    cases ht
    exact Thread.free_ret (h.free _ _ _ hk)
  | _ => cases ht

end Unlocked

theorem move_step {c : κ} {p : Thread σ α} (hk : s.todo k = some (c, p)) :
    move code s (.step k) = s.access k c p := by
  simp only [move, hk]

variable (code) in
/-- Code without the mutex, given all the turns, comes to the code after it, where `exec`
says. -/
theorem alone_bind {view : σ → π} {I : σ → Prop} {Q : β → Prop} {c : κ} {p : Thread σ β}
    (hp : Free view I Q p) (hI : I s.shared) {q : β → Thread σ α}
    (hk : s.todo k = some (c, p.bind q)) :
    ∃ n, Run.after (move code) s (List.replicate n (.step k)) =
      { s.goOn k c (q (p.exec s.shared).1) with shared := (p.exec s.shared).2 } := by
  induction hp generalizing s with
  | ret _ =>
    rw [Thread.ret_bind] at hk
    refine ⟨0, ?_⟩
    simp [goOn, ← hk]
  | @act f p hf _ ih =>
    let s' : Threads σ κ α := { s.goOn k c ((p s.shared).bind q) with shared := f s.shared }
    have hI' : I s'.shared := (hf _ hI).2
    have hk' : s'.todo k = some (c, (p s.shared).bind q) := goOn_todo ..
    obtain ⟨n, hn⟩ := ih s.shared hI hI' hk'
    refine ⟨n + 1, ?_⟩
    rw [List.replicate_succ, Run.after_cons, move_step hk]
    refine hn.trans ?_
    simp [s', goOn]

variable (code) in
/-- A call that takes no mutex, given all the turns, comes to where `exec` says. -/
theorem alone_free {view : σ → π} {I : σ → Prop} {Q : α → Prop} {c : κ} {p : Thread σ α}
    (hp : Free view I Q p) (hI : I s.shared) (hk : s.todo k = some (c, p)) :
    ∃ n, Run.after (move code) s (List.replicate n (.step k)) =
      { s.goOn k c (.ret (p.exec s.shared).1) with shared := (p.exec s.shared).2 } :=
  alone_bind code hp hI (by rwa [Thread.bind_ret])

variable (code) in
/-- A call that takes no mutex, given all the turns, is over where `exec` ends. -/
theorem alone_finish {view : σ → π} {I : σ → Prop} {Q : α → Prop} {c : κ} {p : Thread σ α}
    (hp : Free view I Q p) (hI : I s.shared) (hk : s.todo k = some (c, p)) :
    ∃ n, Run.after (move code) s (List.replicate n (.step k)) =
      { s.finish k with shared := (p.exec s.shared).2 } := by
  obtain ⟨n, hn⟩ := alone_free code hp hI hk
  have ht : (Run.after (move code) s (List.replicate n (.step k))).todo k =
      some (c, .ret (p.exec s.shared).1) := by rw [hn, goOn_todo]
  refine ⟨n + 1, ?_⟩
  rw [List.replicate_succ', Run.after_snoc, move_step ht, access, hn]
  simp [goOn, finish]

/-! ## What runs lead to -/

variable (code) in
/-- A run whose calls satisfy `P` leads from `s` to `t`. -/
def Reaches (P : κ → Prop) (s t : Threads σ κ α) : Prop :=
  ∃ es, (∀ e ∈ es, e.Starts P) ∧ Run.after (move code) s es = t

variable {P : κ → Prop} {t u : Threads σ κ α}

theorem Reaches.trans (h : Reaches code P s t) (h' : Reaches code P t u) : Reaches code P s u := by
  obtain ⟨es, he, rfl⟩ := h
  obtain ⟨es', he', rfl⟩ := h'
  exact ⟨es ++ es', fun e hm => (List.mem_append.mp hm).elim (he e) (he' e), Run.after_append ..⟩

theorem reaches_steps {n : Nat} (h : Run.after (move code) s (List.replicate n (.step k)) = t) :
    Reaches code P s t := by
  refine ⟨_, fun e he => ?_, h⟩
  obtain rfl := List.eq_of_mem_replicate he
  trivial

theorem reaches_start (hk : s.todo k = none) {c : κ} (hc : P c) :
    Reaches code P s (s.goOn k c (code c)) := by
  refine ⟨[.start k c], fun e he => ?_, congrArg Prod.fst (if_pos hk)⟩
  obtain rfl := List.mem_singleton.mp he
  exact hc

section Alone

variable (code) {view : σ → π} {I : σ → Prop} {c : κ} (hI : I s.shared)

include hI

/-- Code without the mutex comes to the code after it. -/
theorem reaches_bind {Q : β → Prop} {p : Thread σ β} (hp : Free view I Q p) {q : β → Thread σ α}
    (hk : s.todo k = some (c, p.bind q)) : ∃ t, Reaches code P s t ∧
      t.todo = Function.update s.todo k (some (c, q (p.exec s.shared).1)) ∧
      t.shared = (p.exec s.shared).2 := by
  obtain ⟨n, hn⟩ := alone_bind code hp hI hk
  exact ⟨_, reaches_steps hn, rfl, rfl⟩

variable {Q : α → Prop}

/-- A call that takes no mutex comes to its end. -/
theorem reaches_finish {p : Thread σ α} (hp : Free view I Q p) (hk : s.todo k = some (c, p)) :
    ∃ t, Reaches code P s t ∧ t.todo = Function.update s.todo k none ∧
      t.shared = (p.exec s.shared).2 := by
  obtain ⟨n, hn⟩ := alone_finish code hp hI hk
  exact ⟨_, reaches_steps hn, rfl, rfl⟩

/-- A call that takes no mutex, with no other beside it. -/
theorem reaches_call (hp : Free view I Q (code c)) (hk : s.todo k = none) (hc : P c) :
    ∃ t, Reaches code P s t ∧ t.todo = s.todo ∧ t.shared = ((code c).exec s.shared).2 := by
  obtain ⟨t, hr, ht, hs⟩ := reaches_finish code (P := P) (s := s.goOn k c (code c)) hI hp
    (goOn_todo ..)
  refine ⟨t, (reaches_start hk hc).trans hr, ht.trans ?_, hs⟩
  rw [goOn, Function.update_idem, ← hk, Function.update_eq_self]

end Alone

end Threads

end SO
