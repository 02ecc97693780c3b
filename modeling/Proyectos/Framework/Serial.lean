import Proyectos.Framework.Threads

/-!
# Calls that take a mutex are those of a sequential run

A `Discipline` says what each call is: code that leaves the guarded part of the
state alone, or code that takes the mutex once and does, from there to where it
releases it, what `ser` does in one step. `serial_after` is the invariant a run
of such calls keeps, whatever the order of their accesses. From it: the calls
that take the mutex are those of a sequential run, in the order in which they
take it (`replies_serial`, `view_serial`); the others reply what `Q` says
(`replies_free`); and no run can deadlock (`exists_idle`).
-/

namespace SO

variable {σ α κ π : Type}

/-- The transcript of a run of threads. -/
abbrev History (σ κ α : Type) := List (Step (Threads σ κ α) (Sched κ) (Move κ α))

namespace History

/-- The calls that took the mutex, in the order in which they did. -/
def order (ts : History σ κ α) : List κ :=
  ts.filterMap fun t => match t.out with
    | .locked _ c => some c
    | _ => none

/-- A call was started on thread `k`. -/
def Begun (ts : History σ κ α) (k : Nat) : Prop := ∃ u ∈ ts, ∃ c, u.out = .began k c

/-- The call thread `k` is in, `c`, has taken the mutex; `a` is what `ser`, run
from `x` on the calls that took it before, replies to it. -/
def Took (ser : π → κ → π × α) (x : π) (ts : History σ κ α) (k : Nat) (c : κ) (a : α) : Prop :=
  ∃ l t r, ts = l ++ t :: r ∧ t.out = .locked k c ∧ ¬ Begun r k ∧
    a = (ser (Run.after ser x (order l)) c).2

variable {ts : History σ κ α} {t : Step (Threads σ κ α) (Sched κ) (Move κ α)} {k : Nat}

theorem begun_snoc : Begun (ts ++ [t]) k ↔ Begun ts k ∨ ∃ c, t.out = .began k c := by
  simp [Begun, or_and_right, exists_or]

theorem begun_snoc_of_ne (h : ∀ c, t.out ≠ .began k c) : Begun (ts ++ [t]) k ↔ Begun ts k := by
  rw [begun_snoc]
  exact or_iff_left fun ⟨c, e⟩ => h c e

theorem order_snoc_locked {c : κ} (h : t.out = .locked k c) : order (ts ++ [t]) = order ts ++ [c] := by
  rw [order, List.filterMap_append, List.filterMap_cons, h]
  rfl

theorem order_snoc (h : ∀ k c, t.out ≠ .locked k c) : order (ts ++ [t]) = order ts := by
  rw [order, List.filterMap_append, List.filterMap_cons]
  cases e : t.out with
  | locked k c => exact absurd e (h k c)
  | _ => exact List.append_nil _

variable {ser : π → κ → π × α} {x : π} {c : κ} {a : α}

theorem Took.snoc (h : Took ser x ts k c a) (ht : ∀ c, t.out ≠ .began k c) :
    Took ser x (ts ++ [t]) k c a := by
  obtain ⟨l, u, r, rfl, hu, hr, ha⟩ := h
  refine ⟨l, u, r ++ [t], ?_, hu, fun hb => hr ((begun_snoc_of_ne ht).mp hb), ha⟩
  rw [List.append_assoc, List.cons_append]

end History

section Alone

variable {code : κ → Thread σ α} {s : Threads σ κ α}

variable (code) in
/-- A call that takes no mutex, started on an idle thread and given all the turns,
replies what `exec` does. -/
theorem History.alone_call {view : σ → π} {I : σ → Prop} {Q : α → Prop} {c : κ}
    (hp : Thread.Free view I Q (code c)) (hI : I s.shared) {k : Nat} (hk : s.todo k = none) :
    ∃ n l t, Run.steps (Threads.move code) s (.start k c :: List.replicate n (.step k)) = l ++ [t] ∧
      Begun l k ∧ t.out = .returned k c ((code c).exec s.shared).1 := by
  have hs : Threads.move code s (.start k c) = (s.goOn k c (code c), .began k c) := if_pos hk
  obtain ⟨n, hn⟩ := Threads.alone_free code (s := s.goOn k c (code c)) hp hI
    (Threads.goOn_todo ..)
  have ht : (Run.after (Threads.move code) s (.start k c :: List.replicate n (.step k))).todo k =
      some (c, .ret ((code c).exec s.shared).1) := by
    rw [Run.after_cons, hs, hn, Threads.goOn_todo]
    rfl
  have hb : Begun (Run.steps (Threads.move code) s (.start k c :: List.replicate n (.step k))) k :=
    ⟨_, List.mem_cons_self, c, congrArg Prod.snd hs⟩
  have hr := Run.steps_snoc (f := Threads.move code) s (.start k c :: List.replicate n (.step k))
    (.step k)
  rw [List.cons_append, ← List.replicate_succ'] at hr
  refine ⟨n + 1, _, _, hr, hb, ?_⟩
  rw [Run.stepOf, Threads.move_step ht]
  rfl

end Alone

/-- What the calls satisfying `P` keep to: the part of the state the mutex
guards, the invariant, and what each call does. -/
structure Discipline (code : κ → Thread σ α) (P : κ → Prop) (π : Type) where
  view : σ → π
  /-- What holds of every shared state. -/
  I : σ → Prop
  /-- The calls that take the mutex. -/
  G : κ → Prop
  /-- A call that takes the mutex, in one step. -/
  ser : π → κ → π × α
  /-- What a call that does not take it may reply. -/
  Q : κ → α → Prop
  free : ∀ c, P c → ¬ G c → Thread.Free view I (Q c) (code c)
  locks : ∀ c, P c → G c → Thread.Locks view I (fun x => ser x c) (code c)

namespace Discipline

open Thread Threads History

variable {code : κ → Thread σ α} {P : κ → Prop} (D : Discipline code P π)

/-- What a thread that does not hold the mutex has left of its call. -/
inductive Waits (x : π) (ts : History σ κ α) (k : Nat) (c : κ) (p : Thread σ α) : Prop
  | free (hG : ¬ D.G c) (hp : Free D.view D.I (fun a => Begun ts k → D.Q c a) p)
  | before (hG : D.G c) (hp : Locks D.view D.I (fun x => D.ser x c) p)
  | after {a : α} (hG : D.G c) (ht : Took D.ser x ts k c a) (hp : Free D.view D.I (· = a) p)

/-- The threads after the history `ts` of a run from a state with view `x`. -/
structure Serial (x : π) (ts : History σ κ α) (s : Threads σ κ α) : Prop where
  inv : D.I s.shared
  quiet : s.holder = none → D.view s.shared = Run.after D.ser x (order ts)
  held : ∀ k, s.holder = some k → ∃ c p a, s.todo k = some (c, p) ∧ D.G c ∧
    Took D.ser x ts k c a ∧ Holds D.view D.I a (Run.after D.ser x (order ts)) (D.view s.shared) p
  waits : ∀ k c p, s.todo k = some (c, p) → s.holder ≠ some k → D.Waits x ts k c p

variable {D} {x : π} {ts : History σ κ α} {s : Threads σ κ α} {k : Nat} {c : κ} {p : Thread σ α}
  {t : Step (Threads σ κ α) (Sched κ) (Move κ α)}

/-- A turn that does not begin a call on the thread leaves what it has left. -/
theorem Waits.snoc (h : D.Waits x ts k c p) (ht : ∀ c, t.out ≠ .began k c) :
    D.Waits x (ts ++ [t]) k c p := by
  cases h with
  | free hG hp => exact .free hG (hp.mono fun a ha hb => ha ((begun_snoc_of_ne ht).mp hb))
  | before hG hp => exact .before hG hp
  | after hG hk hp => exact .after hG (hk.snoc ht) hp

/-- What the thread that holds the mutex has left. -/
theorem Serial.holds (h : D.Serial x ts s) (hk : s.todo k = some (c, p)) (hh : s.holder = some k) :
    ∃ a, D.G c ∧ Took D.ser x ts k c a ∧
      Holds D.view D.I a (Run.after D.ser x (order ts)) (D.view s.shared) p := by
  obtain ⟨c', q, a, hq, hG, ht, hd⟩ := h.held k hh
  rw [hk, Option.some.injEq, Prod.mk.injEq] at hq
  obtain ⟨rfl, rfl⟩ := hq
  exact ⟨a, hG, ht, hd⟩

/-- Nothing changes but what one thread, `k`, that does not hold the mutex, has left. -/
theorem Serial.keep (h : D.Serial x ts s) {s' : Threads σ κ α} (hk : s.holder ≠ some k)
    (hI : D.I s'.shared) (hv : D.view s'.shared = D.view s.shared) (hh : s'.holder = s.holder)
    (htodo : ∀ j, j ≠ k → s'.todo j = s.todo j) (hl : ∀ k c, t.out ≠ .locked k c)
    (hb : ∀ j, j ≠ k → ∀ c, t.out ≠ .began j c)
    (hw : ∀ c p, s'.todo k = some (c, p) → D.Waits x (ts ++ [t]) k c p) :
    D.Serial x (ts ++ [t]) s' where
  inv := hI
  quiet hn := by rw [order_snoc hl, hv, h.quiet (hh ▸ hn)]
  held j hj := by
    rw [hh] at hj
    have hjk : j ≠ k := fun e => hk (e ▸ hj)
    obtain ⟨c, p, a, hp, hG, ht, hd⟩ := h.held j hj
    rw [htodo j hjk, order_snoc hl, hv]
    exact ⟨c, p, a, hp, hG, ht.snoc (hb j hjk), hd⟩
  waits j c p hp hj := by
    by_cases hjk : j = k
    · subst hjk
      exact hw c p hp
    · rw [htodo j hjk] at hp
      rw [hh] at hj
      exact (h.waits j c p hp hj).snoc (hb j hjk)

theorem Serial.idle (h : D.Serial x ts s) (ht : t.out = .idle) : D.Serial x (ts ++ [t]) s := by
  have hb : ∀ k c, t.out ≠ .began k c := fun k c e => by cases ht.symm.trans e
  have hl : ∀ k c, t.out ≠ .locked k c := fun k c e => by cases ht.symm.trans e
  refine ⟨h.inv, fun hn => ?_, fun k hk => ?_, fun k c p hp hk => (h.waits k c p hp hk).snoc (hb k)⟩
  · rw [order_snoc hl, h.quiet hn]
  · obtain ⟨c, p, a, hp, hG, hk, hd⟩ := h.held k hk
    rw [order_snoc hl]
    exact ⟨c, p, a, hp, hG, hk.snoc (hb k), hd⟩

/-- A call is started: it has all its code left. -/
theorem Serial.began (h : D.Serial x ts s) (hk : s.todo k = none) (hc : P c)
    (ht : t.out = .began k c) : D.Serial x (ts ++ [t]) (s.goOn k c (code c)) := by
  have hne : s.holder ≠ some k := fun e => by
    obtain ⟨c, p, a, hp, -⟩ := h.held k e
    cases hk.symm.trans hp
  refine h.keep hne h.inv rfl rfl (fun j hj => goOn_todo_of_ne s k c _ hj)
    (fun k c e => by cases ht.symm.trans e) (fun j hj c' e => ?_) fun c' p hp => ?_
  · cases ht.symm.trans e
    exact hj rfl
  · cases (goOn_todo ..).symm.trans hp
    by_cases hG : D.G c
    · exact .before hG (D.locks c hc hG)
    · exact .free hG ((D.free c hc hG).mono fun a ha _ => ha)

/-- The thread that holds the mutex makes an access. -/
theorem Serial.acted_holding (h : D.Serial x ts s) {f : σ → σ} {p : σ → Thread σ α}
    (hk : s.todo k = some (c, .act f p)) (hh : s.holder = some k) (ht : t.out = .acted k) :
    D.Serial x (ts ++ [t]) { s.goOn k c (p s.shared) with shared := f s.shared } := by
  have hb : ∀ k c, t.out ≠ .began k c := fun k c e => by cases ht.symm.trans e
  have hl : ∀ k c, t.out ≠ .locked k c := fun k c e => by cases ht.symm.trans e
  obtain ⟨a, hG, hj, hd⟩ := h.holds hk hh
  obtain ⟨hi, hd⟩ := holds_act hd h.inv rfl
  refine ⟨hi, fun hn => ?_, fun j hj' => ?_, fun j c' q hq hj' => ?_⟩
  · cases hh.symm.trans hn
  · obtain rfl : k = j := Option.some.inj (hh.symm.trans hj')
    rw [order_snoc hl]
    exact ⟨c, _, a, goOn_todo .., hG, hj.snoc (hb k), hd⟩
  · have hjk : j ≠ k := fun e => hj' (e ▸ hh)
    rw [goOn_todo_of_ne _ _ _ _ hjk] at hq
    exact (h.waits j c' q hq hj').snoc (hb j)

/-- A thread that does not hold the mutex makes an access. -/
theorem Serial.acted_waiting (h : D.Serial x ts s) {f : σ → σ} {p : σ → Thread σ α}
    (hk : s.todo k = some (c, .act f p)) (hh : s.holder ≠ some k) (ht : t.out = .acted k) :
    D.Serial x (ts ++ [t]) { s.goOn k c (p s.shared) with shared := f s.shared } := by
  have hb : ∀ k c, t.out ≠ .began k c := fun k c e => by cases ht.symm.trans e
  have hp : D.view (f s.shared) = D.view s.shared ∧ D.I (f s.shared) ∧
      D.Waits x ts k c (p s.shared) := by
    cases h.waits k c _ hk hh with
    | free hG hp => exact (free_act hp h.inv).imp_right (.imp_right (.free hG))
    | before hG hp => exact (locks_act hp h.inv).imp_right (.imp_right (.before hG))
    | after hG ht hp => exact (free_act hp h.inv).imp_right (.imp_right (.after hG ht))
  refine h.keep hh hp.2.1 hp.1 rfl (fun j hj => goOn_todo_of_ne s k c _ hj)
    (fun k c e => by cases ht.symm.trans e) (fun j _ => hb j) fun c' q hq => ?_
  cases (goOn_todo ..).symm.trans hq
  exact hp.2.2.snoc (hb k)

/-- A thread takes the mutex: from here to where it releases it, its call is the
next one of the sequential run. -/
theorem Serial.locked (h : D.Serial x ts s) (hk : s.todo k = some (c, .lock p))
    (hn : s.holder = none) (ht : t.out = .locked k c) :
    D.Serial x (ts ++ [t]) { s.goOn k c p with holder := some k } := by
  have hw : ∀ j, s.holder ≠ some j := fun j e => by cases hn.symm.trans e
  cases h.waits k c _ hk (hw k) with
  | free _ hp => exact absurd hp not_free_lock
  | after _ _ hp => exact absurd hp not_free_lock
  | before hG hp =>
    have hd := locks_lock hp h.inv
    refine ⟨h.inv, nofun, fun j hj => ?_, fun j c' q hq hj => ?_⟩
    · obtain rfl : k = j := Option.some.inj hj
      refine ⟨c, p, _, goOn_todo .., hG, ⟨ts, t, [], rfl, ht, nofun, rfl⟩, ?_⟩
      rw [order_snoc_locked ht, Run.after_snoc, ← h.quiet hn]
      exact hd
    · have hjk : j ≠ k := fun e => hj (e ▸ rfl)
      rw [goOn_todo_of_ne _ _ _ _ hjk] at hq
      exact (h.waits j c' q hq (hw j)).snoc fun c e => by cases ht.symm.trans e

/-- A thread releases the mutex, which it holds. -/
theorem Serial.unlocked (h : D.Serial x ts s) (hk : s.todo k = some (c, .unlock p))
    (ht : t.out = .unlocked k) : D.Serial x (ts ++ [t]) { s.goOn k c p with holder := none } := by
  have hb : ∀ k c, t.out ≠ .began k c := fun k c e => by cases ht.symm.trans e
  by_cases hh : s.holder = some k
  · obtain ⟨a, hG, hj, hd⟩ := h.holds hk hh
    obtain ⟨hx, hp⟩ := holds_unlock hd
    refine ⟨h.inv, fun _ => ?_, nofun, fun j c' q hq _ => ?_⟩
    · rw [order_snoc fun k c e => by cases ht.symm.trans e]
      exact hx
    · by_cases hjk : j = k
      · subst hjk
        cases (goOn_todo ..).symm.trans hq
        exact .after hG (hj.snoc (hb j)) hp
      · rw [goOn_todo_of_ne _ _ _ _ hjk] at hq
        exact (h.waits j c' q hq fun e => hjk (Option.some.inj (e.symm.trans hh))).snoc (hb j)
  · cases h.waits k c _ hk hh with
    | free _ hp => exact absurd hp not_free_unlock
    | before _ hp => exact absurd hp not_locks_unlock
    | after _ _ hp => exact absurd hp not_free_unlock

theorem Serial.returned (h : D.Serial x ts s) {a : α} (hk : s.todo k = some (c, .ret a))
    (ht : t.out = .returned k c a) : D.Serial x (ts ++ [t]) (s.finish k) := by
  have hh : s.holder ≠ some k := fun e => by
    obtain ⟨_, -, -, hd⟩ := h.holds hk e
    exact not_holds_ret hd
  refine h.keep hh h.inv rfl rfl (fun j hj => finish_todo_of_ne s k hj)
    (fun k c e => by cases ht.symm.trans e) (fun j _ c e => by cases ht.symm.trans e) fun c' p hp => ?_
  cases (finish_todo s k).symm.trans hp

/-- One turn keeps the invariant. -/
theorem Serial.step (h : D.Serial x ts s) {e : Sched κ} (he : e.Starts P) :
    D.Serial x (ts ++ [Run.stepOf (move code) s e]) (move code s e).1 := by
  have ho := move_outcome code s e
  rw [Run.stepOf]
  generalize move code s e = r at ho ⊢
  cases ho with
  | idle e => exact h.idle rfl
  | began c hk => exact h.began hk he rfl
  | @acted k c f p hk =>
    by_cases hh : s.holder = some k
    · exact h.acted_holding hk hh rfl
    · exact h.acted_waiting hk hh rfl
  | locked hk hn => exact h.locked hk hn rfl
  | unlocked hk => exact h.unlocked hk rfl
  | returned hk => exact h.returned hk rfl

/-- The invariant of a run. -/
theorem serial_after (h : D.Serial x ts s) {es : List (Sched κ)} (he : ∀ e ∈ es, e.Starts P) :
    D.Serial x (ts ++ Run.steps (move code) s es) (Run.after (move code) s es) := by
  induction es generalizing ts s with
  | nil => simpa using h
  | cons e es ih =>
    rw [Run.steps_cons, Run.after_cons, List.append_cons]
    exact ih (h.step (he e List.mem_cons_self)) fun e' h' => he e' (List.mem_cons_of_mem _ h')

/-- A run starts with the mutex free and no thread in a call that takes it. -/
theorem serial_nil (hI : D.I s.shared) (hn : s.holder = none)
    (hs : ∀ k c p, s.todo k = some (c, p) → ¬ D.G c ∧ Free D.view D.I (fun _ => True) p) :
    D.Serial (D.view s.shared) [] s where
  inv := hI
  quiet _ := rfl
  held k hk := by cases hn.symm.trans hk
  waits k c p hp _ := .free (hs k c p hp).1 ((hs k c p hp).2.mono fun _ _ ⟨_, h, _⟩ => nomatch h)

/-- What a call that is about to return replies. -/
theorem Serial.reply (h : D.Serial x ts s) {a : α} (hk : s.todo k = some (c, .ret a)) :
    D.G c ∧ Took D.ser x ts k c a ∨ ¬ D.G c ∧ (Begun ts k → D.Q c a) := by
  have hh : s.holder ≠ some k := fun e => by
    obtain ⟨_, -, -, hd⟩ := h.holds hk e
    exact not_holds_ret hd
  cases h.waits k c _ hk hh with
  | free hG hp => exact .inr ⟨hG, free_ret hp⟩
  | before _ hp => exact absurd hp not_locks_ret
  | after hG ht hp => exact .inl ⟨hG, free_ret hp ▸ ht⟩

theorem todo_of_returned {e : Sched κ} {a : α} (h : (move code s e).2 = .returned k c a) :
    s.todo k = some (c, .ret a) := by
  have ho := move_outcome code s e
  generalize move code s e = r at ho h
  cases ho with
  | returned hk =>
    cases h
    exact hk
  | _ => cases h

section Run

variable {s₀ : Threads σ κ α} {es : List (Sched κ)} (h₀ : D.Serial x [] s₀)
  (he : ∀ e ∈ es, e.Starts P)

include h₀ he

/-- A reply of a run, seen where it is made. -/
theorem reply_of_steps {l r : History σ κ α} (e : Run.steps (move code) s₀ es = l ++ t :: r) {a : α}
    (ht : t.out = .returned k c a) :
    D.G c ∧ Took D.ser x l k c a ∨ ¬ D.G c ∧ (Begun l k → D.Q c a) := by
  obtain ⟨js, i, ks, rfl, rfl, rfl, -⟩ := Run.steps_eq_append.mp e
  have hj : ∀ e ∈ js, e.Starts P := fun e h' => he e (List.mem_append_left _ h')
  have h := serial_after h₀ hj
  rw [List.nil_append] at h
  exact h.reply (todo_of_returned ht)

/-- A call that takes the mutex replies what it replies in the sequential run of
the calls that take it, in the order in which they do. -/
theorem replies_serial {l r : History σ κ α} (e : Run.steps (move code) s₀ es = l ++ t :: r) {a : α}
    (ht : t.out = .returned k c a) (hG : D.G c) : Took D.ser x l k c a := by
  rcases reply_of_steps h₀ he e ht with h | h
  · exact h.2
  · exact absurd hG h.1

/-- A call of the run that does not take the mutex replies what `Q` says. -/
theorem replies_free {l r : History σ κ α} (e : Run.steps (move code) s₀ es = l ++ t :: r) {a : α}
    (ht : t.out = .returned k c a) (hG : ¬ D.G c) (hb : Begun l k) : D.Q c a := by
  rcases reply_of_steps h₀ he e ht with h | h
  · exact absurd h.1 hG
  · exact h.2 hb

/-- While no thread holds the mutex, the view is that of the sequential run. -/
theorem view_serial (hn : (Run.after (move code) s₀ es).holder = none) :
    D.view (Run.after (move code) s₀ es).shared =
      Run.after D.ser x (order (Run.steps (move code) s₀ es)) := by
  simpa using (serial_after h₀ he).quiet hn

theorem inv_after : D.I (Run.after (move code) s₀ es).shared := (serial_after h₀ he).inv

end Run

/-! ## No deadlock -/

/-- Thread `k`, on its own, finishes its call and leaves the mutex free. -/
def Finishes (code : κ → Thread σ α) (s : Threads σ κ α) (k : Nat) : Prop :=
  ∃ n, (Run.after (move code) s (List.replicate n (.step k))).todo = Function.update s.todo k none ∧
    (Run.after (move code) s (List.replicate n (.step k))).holder = none

/-- One access of the thread, and the rest of its call. -/
theorem Finishes.cons {s' : Threads σ κ α} {q : Thread σ α} (hk : s.todo k = some (c, p))
    (hs : (s.access k c p).1 = s') (ht : s'.todo = Function.update s.todo k (some (c, q)))
    (h : Finishes code s' k) : Finishes code s k := by
  obtain ⟨n, htodo, hn⟩ := h
  have hr : Run.after (move code) s (List.replicate (n + 1) (.step k)) =
      Run.after (move code) s' (List.replicate n (.step k)) := by
    rw [List.replicate_succ, Run.after_cons, move_step hk, hs]
  refine ⟨n + 1, ?_, hr ▸ hn⟩
  rw [hr, htodo, ht, Function.update_idem]

theorem finishes_free {Q : α → Prop} (hp : Free D.view D.I Q p) (hI : D.I s.shared)
    (hk : s.todo k = some (c, p)) (hn : s.holder = none) : Finishes code s k := by
  induction hp generalizing s with
  | ret _ => exact ⟨1, by simp [move_step hk, access, finish, hn]⟩
  | act hf _ ih => exact .cons hk rfl rfl (ih _ hI (hf _ hI).2 (goOn_todo ..) hn)

theorem finishes_holds {a : α} {y v : π} (hp : Holds D.view D.I a y v p) (hI : D.I s.shared)
    (hv : D.view s.shared = v) (hk : s.todo k = some (c, p)) : Finishes code s k := by
  induction hp generalizing s with
  | act hf _ ih =>
    exact .cons hk rfl rfl (ih _ hI hv (hf _ hI hv).2 (hf _ hI hv).1 (goOn_todo ..))
  | unlock hp =>
    have hr := finishes_free (s := { s.goOn k c _ with holder := none }) hp hI (goOn_todo ..) rfl
    exact .cons hk rfl rfl hr

theorem finishes_locks {ser : π → π × α} (hp : Locks D.view D.I ser p) (hI : D.I s.shared)
    (hk : s.todo k = some (c, p)) (hn : s.holder = none) : Finishes code s k := by
  induction hp generalizing s with
  | @lock p h =>
    have hr := finishes_holds (s := { s.goOn k c p with holder := some k }) (h _ hI) hI rfl
      (goOn_todo ..)
    exact .cons hk (by rw [access, if_pos hn]) rfl hr
  | act hf _ ih => exact .cons hk rfl rfl (ih _ hI (hf _ hI).2 (goOn_todo ..) hn)

/-- While the mutex is free, every thread can finish on its own. -/
theorem Serial.finishes (h : D.Serial x ts s) (hk : s.todo k = some (c, p)) (hn : s.holder = none) :
    Finishes code s k := by
  cases h.waits k c p hk (by rw [hn]; nofun) with
  | free _ hp => exact finishes_free hp h.inv hk hn
  | before _ hp => exact finishes_locks hp h.inv hk hn
  | after _ _ hp => exact finishes_free hp h.inv hk hn

theorem starts_step (ks : List Nat) : ∀ e ∈ ks.map (Sched.step (κ := κ)), e.Starts P := by
  intro e he
  obtain ⟨k, -, rfl⟩ := List.mem_map.mp he
  trivial

/-- Threads `B` can finish, one after another. -/
theorem Serial.exists_idle_of_free (h : D.Serial x ts s) (hn : s.holder = none) {B : List Nat}
    (hB : ∀ k, s.todo k ≠ none → k ∈ B) :
    ∃ ks : List Nat, ∀ k, (Run.after (move code) s (ks.map .step)).todo k = none := by
  induction B generalizing s ts with
  | nil => exact ⟨[], fun k => by_contra fun hk => nomatch hB k hk⟩
  | cons j B ih =>
    cases hj : s.todo j with
    | none =>
      refine ih h hn fun k hk => (List.mem_cons.mp (hB k hk)).resolve_left ?_
      rintro rfl
      exact hk hj
    | some cp =>
      obtain ⟨n, htodo, hn'⟩ := h.finishes hj hn
      rw [← List.map_replicate] at htodo hn'
      obtain ⟨ks, hks⟩ := ih (serial_after h (starts_step _)) hn' fun k hk => by
        rw [htodo] at hk
        by_cases hkj : k = j
        · rw [hkj, Function.update_self] at hk
          exact absurd rfl hk
        · rw [Function.update_of_ne hkj] at hk
          exact (List.mem_cons.mp (hB k hk)).resolve_left hkj
      refine ⟨List.replicate n j ++ ks, fun k => ?_⟩
      rw [List.map_append, Run.after_append]
      exact hks k

/-- Whatever the threads are doing, they can all finish what they have begun. -/
theorem Serial.exists_idle (h : D.Serial x ts s) {B : List Nat}
    (hB : ∀ k, s.todo k ≠ none → k ∈ B) :
    ∃ ks : List Nat, ∀ k, (Run.after (move code) s (ks.map .step)).todo k = none := by
  cases hh : s.holder with
  | none => exact h.exists_idle_of_free hh hB
  | some j =>
    obtain ⟨c, p, a, hj, -, -, hd⟩ := h.held j hh
    obtain ⟨n, htodo, hn⟩ := finishes_holds hd h.inv rfl hj
    rw [← List.map_replicate] at htodo hn
    have hB' : ∀ k, (Run.after (move code) s ((List.replicate n j).map .step)).todo k ≠ none →
        k ∈ B := by
      intro k hk
      refine hB k fun e => hk ?_
      by_cases hkj : k = j
      · rw [htodo, hkj, Function.update_self]
      · rw [htodo, Function.update_of_ne hkj, e]
    obtain ⟨ks, hks⟩ := (serial_after h (starts_step _)).exists_idle_of_free hn hB'
    refine ⟨List.replicate n j ++ ks, fun k => ?_⟩
    rw [List.map_append, Run.after_append]
    exact hks k

end Discipline

end SO
