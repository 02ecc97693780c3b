import Proyectos.Framework.Threads

/-!
# What a thread breaks, it mends

A property `F` of the shared state that code without the mutex may break on its
way, in states with an invariant `I`: an access that breaks it leaves code that
holds it again before it returns, whatever other threads do in between (`Mends`).
`Minds` is code that keeps to this. So while `F` is broken some call in flight is
to mend it (`Mending`), and once no call is in flight `F` holds (`mended_of_idle`).
-/

namespace SO

variable {σ α β κ π : Type}

namespace Thread

section

variable (I F : σ → Prop)

/-- Code that does not end while `F` is broken. -/
inductive Mends : Thread σ α → Prop
  | act {f : σ → σ} {k : σ → Thread σ α} (hk : ∀ s, I s → ¬ F (f s) → Mends (k s)) :
      Mends (.act f k)

/-- Code that keeps `I`, and mends `F` where it breaks it. -/
inductive Minds : Thread σ α → Prop
  | ret (a : α) : Minds (.ret a)
  | act {f : σ → σ} {k : σ → Thread σ α} (hI : ∀ s, I s → I (f s))
      (hF : ∀ s, I s → F s → ¬ F (f s) → Mends I F (k s)) (hk : ∀ s, I s → Minds (k s)) :
      Minds (.act f k)

end

variable {I F : σ → Prop}

theorem not_mends_ret {a : α} : ¬ Mends I F (.ret a : Thread σ α) := nofun

theorem not_minds_lock {p : Thread σ α} : ¬ Minds I F (.lock p) := nofun

theorem not_minds_unlock {p : Thread σ α} : ¬ Minds I F (.unlock p) := nofun

theorem mends_act {f : σ → σ} {k : σ → Thread σ α} (h : Mends I F (.act f k)) {s : σ} (hs : I s)
    (hF : ¬ F (f s)) : Mends I F (k s) := by
  cases h with
  | act hk => exact hk s hs hF

theorem minds_act {f : σ → σ} {k : σ → Thread σ α} (h : Minds I F (.act f k)) {s : σ} (hs : I s) :
    I (f s) ∧ (F s → ¬ F (f s) → Mends I F (k s)) ∧ Minds I F (k s) := by
  cases h with
  | act hI hF hk => exact ⟨hI s hs, hF s hs, hk s hs⟩

theorem Mends.bind {p : Thread σ α} (hp : Mends I F p) (q : α → Thread σ β) :
    Mends I F (p.bind q) := by
  induction hp with
  | act _ ih => exact .act ih

theorem Minds.bind {p : Thread σ α} {q : α → Thread σ β} (hp : Minds I F p)
    (hq : ∀ a, Minds I F (q a)) : Minds I F (p.bind q) := by
  induction hp with
  | ret a => exact hq a
  | act hI hF _ ih => exact .act hI (fun s hs h hn => (hF s hs h hn).bind q) ih

variable {view : σ → π} {Q : α → Prop} {p : Thread σ α} {q : α → Thread σ β}

/-- Whatever code goes on with, it mends what is broken, if that does. -/
theorem Free.mends (hp : Free view I Q p) (hq : ∀ a, Q a → Mends I F (q a)) :
    Mends I F (p.bind q) := by
  induction hp with
  | ret h => exact hq _ h
  | act _ _ ih => exact .act fun s hs _ => ih s hs

/-- Code may break what the code after it mends. -/
theorem Free.minds (hp : Free view I Q p) (hm : ∀ a, Q a → Mends I F (q a))
    (hq : ∀ a, Q a → Minds I F (q a)) : Minds I F (p.bind q) := by
  induction hp with
  | ret h => exact hq _ h
  | act hf hk ih => exact .act (fun s hs => (hf s hs).2) (fun s hs _ _ => (hk s hs).mends hm) ih

/-- Code that leaves alone what `F` is about breaks nothing. -/
theorem Free.unbroken (hp : Free view I Q p) (hF : ∀ s s', view s' = view s → F s → F s') :
    Minds I F p := by
  induction hp with
  | ret _ => exact .ret _
  | act hf _ ih =>
    exact .act (fun s hs => (hf s hs).2) (fun s hs h hn => absurd (hF _ _ (hf s hs).1 h) hn) ih

/-- It takes no mutex. -/
theorem Minds.free (hp : Minds I F p) : Free (fun _ => ()) I (fun _ => True) p := by
  induction hp with
  | ret _ => exact .ret trivial
  | act hI _ _ ih => exact .act (fun s hs => ⟨rfl, hI s hs⟩) ih

end Thread

open Thread (Mends Minds)

/-- The threads while calls that mend what they break are in flight. -/
structure Mending (I F : σ → Prop) (s : Threads σ κ α) : Prop where
  inv : I s.shared
  minds : ∀ k c p, s.todo k = some (c, p) → Minds I F p
  whole : F s.shared ∨ ∃ k c p, s.todo k = some (c, p) ∧ Mends I F p

namespace Mending

variable {code : κ → Thread σ α} {I F : σ → Prop} {P : κ → Prop} {s : Threads σ κ α}

/-- What one thread does keeps the rest of the invariant. -/
theorem of_ne (h : Mending I F s) {k : Nat} {s' : Threads σ κ α}
    (ht : ∀ i ≠ k, s'.todo i = s.todo i) (inv : I s'.shared)
    (minds : ∀ c p, s'.todo k = some (c, p) → Minds I F p)
    (keep : F s.shared → F s'.shared ∨ ∃ c p, s'.todo k = some (c, p) ∧ Mends I F p)
    (mend : ∀ c p, s.todo k = some (c, p) → Mends I F p →
      F s'.shared ∨ ∃ c p, s'.todo k = some (c, p) ∧ Mends I F p) : Mending I F s' where
  inv := inv
  minds i c p hp := by
    by_cases hik : i = k
    · subst hik
      exact minds c p hp
    · exact h.minds i c p ((ht i hik).symm.trans hp)
  whole := by
    rcases h.whole with hF | ⟨i, c, p, hp, hm⟩
    · exact (keep hF).imp_right fun ⟨c, p, hp⟩ => ⟨k, c, p, hp⟩
    · by_cases hik : i = k
      · subst hik
        exact (mend c p hp hm).imp_right fun ⟨c, p, hp⟩ => ⟨i, c, p, hp⟩
      · exact .inr ⟨i, c, p, (ht i hik).trans hp, hm⟩

/-- An access to the state: the thread breaks `F` and goes on to mend it, or it mends what
it broke before. -/
theorem acted (h : Mending I F s) {k : Nat} {c : κ} {f : σ → σ} {p : σ → Thread σ α}
    (hk : s.todo k = some (c, .act f p)) :
    Mending I F { s.goOn k c (p s.shared) with shared := f s.shared } := by
  obtain ⟨hI, hF, hp⟩ := Thread.minds_act (h.minds k c _ hk) h.inv
  have hgo : ({ s.goOn k c (p s.shared) with shared := f s.shared } : Threads σ κ α).todo k =
      some (c, p s.shared) := Threads.goOn_todo ..
  refine h.of_ne (k := k) (fun i hi => Threads.goOn_todo_of_ne s k c _ hi) hI (fun c' q hq => ?_)
    (fun hs => ?_) fun c' q hq hm => ?_
  · cases hgo.symm.trans hq
    exact hp
  · exact or_iff_not_imp_left.mpr fun hn => ⟨c, _, hgo, hF hs hn⟩
  · cases hk.symm.trans hq
    exact or_iff_not_imp_left.mpr fun hn => ⟨c, _, hgo, Thread.mends_act hm h.inv hn⟩

/-- What a turn keeps. -/
theorem step (h : Mending I F s) (hc : ∀ c, P c → Minds I F (code c)) {e : Sched κ}
    (he : e.Starts P) : Mending I F (Threads.move code s e).1 := by
  have ho := Threads.move_outcome code s e
  generalize Threads.move code s e = r at ho ⊢
  cases ho with
  | idle e => exact h
  | @began k c hk =>
    refine h.of_ne (k := k) (fun i hi => Threads.goOn_todo_of_ne s k c _ hi) h.inv
      (fun c' q hq => ?_) .inl fun c' q hq _ => ?_
    · cases (Threads.goOn_todo ..).symm.trans hq
      exact hc c he
    · cases hk.symm.trans hq
  | acted hk => exact h.acted hk
  | locked hk _ => exact absurd (h.minds _ _ _ hk) Thread.not_minds_lock
  | unlocked hk => exact absurd (h.minds _ _ _ hk) Thread.not_minds_unlock
  | @returned k c a hk =>
    refine h.of_ne (k := k) (fun i hi => Threads.finish_todo_of_ne s k hi) h.inv
      (fun c' q hq => ?_) .inl fun c' q hq hm => ?_
    · cases (Threads.finish_todo ..).symm.trans hq
    · cases hk.symm.trans hq
      exact absurd hm Thread.not_mends_ret

/-- What a run keeps. -/
theorem after (h : Mending I F s) (hc : ∀ c, P c → Minds I F (code c)) {es : List (Sched κ)}
    (he : ∀ e ∈ es, e.Starts P) : Mending I F (Run.after (Threads.move code) s es) := by
  induction es generalizing s with
  | nil => exact h
  | cons e es ih =>
    exact ih (h.step hc (he e List.mem_cons_self)) fun e' h' => he e' (List.mem_cons_of_mem _ h')

/-- With no call in flight, nothing is broken. -/
theorem of_idle (h : Mending I F s) (hi : ∀ k, s.todo k = none) : I s.shared ∧ F s.shared := by
  refine ⟨h.inv, h.whole.resolve_right ?_⟩
  rintro ⟨k, c, p, hp, -⟩
  rw [hi k] at hp
  cases hp

end Mending

/-- Calls that mend what they break leave nothing broken. -/
theorem mended_of_idle {code : κ → Thread σ α} {I F : σ → Prop} {P : κ → Prop}
    {s : Threads σ κ α} (hc : ∀ c, P c → Minds I F (code c)) (h : ∀ k, s.todo k = none)
    (hI : I s.shared) (hF : F s.shared) {es : List (Sched κ)} (he : ∀ e ∈ es, e.Starts P)
    (hi : ∀ k, (Run.after (Threads.move code) s es).todo k = none) :
    I (Run.after (Threads.move code) s es).shared ∧ F (Run.after (Threads.move code) s es).shared := by
  have hs : Mending I F s := by
    refine ⟨hI, fun k c p hp => ?_, .inl hF⟩
    rw [h k] at hp
    cases hp
  exact (hs.after hc he).of_idle hi

end SO
