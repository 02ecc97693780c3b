import Proyectos.Kernel.Procfs

/-!
# How a walk through `/proc` ends

The turns of the listers end as the entry alone tells, whatever the turns before
have left (`Lister.Ends`): `bad` entries abort the program, `last` ones make
`main` return, and after any other it goes on. So the program aborts just if it
comes to a bad entry (`main_eq_none_iff`).
-/

namespace SO

variable {σ : Type}

/-- How each entry's turn ends. -/
structure Lister.Ends (p : Lister σ) (bad last : Entry → Prop) : Prop where
  abort {e} : bad e → ∀ s, p.turn s e = .abort
  ret {e} : ¬ bad e → last e → ∀ s, ∃ code out, p.turn s e = .ret code out
  next {e} : ¬ bad e → ¬ last e → ∀ s, ∃ s' out, p.turn s e = .next s' out

namespace Lister

variable {p : Lister σ} {ph : Phase σ} {s s' : σ} {e : Entry} {es : List Entry} {code : Int}
  {out : List Printed}

/-! ## A step -/

theorem step_next (h : p.turn s e = .next s' out) : p.step (.loop s) e = (.loop s', out) := by
  simp only [step, h]

theorem step_ret (h : p.turn s e = .ret code out) : p.step (.loop s) e = (.returned code, out) := by
  simp only [step, h]

theorem step_abort (h : p.turn s e = .abort) : p.step (.loop s) e = (.aborted, []) := by
  simp only [step, h]

/-- What the program prints from the phase `ph` on. -/
def printed (p : Lister σ) (ph : Phase σ) (es : List Entry) : List Printed :=
  (Run.steps p.step ph es).flatMap (·.out)

theorem printed_cons (p : Lister σ) (ph : Phase σ) (e : Entry) (es : List Entry) :
    p.printed ph (e :: es) = (p.step ph e).2 ++ p.printed (p.step ph e).1 es := rfl

/-- A program that has ended goes no further and prints nothing. -/
theorem ended (h : ∀ s, ph ≠ .loop s) (es : List Entry) :
    Run.after p.step ph es = ph ∧ p.printed ph es = [] := by
  induction es with
  | nil => exact ⟨rfl, rfl⟩
  | cons e es ih =>
    rcases ph with s | code | _
    · exact absurd rfl (h s)
    · exact ih
    · exact ih

theorem main_eq_none : p.main s (some es) = none ↔ p.after s es = .aborted := by
  simp only [main]
  rcases p.after s es with s' | code | _
  · exact iff_of_false nofun nofun
  · exact iff_of_false nofun nofun
  · exact iff_of_true rfl rfl

/-- A program that does not abort prints its heading and what its turns print; it
closes the directory just if it has come to its end. -/
theorem main_of_after (p : Lister σ) (s : σ) (es : List Entry) (h : p.after s es ≠ .aborted) :
    ∃ x, p.main s (some es) = some x ∧ x.out = p.heading ++ p.printed (.loop s) es ∧
      (x.closed = true ↔ ∃ s', p.after s es = .loop s') := by
  simp only [main]
  rcases ha : p.after s es with s' | code | _
  · exact ⟨_, rfl, rfl, iff_of_true rfl ⟨s', rfl⟩⟩
  · exact ⟨_, rfl, rfl, iff_of_false nofun nofun⟩
  · exact absurd ha h

/-! ## The walk -/

namespace Ends

variable {bad last : Entry → Prop} (h : p.Ends bad last)
include h

theorem after_eq_aborted (s : σ) (es : List Entry) : p.after s es = .aborted ↔
    ∃ l e r, es = l ++ e :: r ∧ bad e ∧ ∀ e' ∈ l, ¬ bad e' ∧ ¬ last e' := by
  induction es generalizing s with
  | nil =>
    refine iff_of_false nofun ?_
    rintro ⟨l, e, r, he, -⟩
    simp at he
  | cons e es ih =>
    -- a bad entry further on is reached past `e` only
    have hfirst (hstop : bad e ∨ last e) :
        (∃ l e' r, e :: es = l ++ e' :: r ∧ bad e' ∧ ∀ e'' ∈ l, ¬ bad e'' ∧ ¬ last e'') ↔ bad e := by
      constructor
      · rintro ⟨_ | ⟨e₀, l⟩, e', r, he, hb, hl⟩
        · rw [(List.cons.inj he).1]
          exact hb
        · obtain ⟨rfl, -⟩ := List.cons.inj he
          obtain ⟨hnb, hnl⟩ := hl e List.mem_cons_self
          exact absurd hstop (not_or.mpr ⟨hnb, hnl⟩)
      · exact fun hb => ⟨[], e, es, rfl, hb, fun _ hm => absurd hm List.not_mem_nil⟩
    rw [Lister.after, Run.after_cons]
    by_cases hb : bad e
    · rw [step_abort (h.abort hb s), (ended nofun es).1, hfirst (.inl hb)]
      exact iff_of_true rfl hb
    by_cases hl : last e
    · obtain ⟨code, out, ht⟩ := h.ret hb hl s
      rw [step_ret ht, (ended nofun es).1, hfirst (.inr hl)]
      exact iff_of_false nofun hb
    · obtain ⟨s', out, ht⟩ := h.next hb hl s
      rw [step_next ht]
      refine (ih s').trans ?_
      constructor
      · rintro ⟨l, e', r, rfl, hb', hl'⟩
        exact ⟨e :: l, e', r, rfl, hb', List.forall_mem_cons.mpr ⟨⟨hb, hl⟩, hl'⟩⟩
      · rintro ⟨_ | ⟨e₀, l⟩, e', r, he, hb', hl'⟩
        · obtain ⟨rfl, -⟩ := List.cons.inj he
          exact absurd hb' hb
        · obtain ⟨rfl, rfl⟩ := List.cons.inj he
          exact ⟨l, e', r, rfl, hb', (List.forall_mem_cons.mp hl').2⟩

/-- The program comes to the end of the directory just if no entry ends it. -/
theorem after_eq_loop (s : σ) (es : List Entry) :
    (∃ s', p.after s es = .loop s') ↔ ∀ e ∈ es, ¬ bad e ∧ ¬ last e := by
  induction es generalizing s with
  | nil => exact iff_of_true ⟨s, rfl⟩ fun e hm => absurd hm List.not_mem_nil
  | cons e es ih =>
    rw [List.forall_mem_cons, Lister.after, Run.after_cons]
    by_cases hb : bad e
    · rw [step_abort (h.abort hb s), (ended nofun es).1]
      exact iff_of_false nofun fun hs => hs.1.1 hb
    by_cases hl : last e
    · obtain ⟨code, out, ht⟩ := h.ret hb hl s
      rw [step_ret ht, (ended nofun es).1]
      exact iff_of_false nofun fun hs => hs.1.2 hl
    · obtain ⟨s', out, ht⟩ := h.next hb hl s
      rw [step_next ht]
      exact (ih s').trans ⟨fun hs => ⟨⟨hb, hl⟩, hs⟩, And.right⟩

/-- The program aborts just if it comes to a bad entry. -/
theorem main_eq_none_iff (s : σ) (es : List Entry) : p.main s (some es) = none ↔
    ∃ l e r, es = l ++ e :: r ∧ bad e ∧ ∀ e' ∈ l, ¬ bad e' ∧ ¬ last e' :=
  main_eq_none.trans (h.after_eq_aborted s es)

end Ends

/-- A program that goes on after every other entry comes to all of them. -/
theorem Ends.main_eq_none_iff_exists {bad : Entry → Prop} (h : p.Ends bad fun _ => False) (s : σ)
    (es : List Entry) : p.main s (some es) = none ↔ ∃ e ∈ es, bad e := by
  rw [h.main_eq_none_iff]
  constructor
  · rintro ⟨l, e, r, rfl, hb, -⟩
    exact ⟨e, by simp, hb⟩
  · induction es with
    | nil => rintro ⟨e, hm, -⟩; exact absurd hm List.not_mem_nil
    | cons e es ih =>
      rintro ⟨e', hm, hb'⟩
      by_cases hb : bad e
      · exact ⟨[], e, es, rfl, hb, fun _ hm => absurd hm List.not_mem_nil⟩
      · rcases List.mem_cons.mp hm with rfl | hm
        · exact absurd hb' hb
        · obtain ⟨l, e₁, r, rfl, hb₁, hl⟩ := ih ⟨e', hm, hb'⟩
          exact ⟨e :: l, e₁, r, rfl, hb₁, List.forall_mem_cons.mpr ⟨⟨hb, id⟩, hl⟩⟩

end Lister

end SO
