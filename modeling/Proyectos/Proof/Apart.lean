import Proyectos.Proof.Sessions

/-!
# Drivers whose sessions do not meet

What a driver's functions return and deliver may depend on its variables, which
the sessions share. `Apart d I` says that it does not: on states with the
invariant `I` it depends on the call and its offset only. The sessions of such
a driver are answered as if each were alone, in whatever order their calls come
(`Apart.observed_own`): a call's answer is decided by the session's own place
and offset (`Apart.heard_congr`), which the others' calls leave alone
(`view_of_ne`).
-/

namespace SO.Driver

variable {σ : Type} {d : Driver σ} {I : Dev σ → Prop}

/-- What the caller of a function is given: what it returns and the bytes
delivered. -/
def shown {α : Type} (r : α × CallSt σ) : α × List UInt8 := (r.1, r.2.out.user)

/-- The functions of the driver give the same whatever its variables are. -/
structure Apart (d : Driver σ) (I : Dev σ → Prop) : Prop where
  keeps : d.Keeps I
  opens : d.Opens
  opn : ∀ v v', I v → I v' → shown (d.opn.run { dev := v }) = shown (d.opn.run { dev := v' })
  release : ∀ v v', I v → I v' →
    shown (d.release.run { dev := v }) = shown (d.release.run { dev := v' })
  read : ∀ v v' buf len off, I v → I v' →
    shown ((d.read buf len off).run { dev := v }) = shown ((d.read buf len off).run { dev := v' })
  write : ∀ v v' (buf : UserSrc) off, I v → I v' →
    shown ((d.write buf buf.bytes.length off).run { dev := v }) =
      shown ((d.write buf buf.bytes.length off).run { dev := v' })

/-- What the caller hears of a call: the value returned and the bytes delivered. -/
def heard (e : Event) : Int × List UInt8 := (e.ret, e.out.user)

/-- What session `k` hears of the step, if it is its own. -/
def heardBy (k : Nat) (t : SO.Step (Sys σ) Call Event) : Option (Int × List UInt8) :=
  if t.inp.session = k then some (heard t.out) else none

/-- What session `k` hears, call by call. -/
def observed (d : Driver σ) (k : Nat) (cs : List Call) : List (Int × List UInt8) :=
  (d.steps cs).filterMap (heardBy k)

theorem observed_snoc (k : Nat) (cs : List Call) (c : Call) :
    observed d k (cs ++ [c]) = observed d k cs ++
      if c.session = k then [heard (d.step (d.after cs) c).2] else [] := by
  rw [observed, steps, Run.steps_snoc, List.filterMap_append, observed]
  refine congrArg _ ?_
  by_cases h : c.session = k
  · have hr : heardBy k (Run.stepOf d.step (d.after cs) c) =
        some (heard (d.step (d.after cs) c).2) := if_pos h
    rw [if_pos h, List.filterMap_cons_some hr]; rfl
  · have hr : heardBy k (Run.stepOf d.step (d.after cs) c) = none := if_neg h
    rw [if_neg h, List.filterMap_cons_none hr]; rfl

/-! ## A session's view -/

/-- A session's place and its file offset. -/
def view (s : Sys σ) (k : Nat) : (Bool × Bool) × Int := (status s k, s.pos k)

theorem newPos_of_ne {s : Sys σ} {k m : Nat} (h : m ≠ k) (at? : Option Int) (ret off : Int) :
    s.newPos m at? ret off k = s.pos k := by
  unfold Sys.newPos
  split
  · rw [Function.update_of_ne h.symm]
  · rfl

/-- The others' calls leave a session's offset alone. -/
theorem pos_of_ne (hd : d.Opens) {s : Sys σ} {c : Call} {k : Nat} (h : c.session ≠ k) :
    (d.step s c).1.pos k = s.pos k := by
  have ho := d.step_outcome s c
  generalize d.step s c = r at ho
  cases ho with
  | refused => rfl
  | opn => exact Function.update_of_ne (Ne.symm h) _ _
  | notOpened _ hr h0 => exact absurd (hr ▸ hd s.dev) h0
  | close => rfl
  | read | write => exact newPos_of_ne h _ _ _

theorem view_of_ne (hd : d.Opens) {s : Sys σ} {c : Call} {k : Nat} (h : c.session ≠ k) :
    view (d.step s c).1 k = view s k := by
  rw [view, status_of_ne hd h, pos_of_ne hd h, view]

/-- An offset moved the same way in two states. -/
theorem newPos_congr {s s' : Sys σ} {k : Nat} (h : s.pos k = s'.pos k) (at? : Option Int)
    {ret ret' off off' : Int} (hr : ret = ret') (ho : off = off') :
    s.newPos k at? ret off k = s'.newPos k at? ret' off' k := by
  subst hr ho
  unfold Sys.newPos
  split
  · rw [Function.update_self, Function.update_self]
  · exact h

/-- A read or a write that gives the same in two states. -/
theorem heard_of_shown {s s' : Sys σ} {k : Nat} (hpos : s.pos k = s'.pos k) (at? : Option Int)
    {r r' : (Int × Int) × CallSt σ} (h : shown r = shown r') :
    s.newPos k at? r.1.1 r.1.2 k = s'.newPos k at? r'.1.1 r'.1.2 k ∧
      heard ⟨true, r.1.1, r.2.out⟩ = heard ⟨true, r'.1.1, r'.2.out⟩ := by
  obtain ⟨he, hu⟩ := Prod.mk.inj h
  have hr := congrArg Prod.fst he
  exact ⟨newPos_congr hpos at? hr (congrArg Prod.snd he), Prod.ext hr hu⟩

/-- A call gives its session the same in two states the session sees alike, and
leaves two such states. -/
theorem Apart.heard_congr (h : d.Apart I) {s s' : Sys σ} (hs : I s.dev) (hs' : I s'.dev) {c : Call}
    {k : Nat} (hc : c.session = k) (hv : view s k = view s' k) :
    view (d.step s c).1 k = view (d.step s' c).1 k ∧
      heard (d.step s c).2 = heard (d.step s' c).2 := by
  obtain ⟨hst, hpos⟩ := Prod.mk.inj hv
  have hst' : status (d.step s c).1 k = status (d.step s' c).1 k := by
    rw [status_step h.opens, status_step h.opens, if_pos hc, if_pos hc, hst]
  obtain ⟨hopen, hused⟩ := status_eq_iff.mp hst
  suffices hp : (d.step s c).1.pos k = (d.step s' c).1.pos k ∧
      heard (d.step s c).2 = heard (d.step s' c).2 from
    ⟨Prod.ext hst' hp.1, hp.2⟩
  clear hst' hv
  cases c with
  | opn m =>
    obtain rfl : m = k := hc
    by_cases hk : m ∈ s.used
    · rw [step_opn_of_used hk, step_opn_of_used (hused.mp hk)]
      exact ⟨hpos, rfl⟩
    · rw [step_opn h.opens hk, step_opn h.opens fun hk' => hk (hused.mpr hk')]
      have hu := congrArg Prod.snd (h.opn _ _ hs hs')
      refine ⟨?_, congrArg (Prod.mk 0) hu⟩
      show Function.update s.pos m 0 m = Function.update s'.pos m 0 m
      rw [Function.update_self, Function.update_self]
  | close m =>
    obtain rfl : m = k := hc
    by_cases hk : m ∈ s.opens
    · rw [step_close hk, step_close (hopen.mp hk)]
      exact ⟨hpos, h.release _ _ hs hs'⟩
    · rw [step_close_of_closed hk, step_close_of_closed fun hk' => hk (hopen.mpr hk')]
      exact ⟨hpos, rfl⟩
  | read m at? buf len =>
    obtain rfl : m = k := hc
    by_cases hk : m ∈ s.opens
    · have ho : s.offset m at? = s'.offset m at? := congrArg at?.getD hpos
      rw [step_read hk rfl, step_read (hopen.mp hk) rfl, ← ho]
      exact heard_of_shown hpos at? (h.read _ _ buf len (s.offset m at?) hs hs')
    · rw [step_read_of_closed hk, step_read_of_closed fun hk' => hk (hopen.mpr hk')]
      exact ⟨hpos, rfl⟩
  | write m at? buf =>
    obtain rfl : m = k := hc
    by_cases hk : m ∈ s.opens
    · have ho : s.offset m at? = s'.offset m at? := congrArg at?.getD hpos
      rw [step_write hk rfl, step_write (hopen.mp hk) rfl, ← ho]
      exact heard_of_shown hpos at? (h.write _ _ buf (s.offset m at?) hs hs')
    · rw [step_write_of_closed hk, step_write_of_closed fun hk' => hk (hopen.mpr hk')]
      exact ⟨hpos, rfl⟩

/-- Among the others a session sees and hears what it would alone. -/
theorem Apart.view_own (h : d.Apart I) (k : Nat) (cs : List Call) :
    view (d.after (own k cs)) k = view (d.after cs) k ∧
      observed d k (own k cs) = observed d k cs := by
  induction cs using List.reverseRecOn with
  | nil => exact ⟨rfl, rfl⟩
  | append_singleton cs c ih =>
    obtain ⟨hv, ho⟩ := ih
    rw [own_snoc, after, after, Run.after_snoc, observed_snoc]
    by_cases hc : c.session = k
    · obtain ⟨hv', hh⟩ := h.heard_congr (h.keeps.after _) (h.keeps.after _) hc hv
      rw [if_pos hc, if_pos hc, Run.after_snoc, observed_snoc, if_pos hc, ho, hh]
      exact ⟨hv', rfl⟩
    · rw [if_neg hc, if_neg hc, List.append_nil, List.append_nil, view_of_ne h.opens hc]
      exact ⟨hv, ho⟩

theorem Apart.observed_own (h : d.Apart I) (k : Nat) (cs : List Call) :
    observed d k cs = observed d k (own k cs) := (h.view_own k cs).2.symm

end SO.Driver
