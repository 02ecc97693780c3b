import Proyectos.Kernel.Lifetime
import Proyectos.Framework.Run
import Mathlib.Data.List.Basic

/-!
# Open files over loads and unloads: one step

`Moved` says what each step does, and to what it comes. Of a module that takes
its registrations back (`Clears`), those that stand are the loaded one's
(`Tidy`), so no `open` is stray.
-/

namespace SO

/-! ## The files and the registrations -/

section

variable {ν ρ : Type} {s : Host ν ρ} {key tag : Nat}

theorem Host.mem_of_tag? (h : s.tag? key = some tag) : ⟨key, tag⟩ ∈ s.files := by
  obtain ⟨f, hf, rfl⟩ := Option.map_eq_some_iff.mp h
  have hk : f.key = key := by simpa using List.find?_some hf
  exact hk ▸ List.mem_of_find?_eq_some hf

theorem Host.tag?_eq_none : s.tag? key = none ↔ ∀ f ∈ s.files, f.key ≠ key := by
  rw [Host.tag?, Option.map_eq_none_iff, List.find?_eq_none]
  simp

variable {gen k t : Nat} {regs : List Nat}

@[simp] theorem length_standingOf : (standingOf gen k regs).length = k := by
  rw [standingOf, List.length_append, List.length_replicate, List.length_drop]
  omega

theorem mem_standingOf (h : t ∈ standingOf gen k regs) : t = gen ∨ t ∈ regs := by
  rcases List.mem_append.mp h with h | h
  · exact .inl (List.mem_replicate.mp h).2
  · exact .inr (List.mem_of_mem_drop h)

end

/-! ## A step -/

namespace Hosted

variable {ν ρ γ : Type} {h : Hosted ν ρ γ} {s : Host ν ρ} {a : Act γ}

/-- What a load leaves. -/
def loadedBy (h : Hosted ν ρ γ) (s : Host ν ρ) (g : γ) : Host ν ρ :=
  let loader := (h.toModule.step s.loader (.insmod g)).1
  { s with
    loader
    gen := s.gen + 1
    regs := standingOf (s.gen + 1) (h.standing loader.res) s.regs }

/-- What an unload leaves. -/
def unloaded (h : Hosted ν ρ γ) (s : Host ν ρ) : Host ν ρ :=
  let loader := (h.toModule.step s.loader .rmmod).1
  { s with loader, regs := standingOf s.gen (h.standing loader.res) s.regs }

/-- What an `open` leaves. -/
def opened (h : Hosted ν ρ γ) (s : Host ν ρ) (key tag : Nat) : Host ν ρ :=
  { s with files := ⟨key, tag⟩ :: s.files, users := s.users + h.owner.toNat }

/-- What a `close` leaves. -/
def closed (h : Hosted ν ρ γ) (s : Host ν ρ) (key : Nat) : Host ν ρ :=
  { s with files := s.files.filter fun f => f.key != key, users := s.users - h.owner.toNat }

/-- The steps, one constructor for each way one can go. -/
inductive Moved (h : Hosted ν ρ γ) (s : Host ν ρ) : Act γ → Host ν ρ × Said → Prop
  | loads {g} (hl : s.loader.loaded = false) : Moved h s (.insmod g) (h.loadedBy s g, .done)
  | twice {g} (hl : s.loader.loaded = true) : Moved h s (.insmod g) (s, .refused)
  | unloads (hl : s.loader.loaded = true) (hu : s.users = 0) : Moved h s .rmmod (h.unloaded s, .done)
  | busy (hl : s.loader.loaded = false ∨ s.users ≠ 0) : Moved h s .rmmod (s, .refused)
  | opens {key i tag} (hk : s.tag? key = none) (hi : s.regs[i]? = some tag) (ht : s.Live tag) :
    Moved h s (.opn key i) (h.opened s key tag, .done)
  | lost {key i tag} (hk : s.tag? key = none) (hi : s.regs[i]? = some tag) (ht : ¬ s.Live tag) :
    Moved h s (.opn key i) (s, .stray)
  | absent {key i} (hk : s.tag? key ≠ none ∨ s.regs[i]? = none) : Moved h s (.opn key i) (s, .refused)
  | uses {key tag} (hk : s.tag? key = some tag) :
    Moved h s (.use key) (s, if s.Live tag then .done else .stray)
  | unused {key} (hk : s.tag? key = none) : Moved h s (.use key) (s, .refused)
  | closes {key tag} (hk : s.tag? key = some tag) :
    Moved h s (.close key) (h.closed s key, if s.Live tag then .done else .stray)
  | unopened {key} (hk : s.tag? key = none) : Moved h s (.close key) (s, .refused)

theorem moved (h : Hosted ν ρ γ) (s : Host ν ρ) (a : Act γ) : Moved h s a (h.step s a) := by
  cases a with
  | insmod g =>
    simp only [step]
    split
    · rename_i hl
      exact .twice hl
    · rename_i hl
      exact .loads (Bool.eq_false_iff.mpr hl)
  | rmmod =>
    simp only [step]
    split
    · rename_i hl
      exact .busy hl
    · rename_i hl
      obtain ⟨hl, hu⟩ := not_or.mp hl
      exact .unloads (Bool.eq_true_of_not_eq_false hl) (not_not.mp hu)
  | opn key i =>
    rcases hk : s.tag? key with _ | t
    · rcases hi : s.regs[i]? with _ | tag
      · simp only [step, hk, hi]
        exact .absent (.inr hi)
      · simp only [step, hk, hi]
        split
        · rename_i ht
          exact .opens hk hi ht
        · rename_i ht
          exact .lost hk hi ht
    · simp only [step, hk]
      exact .absent (.inl (hk ▸ Option.some_ne_none t))
  | use key =>
    rcases hk : s.tag? key with _ | tag
    · simp only [step, hk]
      exact .unused hk
    · simp only [step, hk]
      exact .uses hk
  | close key =>
    rcases hk : s.tag? key with _ | tag
    · simp only [step, hk]
      exact .unopened hk
    · simp only [step, hk]
      exact .closes hk

/-- No load is in memory after an unload. -/
theorem loaded_unloaded (h : Hosted ν ρ γ) (hl : s.loader.loaded = true) :
    (h.unloaded s).loader.loaded = false := by
  rw [unloaded, Module.step_rmmod hl rfl]

/-! ## Registrations that are taken back -/

/-- No registration of the module stands once it is unloaded, by an invariant of
its loads and unloads. -/
structure Clears (h : Hosted ν ρ γ) (r₀ : ρ) (I : Loader ν ρ → Prop) : Prop where
  boot : I { vars := h.init, res := r₀ }
  step {l : Loader ν ρ} (c : Command γ) : I l → I (h.toModule.step l c).1
  idle {l : Loader ν ρ} : I l → l.loaded = false → h.standing l.res = 0

/-- Each registration that stands is the newest load's, and each file's is no newer. -/
structure Tidy (h : Hosted ν ρ γ) (I : Loader ν ρ → Prop) (s : Host ν ρ) : Prop where
  loader : I s.loader
  length : s.regs.length = h.standing s.loader.res
  regs : ∀ t ∈ s.regs, t = s.gen
  files : ∀ f ∈ s.files, f.tag ≤ s.gen

variable {r₀ : ρ} {I : Loader ν ρ → Prop}

theorem Clears.tidy_boot (hc : h.Clears r₀ I) (h0 : h.standing r₀ = 0) : h.Tidy I (h.boot r₀) :=
  ⟨hc.boot, h0.symm, nofun, nofun⟩

theorem Tidy.regs_nil (hc : h.Clears r₀ I) (hs : h.Tidy I s) (hl : s.loader.loaded = false) :
    s.regs = [] := by
  rw [← List.length_eq_zero_iff, hs.length]
  exact hc.idle hs.loader hl

/-- What can be opened is in memory. -/
theorem Tidy.live (hc : h.Clears r₀ I) (hs : h.Tidy I s) {i tag : Nat} (hi : s.regs[i]? = some tag) :
    s.Live tag := by
  refine ⟨?_, hs.regs tag (List.mem_of_getElem? hi)⟩
  by_contra hl
  rw [hs.regs_nil hc (Bool.eq_false_iff.mpr hl)] at hi
  cases hi

theorem Tidy.step (hc : h.Clears r₀ I) (hs : h.Tidy I s) (a : Act γ) : h.Tidy I (h.step s a).1 := by
  have hm := moved h s a
  generalize h.step s a = r at hm
  cases hm with
  | loads hl =>
    refine ⟨hc.step _ hs.loader, length_standingOf, fun t ht => ?_, fun f hf => ?_⟩
    · rcases mem_standingOf ht with ht | ht
      · exact ht
      · rw [hs.regs_nil hc hl] at ht
        cases ht
    · exact (hs.files f hf).trans (Nat.le_succ _)
  | unloads hl hu =>
    refine ⟨hc.step _ hs.loader, length_standingOf, fun t ht => ?_, hs.files⟩
    exact (mem_standingOf ht).elim id (hs.regs t)
  | opens hk hi ht =>
    refine ⟨hs.loader, hs.length, hs.regs, fun f hf => ?_⟩
    rcases List.mem_cons.mp hf with rfl | hf
    · exact ht.2.le
    · exact hs.files f hf
  | closes hk =>
    exact ⟨hs.loader, hs.length, hs.regs, fun f hf => hs.files f (List.mem_of_mem_filter hf)⟩
  | lost | twice | busy | absent | uses | unused | unopened => exact hs

end Hosted

end SO
