import Proyectos.Impl.Orion
import Proyectos.Impl.Toggle

/-!
# Loading `orion` and `luffy`

A load function that finds a call failed gives back what it holds, in the order
of its labels. It checks `device_create` for a null pointer and `cdev_add` for
`-1`, and `luffy` checks `class_create` for a null pointer: the other failures
go unseen. `loadOk_iff` says for which outcomes of these calls a load is all or
nothing, and `allOrNothing_iff` carries it over every history of loads and
unloads.
-/

namespace SO.Proof.Load

open SO.Impl

/-- All four resources are held. -/
def Full (h : Held) : Prop := ∀ r, 0 < h.count r

/-- None of them is. -/
def Empty (h : Held) : Prop := ∀ r, h.count r = 0

/-- A load that returned `ret` and left `h` is all or nothing. -/
def LoadOk (ret : Int) (h : Held) : Prop := (ret = 0 ↔ Full h) ∧ (ret ≠ 0 → Empty h)

/-- A command is all or nothing, and releases nothing that is not held. -/
def StepOk {ν γ : Type} (t : Step (Loader ν Held) (Command γ) Ran) : Prop :=
  (match t.out with
    | .nothing => True
    | .load ret => LoadOk ret t.post.res
    | .unload => Empty t.post.res) ∧ t.post.res.stray = []

/-- Every load and unload is all or nothing. -/
def AllOrNothing {ν γ : Type} (m : Module ν Held γ) (cs : List (Command γ)) : Prop :=
  ∀ t ∈ m.steps {} cs, StepOk t

/-- If the command is a load attempt, the outcomes of its calls meet `fine`. -/
def LoadMeets {ν ρ γ : Type} (fine : γ → Prop) (t : Step (Loader ν ρ) (Command γ) Ran) : Prop :=
  ∀ g, t.inp = .insmod g → t.pre.loaded = false → fine g

theorem loadMeets_insmod {ν ρ γ : Type} {fine : γ → Prop}
    {f : Loader ν ρ → Command γ → Loader ν ρ × Ran} {s : Loader ν ρ} (g : γ) :
    LoadMeets fine (Run.stepOf f s (.insmod g)) ↔ (s.loaded = false → fine g) := by
  refine ⟨fun h hl => h g rfl hl, fun h g' e hl => ?_⟩
  cases e
  exact h hl

theorem loadMeets_rmmod {ν ρ γ : Type} {fine : γ → Prop}
    {f : Loader ν ρ → Command γ → Loader ν ρ × Ran} {s : Loader ν ρ} :
    LoadMeets fine (Run.stepOf f s .rmmod) := fun _ e => by cases e

/-- What the module holds once it is loaded. -/
def full : Held := { count := fun _ => 1 }

theorem forall_res {P : Res → Prop} :
    (∀ r, P r) ↔ P .region ∧ P .cls ∧ P .device ∧ P .cdev :=
  ⟨fun h => ⟨h _, h _, h _, h _⟩, fun ⟨h1, h2, h3, h4⟩ r => by cases r <;> assumption⟩

instance (h : Held) : Decidable (Full h) := decidable_of_iff' _ forall_res

instance (h : Held) : Decidable (Empty h) := decidable_of_iff' _ forall_res

instance (ret : Int) (h : Held) : Decidable (LoadOk ret h) := inferInstanceAs (Decidable (_ ∧ _))

/-! ## One load -/

section Load

variable (x : CdevTexts) {classFails : Ptr → Bool} (v : CdevVars) (g : CdevCalls)

/-- What is held once the region and the pointers have been asked for. -/
def asked (c d : Bool) : Held :=
  let h := ({} : Held).acquire .region
  let h := if c then h.acquire .cls else h
  if d then h.acquire .device else h

/-- The class is valid. -/
abbrev cls (g : CdevCalls) : Bool := decide (g.classCreate = .valid)

/-- The device node is. -/
abbrev dev (g : CdevCalls) : Bool := decide (g.deviceCreate = .valid)

/-- A load whose region is refused. -/
theorem cdevLoad_noRegion (ha : g.allocChrdevRegion < 0) :
    ((cdevLoad x classFails g).run { vars := v, res := {} }).1 = -1 ∧
      ((cdevLoad x classFails g).run { vars := v, res := {} }).2.res = {} := by
  have h0 : g.allocChrdevRegion ≠ 0 := by omega
  simp [cdevLoad, ha, h0]

/-- A load that sees its class fail gives back the region. -/
theorem cdevLoad_noClass (ha : g.allocChrdevRegion = 0) (hc : classFails g.classCreate = true)
    (hv : g.classCreate ≠ .valid) :
    ((cdevLoad x classFails g).run { vars := v, res := {} }).1 = -1 ∧
      ((cdevLoad x classFails g).run { vars := v, res := {} }).2.res =
        (({} : Held).acquire .region).release .region := by
  simp [cdevLoad, classError, ha, hc, hv]

/-- A load that `cdev_add` fails with `-1` gives back the device node, the class
and the region. -/
theorem cdevLoad_noCdev (ha : g.allocChrdevRegion = 0) (hc : classFails g.classCreate = false)
    (hd : g.cdevAdd = -1) :
    ((cdevLoad x classFails g).run { vars := v, res := {} }).1 = -1 ∧
      ((cdevLoad x classFails g).run { vars := v, res := {} }).2.res =
        (((asked (cls g) (dev g)).release .device).release .cls).release .region := by
  simp [cdevLoad, addError, fileError, classError, asked, ha, hc, hd, g.device_ne]

/-- Every other load succeeds. -/
theorem cdevLoad_zero (ha : g.allocChrdevRegion = 0) (hc : classFails g.classCreate = false)
    (hd : g.cdevAdd ≠ -1) :
    ((cdevLoad x classFails g).run { vars := v, res := {} }).1 = 0 ∧
      ((cdevLoad x classFails g).run { vars := v, res := {} }).2.res =
        if g.cdevAdd = 0 then (asked (cls g) (dev g)).acquire .cdev
        else asked (cls g) (dev g) := by
  simp [cdevLoad, asked, ha, hc, hd, g.device_ne]

/-- The outcomes on which a load is all or nothing: no region; a class that is
seen to have failed; or a class and a device node, and a `cdev_add` that
succeeds or fails with `-1`. -/
def Fine (classFails : Ptr → Bool) (g : CdevCalls) : Prop :=
  g.allocChrdevRegion < 0 ∨ classFails g.classCreate = true ∨
    (cls g = true ∧ dev g = true ∧ (g.cdevAdd = 0 ∨ g.cdevAdd = -1))

variable (hf : classFails .valid = false)
include hf

/-- On these a load holds everything, or nothing. -/
theorem cdevLoad_fine (h : Fine classFails g) :
    (((cdevLoad x classFails g).run { vars := v, res := {} }).1 = 0 ∧
        ((cdevLoad x classFails g).run { vars := v, res := {} }).2.res = full) ∨
      (((cdevLoad x classFails g).run { vars := v, res := {} }).1 = -1 ∧
        ((cdevLoad x classFails g).run { vars := v, res := {} }).2.res = {}) := by
  have hn : Empty ((({} : Held).acquire .region).release .region) := by decide
  rcases g.alloc_range with ha | ha
  · cases hc : classFails g.classCreate with
    | true =>
      have hv : g.classCreate ≠ .valid := fun e => by rw [e, hf] at hc; cases hc
      obtain ⟨hr, hh⟩ := cdevLoad_noClass x v g ha hc hv
      exact .inr ⟨hr, by rw [hh]; exact Held.ext (funext hn) rfl⟩
    | false =>
      have hcd : cls g = true ∧ dev g = true ∧ (g.cdevAdd = 0 ∨ g.cdevAdd = -1) := by
        rcases h with h | h | h
        · omega
        · rw [hc] at h; cases h
        · exact h
      obtain ⟨h1, h2, h3 | h3⟩ := hcd
      · obtain ⟨hr, hh⟩ := cdevLoad_zero x v g ha hc (by omega)
        rw [h1, h2, if_pos h3] at hh
        exact .inl ⟨hr, by rw [hh]; exact Held.ext (funext fun q => by cases q <;> rfl) rfl⟩
      · obtain ⟨hr, hh⟩ := cdevLoad_noCdev x v g ha hc h3
        rw [h1, h2] at hh
        exact .inr ⟨hr, by rw [hh]; exact Held.ext (funext fun q => by cases q <;> rfl) rfl⟩
  · exact .inr (cdevLoad_noRegion x v g (by omega))

omit hf in
/-- On the others it is not. -/
theorem cdevLoad_not (h : ¬ Fine classFails g)
    (hk : LoadOk ((cdevLoad x classFails g).run { vars := v, res := {} }).1
      ((cdevLoad x classFails g).run { vars := v, res := {} }).2.res)
    (hs : ((cdevLoad x classFails g).run { vars := v, res := {} }).2.res.stray = []) : False := by
  simp only [Fine, not_or] at h
  obtain ⟨h1, h2, h3⟩ := h
  have ha : g.allocChrdevRegion = 0 := by
    rcases g.alloc_range with ha | ha
    · exact ha
    · omega
  have hc : classFails g.classCreate = false := Bool.eq_false_iff.mpr h2
  by_cases hd : g.cdevAdd = -1
  · obtain ⟨-, hh⟩ := cdevLoad_noCdev x v g ha hc hd
    rw [hh] at hs
    have key : ∀ c d, ((((asked c d).release .device).release .cls).release .region).stray = [] →
        c = true ∧ d = true := by decide
    obtain ⟨hc', hd'⟩ := key _ _ hs
    exact h3 ⟨hc', hd', .inr hd⟩
  · obtain ⟨hr, hh⟩ := cdevLoad_zero x v g ha hc hd
    have hF := hk.1.mp hr
    rw [hh] at hF
    split at hF
    · rename_i h0
      have key : ∀ c d, Full ((asked c d).acquire .cdev) → c = true ∧ d = true := by decide
      obtain ⟨hc', hd'⟩ := key _ _ hF
      exact h3 ⟨hc', hd', .inl h0⟩
    · have key : ∀ c d, ¬ Full (asked c d) := by decide
      exact key _ _ hF

omit hf in
theorem cdevUnload_full : ((cdevUnload x).run { vars := v, res := full }).2.res = {} := by
  simp only [cdevUnload, Code.run_bind, run_releaseRes, run_logLine]
  exact Held.ext (funext fun q => by cases q <;> rfl) rfl

end Load

/-! ## Every history -/

/-- The module of a driver that registers a `cdev`. -/
def cdevModule (x : CdevTexts) (classFails : Ptr → Bool) : Module CdevVars Held CdevCalls where
  init := {}
  load := cdevLoad x classFails
  unload := cdevUnload x

/-- The module holds everything once it is loaded, and nothing before. -/
def Inv (s : Loader CdevVars Held) : Prop := s.res = if s.loaded then full else {}

theorem inv_of {s : Loader CdevVars Held} {b : Bool} (hl : s.loaded = b)
    (h : s.res = if b then full else {}) : Inv s := by
  rw [Inv, hl]; exact h

theorem stray_of_inv {s : Loader CdevVars Held} (hs : Inv s) : s.res.stray = [] := by
  rw [hs]
  split <;> rfl

section Step

variable (x : CdevTexts) {classFails : Ptr → Bool} {s : Loader CdevVars Held}

/-- A load, on a module that holds nothing, is all or nothing just if its
outcomes are `Fine`. -/
theorem loadOk_iff (hf : classFails .valid = false) (g : CdevCalls) :
    (LoadOk ((cdevLoad x classFails g).run { vars := {}, res := {} }).1
        ((cdevLoad x classFails g).run { vars := {}, res := {} }).2.res ∧
      ((cdevLoad x classFails g).run { vars := {}, res := {} }).2.res.stray = []) ↔
      Fine classFails g := by
  refine ⟨fun h => by_contra fun hn => cdevLoad_not x {} g hn h.1 h.2, fun h => ?_⟩
  rcases cdevLoad_fine x {} g hf h with ⟨hr, hh⟩ | ⟨hr, hh⟩
  · rw [hr, hh]; exact ⟨by decide, rfl⟩
  · rw [hr, hh]; exact ⟨by decide, rfl⟩

/-- A load attempt, where all before were all or nothing. -/
theorem insmod_ok (hf : classFails .valid = false) (hs : Inv s) (g : CdevCalls) :
    (StepOk (Run.stepOf (cdevModule x classFails).step s (.insmod g)) ↔
        (s.loaded = false → Fine classFails g)) ∧
      (StepOk (Run.stepOf (cdevModule x classFails).step s (.insmod g)) →
        Inv ((cdevModule x classFails).step s (.insmod g)).1) := by
  cases hl : s.loaded with
  | true =>
    rw [Run.stepOf, Module.step_insmod_of_loaded hl]
    exact ⟨iff_of_true ⟨trivial, stray_of_inv hs⟩ fun h => (by cases h), fun _ => hs⟩
  | false =>
    have h0 : s.res = {} := by
      rw [hs, hl]; rfl
    rw [Run.stepOf, Module.step_insmod hl rfl, h0]
    have hok := loadOk_iff x hf g
    refine ⟨hok.trans ⟨fun h _ => h, fun h => h rfl⟩, fun h => ?_⟩
    rcases cdevLoad_fine x {} g hf (hok.mp h) with ⟨hr, hh⟩ | ⟨hr, hh⟩
    · exact inv_of (congrArg (fun r : Int => decide (0 ≤ r)) hr) hh
    · exact inv_of (congrArg (fun r : Int => decide (0 ≤ r)) hr) hh

/-- An unload, where all before were all or nothing. -/
theorem rmmod_ok (hs : Inv s) :
    StepOk (Run.stepOf (cdevModule x classFails).step s .rmmod) ∧
      Inv ((cdevModule x classFails).step s .rmmod).1 := by
  cases hl : s.loaded with
  | true =>
    have h1 : s.res = full := by
      rw [hs, hl]; rfl
    have hr := cdevUnload_full x s.vars
    rw [← h1] at hr
    rw [Run.stepOf, Module.step_rmmod hl rfl]
    refine ⟨⟨?_, ?_⟩, inv_of rfl hr⟩
    · show Empty ((cdevUnload x).run { vars := s.vars, res := s.res }).2.res
      rw [hr]; decide
    · exact congrArg Held.stray hr
  | false =>
    rw [Run.stepOf, Module.step_rmmod_of_unloaded hl]
    exact ⟨⟨trivial, stray_of_inv hs⟩, hs⟩

end Step

/-- Every history of a module with a `cdev`. -/
theorem allOrNothing_iff (x : CdevTexts) {classFails : Ptr → Bool} (hf : classFails .valid = false)
    (cs : List (Command CdevCalls)) :
    AllOrNothing (cdevModule x classFails) cs ↔
      ∀ t ∈ (cdevModule x classFails).steps {} cs, LoadMeets (Fine classFails) t := by
  have h : Inv { vars := {}, res := {} } := rfl
  refine Run.forall_steps_iff (I := Inv) (A := StepOk) (B := LoadMeets (Fine classFails))
    (fun s c hs => ?_) h cs
  cases c with
  | insmod g =>
    obtain ⟨h1, h2⟩ := insmod_ok x hf hs g
    exact ⟨h1.trans (loadMeets_insmod g).symm, h2⟩
  | rmmod =>
    obtain ⟨h1, h2⟩ := rmmod_ok x hs
    exact ⟨iff_of_true h1 loadMeets_rmmod, fun _ => h2⟩

/-- Every history of `orion` and of `luffy`: loads and unloads are all or
nothing just if the outcomes of every load attempt are `Fine`. -/
theorem loads_all_or_nothing_iff (cs : List (Command CdevCalls)) :
    (AllOrNothing Orion.kmodule cs ↔
        ∀ t ∈ Orion.kmodule.steps {} cs, LoadMeets (Fine Ptr.isErr) t) ∧
      (AllOrNothing Toggle.luffyModule cs ↔
        ∀ t ∈ Toggle.luffyModule.steps {} cs, LoadMeets (Fine (· = .null)) t) :=
  ⟨allOrNothing_iff Orion.loadTexts rfl cs, allOrNothing_iff Toggle.luffyLoadTexts rfl cs⟩

/-- `device_create` fails, and the load succeeds without a device node. -/
theorem load_without_device : ¬ ∀ cs, AllOrNothing Orion.kmodule cs := by
  intro h
  have hs := h [.insmod ⟨0, 0, .valid, .err (-12), 0, by decide, by decide, by decide, by decide⟩] _
    List.mem_cons_self
  exact absurd (hs.1.1.mp rfl .device) (by decide)

end SO.Proof.Load
