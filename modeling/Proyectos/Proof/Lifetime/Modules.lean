import Proyectos.Impl.Hosted
import Proyectos.Proof.Load.Cdev
import Proyectos.Proof.Load.Chrdev
import Proyectos.Proof.Lifetime.Runs

/-!
# The drivers' open files, over loads and unloads

Whatever the calls of its load function come to, a module of either family has
none of its registrations left once it is unloaded (`clears_cdev`,
`clears_chrdev`), `madre` apart, which keeps them all (`keeps_madre`). `orion`
owns its `fops`, so none of its calls is stray (`orion_lifetime`); the others do
not, and the stray calls are those on a file that was open when the module was
unloaded (`lifetime_iff`). Those of `madre` are also each `open` of a
registration it has kept (`madre_kept`).
-/

namespace SO.Proof.Lifetime

open SO.Impl SO.Proof.Load

/-! ## With a `cdev` -/

section Cdev

/-- The other resources are counted apart. -/
theorem count_cdev (h : Held) {r : Res} (hr : r ≠ .cdev) :
    (h.acquire r).count .cdev = h.count .cdev ∧ (h.release r).count .cdev = h.count .cdev := by
  constructor
  · exact if_neg hr.symm
  · rw [Held.release]
    split
    · rfl
    · exact if_neg hr.symm

variable (x : CdevTexts) (classFails : Ptr → Bool) (g : CdevCalls) {s : LoadSt CdevVars Held}

/-- A load registers the `cdev` once at most, and not if it fails. -/
theorem cdevLoad_cdev (h : s.res.count .cdev = 0) :
    ((cdevLoad x classFails g).run s).2.res.count .cdev ≤ 1 ∧
      (((cdevLoad x classFails g).run s).1 < 0 →
        ((cdevLoad x classFails g).run s).2.res.count .cdev = 0) := by
  have hacq (q : Held) {r : Res} (hr : r ≠ .cdev) := (count_cdev q hr).1
  have hrel (q : Held) {r : Res} (hr : r ≠ .cdev) := (count_cdev q hr).2
  have hif {p : Prop} [Decidable p] (q : Held) {r : Res} (hr : r ≠ .cdev) :
      (if p then q.acquire r else q).count .cdev = q.count .cdev := by
    split
    · exact hacq q hr
    · rfl
  by_cases ha : g.allocChrdevRegion < 0
  · have h0 : g.allocChrdevRegion ≠ 0 := by omega
    simp [cdevLoad, ha, h0, h]
  have ha : g.allocChrdevRegion = 0 := by
    rcases g.alloc_range with h | h <;> omega
  rcases hc : classFails g.classCreate with _ | _
  swap
  · simp [cdevLoad, classError, ha, hc, hacq, hrel, hif, h]
  by_cases hd : g.cdevAdd = -1
  · simp [cdevLoad, addError, fileError, classError, ha, hc, hd, g.device_ne, hacq, hrel, hif, h]
  · have hcdev (q : Held) : (q.acquire .cdev).count .cdev = q.count .cdev + 1 := by
      show (if Res.cdev = .cdev then q.count .cdev + 1 else q.count .cdev) = _
      exact if_pos rfl
    simp only [cdevLoad, Code.run_bind, Code.run_pure, run_logLine, run_acquireInt,
      run_acquirePtr, run_setModuleVars, run_moduleVars, ha, hc, hd, g.device_ne, if_true, if_false,
      show ¬ (0 : Int) < 0 by decide, Bool.false_eq_true]
    refine ⟨?_, fun h => absurd h (by decide)⟩
    split
    · rw [hcdev, hif _ (by decide), hif _ (by decide), hacq _ (by decide), h]
    · rw [hif _ (by decide), hif _ (by decide), hacq _ (by decide), h]
      exact Nat.zero_le 1

/-- An unload takes it back. -/
theorem cdevUnload_cdev (h : s.res.count .cdev ≤ 1) :
    ((cdevUnload x).run s).2.res.count .cdev = 0 := by
  simp only [cdevUnload, Code.run_bind, run_releaseRes, run_logLine]
  rw [(count_cdev _ (by decide)).2, (count_cdev _ (by decide)).2, (count_cdev _ (by decide)).2,
    Held.release]
  split
  · rename_i h0
    exact h0
  · show (if Res.cdev = .cdev then s.res.count .cdev - 1 else s.res.count .cdev) = 0
    rw [if_pos rfl]
    omega

/-- The `cdev` is registered at most once, and not while the module is not loaded. -/
def OnceHeld (l : Loader CdevVars Held) : Prop :=
  l.res.count .cdev ≤ 1 ∧ (l.loaded = false → l.res.count .cdev = 0)

theorem clears_cdev (owner : Bool) :
    Hosted.Clears ⟨cdevModule x classFails, owner, fun h => h.count .cdev⟩ {} OnceHeld where
  boot := ⟨Nat.zero_le 1, fun _ => rfl⟩
  idle h := h.2
  step {l} c h := by
    show OnceHeld ((cdevModule x classFails).step l c).1
    cases c with
    | insmod g =>
      rcases hl : l.loaded with _ | _
      · obtain ⟨h1, h0⟩ := cdevLoad_cdev x classFails g (s := { vars := {}, res := l.res }) (h.2 hl)
        rw [Module.step_insmod hl rfl]
        exact ⟨h1, fun hn => h0 (not_le.mp (of_decide_eq_false hn))⟩
      · rw [Module.step_insmod_of_loaded hl]
        exact h
    | rmmod =>
      rcases hl : l.loaded with _ | _
      · rw [Module.step_rmmod_of_unloaded hl]
        exact h
      · have h0 := cdevUnload_cdev x (s := { vars := l.vars, res := l.res }) h.1
        rw [Module.step_rmmod hl rfl]
        exact ⟨h0.le.trans (Nat.zero_le 1), fun _ => h0⟩

end Cdev

/-! ## With `register_chrdev` -/

section Chrdev

variable (x : ChrdevTexts)

/-- What is registered, if anything, is in `major_number`, and nothing is while the
module is not loaded. -/
def OwnMajor (l : Loader ChrdevVars Majors) : Prop :=
  l.res.registered = [] ∨ l.loaded = true ∧ l.res.registered = [(l.vars.majorNumber : Int)]

theorem clears_chrdev (owner : Bool) :
    Hosted.Clears ⟨chrdevModule x (chrdevUnload x), owner, fun h => h.registered.length⟩ {}
      OwnMajor where
  boot := .inl rfl
  idle h hl := by
    rcases h with h | h
    · exact List.length_eq_zero_iff.mpr h
    · exact absurd (hl.symm.trans h.1) Bool.false_ne_true
  step {l} c h := by
    show OwnMajor ((chrdevModule x (chrdevUnload x)).step l c).1
    cases c with
    | insmod g =>
      rcases hl : l.loaded with _ | _
      · have h0 : l.res.registered = [] := h.resolve_right fun h => by simp [hl] at h
        rw [Module.step_insmod hl (chrdevLoad_run x _ g)]
        by_cases hg : 0 < g.ret
        · have hd : (devT g.ret : Int) = g.ret := by
            rcases g.range with h | h
            · exact devT_of_lt (by omega) (by omega)
            · omega
          right
          rw [if_pos hg, h0]
          exact ⟨rfl, congrArg (fun r : Int => [r]) hd.symm⟩
        · left
          rw [if_neg hg]
          exact h0
      · rw [Module.step_insmod_of_loaded hl]
        exact h
    | rmmod =>
      rcases hl : l.loaded with _ | _
      · rw [Module.step_rmmod_of_unloaded hl]
        exact h
      · rw [Module.step_rmmod hl rfl]
        left
        rcases h with h0 | ⟨-, h1⟩
        · have hn : (l.vars.majorNumber : Int) ∉ l.res.registered := by simp [h0]
          show ((chrdevUnload x).run { vars := l.vars, res := l.res }).2.res.registered = []
          simp only [chrdevUnload, unregisterChrdev, Code.run_bind, run_moduleVars, run_setRes,
            run_logLine, if_neg hn]
          exact h0
        · exact congrArg Majors.registered (chrdevUnload_res x l.vars h1)

end Chrdev

/-- `madre` unregisters nothing. -/
theorem keeps_madre : Toggle.madreHosted.Keeps := by
  intro l c
  show l.res.registered.length ≤ (Toggle.madreModule.step l c).1.res.registered.length
  cases c with
  | insmod g =>
    rcases hl : l.loaded with _ | _
    · rw [Module.step_insmod hl (chrdevLoad_run Toggle.madreLoadTexts _ g)]
      show _ ≤ (if 0 < g.ret then _ else _ : Majors).registered.length
      split
      · exact Nat.le_succ _
      · exact le_rfl
    · rw [Module.step_insmod_of_loaded hl]
  | rmmod =>
    rcases hl : l.loaded with _ | _
    · rw [Module.step_rmmod_of_unloaded hl]
    · rw [Module.step_rmmod hl rfl]
      exact le_rfl

/-! ## The drivers -/

/-- No call of `orion` is stray, and an unload is refused as long as a file is open. -/
theorem orion_lifetime (es : List (Act CdevCalls)) : ∀ t ∈ Orion.hosted.steps {} es, t.out ≠ .stray ∧
    (t.inp = .rmmod → (t.out = .refused ↔ t.pre.loader.loaded = false ∨ t.pre.files ≠ [])) :=
  Hosted.owner_safe (clears_cdev Orion.loadTexts Ptr.isErr true) rfl rfl es

/-- Every call of a load succeeds. -/
def granted : CdevCalls where
  allocChrdevRegion := 0
  deviceNumbers := 0
  classCreate := .valid
  deviceCreate := .valid
  cdevAdd := 0
  alloc_range := .inl rfl
  class_ne := by decide
  device_ne := by decide
  add_range := .inl rfl

/-- With a file open, `orion` is not unloaded. -/
theorem orion_lifetime_open :
    (Orion.hosted.step (Orion.hosted.after {} [.insmod granted, .opn 0 0]) .rmmod).2 = .refused := by
  have hm : Run.stepOf Orion.hosted.step (Orion.hosted.after {} [.insmod granted, .opn 0 0]) .rmmod ∈
      Orion.hosted.steps {} [.insmod granted, .opn 0 0, .rmmod] := .tail _ (.tail _ (.head _))
  exact ((orion_lifetime _ _ hm).2 rfl).mpr (.inr (by decide))

/-- A call of `luffy`, of `chaleco` or of `pokemon` is stray just if it is on a file
that was open when the module was unloaded. -/
theorem lifetime_iff :
    (∀ es, (∃ t ∈ Toggle.luffyHosted.steps {} es, t.out = .stray) ↔ Toggle.luffyHosted.UsedLeft {} es) ∧
    (∀ es, (∃ t ∈ Toggle.chalecoHosted.steps {} es, t.out = .stray) ↔
      Toggle.chalecoHosted.UsedLeft {} es) ∧
    (∀ es, (∃ t ∈ Pokemon.hosted.steps {} es, t.out = .stray) ↔ Pokemon.hosted.UsedLeft {} es) :=
  ⟨Hosted.stray_iff (clears_cdev Toggle.luffyLoadTexts (· = .null) false) rfl,
    Hosted.stray_iff (clears_chrdev Toggle.chalecoLoadTexts false) rfl,
    Hosted.stray_iff (clears_chrdev Pokemon.loadTexts false) rfl⟩

/-- Once a load of `madre` (the one numbered `gen + 1`) has registered the device, an unload
leaves that registration for ever, and every `open` of it is stray. -/
theorem madre_kept (l m r : List (Act RegisterCall)) (g : RegisterCall)
    (hl : (Toggle.madreHosted.after {} l).loader.loaded = false) (hg : 0 < g.ret)
    (hm : .rmmod ∉ m) :
    Toggle.madreHosted.Lost (Toggle.madreHosted.after {} (l ++ .insmod g :: (m ++ .rmmod :: r)))
      ((Toggle.madreHosted.after {} l).gen + 1) := by
  have hload := Module.step_insmod (m := Toggle.madreModule) hl
    (chrdevLoad_run Toggle.madreLoadTexts _ g)
  rw [if_pos hg] at hload
  refine Hosted.lost_of_kept keeps_madre rfl rfl hl ⟨?_, ?_⟩ hm
  · exact congrArg (fun p => p.1.loaded) hload
  · refine lt_of_lt_of_eq (Nat.lt_succ_self _) (Eq.symm ?_)
    exact congrArg (fun p => p.1.res.registered.length) hload

/-- `madre` loaded and unloaded with a file open, then loaded with another number: the first
load's registration. -/
theorem madre_kept_reloaded :
    Toggle.madreHosted.Lost (Toggle.madreHosted.after {} [.insmod ⟨240, by decide⟩, .opn 0 0, .rmmod,
      .insmod ⟨241, by decide⟩]) 1 :=
  madre_kept [] [.opn 0 0] [.insmod ⟨241, by decide⟩] ⟨240, by decide⟩ rfl (by decide) (by simp)

end SO.Proof.Lifetime
