import Proyectos.Proof.Load.Cdev
import Proyectos.Impl.Pokemon

/-!
# Loading `madre`, `chaleco` and `pokemon`

The major number `register_chrdev` returns is kept in a `dev_t`, which is
unsigned, so the check for a negative one never fires and a load succeeds
whatever it is told (`chrdevLoad_run`). `madre` does not unregister either.
`registrations_balanced_iff` says which histories keep the registration
balanced.
-/

namespace SO.Proof.Load

open SO.Impl

/-- The registration a load that returned `ret` leaves, of those told `g`. -/
def RegisterOk (g : RegisterCall) (ret : Int) (h : Majors) : Prop :=
  (ret = 0 ↔ h.registered = [g.ret]) ∧ (ret ≠ 0 → ret < 0 ∧ h.registered = [])

/-- The registration an unload that found `h` and left `h'` has undone: the one
there was. -/
def UnregisterOk (h h' : Majors) : Prop :=
  h'.registered = [] ∧ ∃ major, h.registered = [major] ∧ h'.given = h.given ++ [major]

/-- A command keeps the registration balanced, and unregisters nothing that is
not registered. -/
def StepBalanced (t : Step (Loader ChrdevVars Majors) (Command RegisterCall) Ran) : Prop :=
  (match t.inp, t.out with
    | .insmod g, .load ret => RegisterOk g ret t.post.res
    | .rmmod, .unload => UnregisterOk t.pre.res t.post.res
    | _, _ => True) ∧ t.post.res.stray = []

/-- Every load and unload keeps the registration balanced. -/
def Balanced (m : Module ChrdevVars Majors RegisterCall) (cs : List (Command RegisterCall)) : Prop :=
  ∀ t ∈ m.steps {} cs, StepBalanced t

/-- The device was registered. -/
def Registers (g : RegisterCall) : Prop := 0 < g.ret

/-- A load succeeds, whatever `register_chrdev` returned. -/
theorem chrdevLoad_run (x : ChrdevTexts) (s : LoadSt ChrdevVars Majors) (g : RegisterCall) :
    (chrdevLoad x g).run s = (0,
      { vars := { majorNumber := devT g.ret }
        res := if 0 < g.ret then { s.res with registered := g.ret :: s.res.registered } else s.res
        log := s.log ++ [⟨.kernInfo, x.loading, []⟩] ++ x.loaded (.d (int32 (devT g.ret))) }) := by
  have h : ¬ (devT g.ret : Int) < 0 := by omega
  simp only [chrdevLoad, Code.run_bind, Code.run_pure, run_logLine, run_logLines, run_registerChrdev,
    run_setModuleVars, run_moduleVars, if_neg h]

/-- An unload gives back the number in `major_number`. -/
theorem chrdevUnload_res (x : ChrdevTexts) (v : ChrdevVars) {h : Majors}
    (hr : h.registered = [(v.majorNumber : Int)]) :
    ((chrdevUnload x).run { vars := v, res := h }).2.res =
      { h with registered := [], given := h.given ++ [(v.majorNumber : Int)] } := by
  have hm : (v.majorNumber : Int) ∈ h.registered := by rw [hr]; exact List.mem_cons_self
  have he : h.registered.erase (v.majorNumber : Int) = [] := by rw [hr]; exact List.erase_cons_head ..
  simp only [chrdevUnload, unregisterChrdev, Code.run_bind, run_moduleVars, run_setRes, run_logLine,
    if_pos hm, he]

/-! ## Every history -/

/-- `major_number` is what is registered once the module is loaded, and nothing
is before. -/
def Registered (s : Loader ChrdevVars Majors) : Prop :=
  s.res.stray = [] ∧
    s.res.registered = if s.loaded then [(s.vars.majorNumber : Int)] else []

/-- The module of a driver that loads with `chrdevLoad`. -/
def chrdevModule (x : ChrdevTexts) (unload : Code (LoadSt ChrdevVars Majors) Unit) :
    Module ChrdevVars Majors RegisterCall := ⟨{}, chrdevLoad x, unload⟩

section Step

variable (x : ChrdevTexts) (u : Code (LoadSt ChrdevVars Majors) Unit)
  {s : Loader ChrdevVars Majors} (hs : Registered s)
include hs

/-- A load attempt, where all before kept the registration balanced. -/
theorem insmod_balanced (g : RegisterCall) :
    (StepBalanced (Run.stepOf (chrdevModule x u).step s (.insmod g)) ↔
        (s.loaded = false → Registers g)) ∧
      (StepBalanced (Run.stepOf (chrdevModule x u).step s (.insmod g)) →
        Registered ((chrdevModule x u).step s (.insmod g)).1) := by
  cases hl : s.loaded with
  | true =>
    rw [Run.stepOf, Module.step_insmod_of_loaded hl]
    exact ⟨iff_of_true ⟨trivial, hs.1⟩ fun h => (by cases h), fun _ => hs⟩
  | false =>
    have h0 : s.res.registered = [] := by
      rw [hs.2, hl]; rfl
    rw [Run.stepOf, Module.step_insmod hl (chrdevLoad_run x _ g), h0]
    by_cases hg : 0 < g.ret
    · have hd : (devT g.ret : Int) = g.ret := by
        rcases g.range with h | h
        · exact devT_of_lt (by omega) (by omega)
        · omega
      rw [if_pos hg]
      refine ⟨iff_of_true ⟨⟨iff_of_true rfl rfl, fun h => absurd rfl h⟩, hs.1⟩ fun _ => hg, fun _ => ?_⟩
      exact ⟨hs.1, congrArg (fun r : Int => [r]) hd.symm⟩
    · rw [if_neg hg]
      have hn : ¬ RegisterOk g 0 s.res := fun h => by
        have := h.1.mp rfl
        rw [h0] at this
        cases this
      exact ⟨iff_of_false (fun h => hn h.1) fun h => hg (h rfl), fun h => absurd h.1 hn⟩

theorem rmmod_of_unloaded_balanced (hl : s.loaded = false) :
    StepBalanced (Run.stepOf (chrdevModule x u).step s .rmmod) ∧
      Registered ((chrdevModule x u).step s .rmmod).1 := by
  rw [Run.stepOf, Module.step_rmmod_of_unloaded hl]
  exact ⟨⟨trivial, hs.1⟩, hs⟩

/-- An unload that unregisters. -/
theorem rmmod_balanced :
    StepBalanced (Run.stepOf (chrdevModule x (chrdevUnload x)).step s .rmmod) ∧
      Registered ((chrdevModule x (chrdevUnload x)).step s .rmmod).1 := by
  cases hl : s.loaded with
  | true =>
    have h1 : s.res.registered = [(s.vars.majorNumber : Int)] := by
      rw [hs.2, hl]; rfl
    have hr := chrdevUnload_res x s.vars h1
    rw [Run.stepOf, Module.step_rmmod hl rfl]
    refine ⟨⟨⟨?_, s.vars.majorNumber, h1, ?_⟩, ?_⟩, ?_, ?_⟩
    · exact congrArg Majors.registered hr
    · exact congrArg Majors.given hr
    · exact (congrArg Majors.stray hr).trans hs.1
    · exact (congrArg Majors.stray hr).trans hs.1
    · exact congrArg Majors.registered hr
  | false => exact rmmod_of_unloaded_balanced x _ hs hl

/-- One that does not. -/
theorem rmmod_unbalanced (line : Line) (hl : s.loaded = true) :
    ¬ StepBalanced (Run.stepOf (chrdevModule x (logLines [line])).step s .rmmod) := by
  rw [Run.stepOf, Module.step_rmmod hl rfl]
  rintro ⟨⟨h0, -⟩, -⟩
  have h1 : s.res.registered = [] := h0
  rw [hs.2, hl] at h1
  cases h1

end Step

/-- Every history of a module that unregisters. -/
theorem balanced_iff (x : ChrdevTexts) (cs : List (Command RegisterCall)) :
    Balanced (chrdevModule x (chrdevUnload x)) cs ↔
      ∀ t ∈ (chrdevModule x (chrdevUnload x)).steps {} cs, LoadMeets Registers t := by
  have h : Registered { vars := {}, res := {} } := ⟨rfl, rfl⟩
  refine Run.forall_steps_iff (I := Registered) (A := StepBalanced) (B := LoadMeets Registers)
    (fun s c hs => ?_) h cs
  cases c with
  | insmod g =>
    obtain ⟨h1, h2⟩ := insmod_balanced x (chrdevUnload x) hs g
    exact ⟨h1.trans (loadMeets_insmod g).symm, h2⟩
  | rmmod =>
    obtain ⟨h1, h2⟩ := rmmod_balanced x hs
    exact ⟨iff_of_true h1 loadMeets_rmmod, fun _ => h2⟩

/-- Every history of a module that does not. -/
theorem balanced_iff_of_keeps (x : ChrdevTexts) (line : Line) (cs : List (Command RegisterCall)) :
    Balanced (chrdevModule x (logLines [line])) cs ↔
      ∀ t ∈ (chrdevModule x (logLines [line])).steps {} cs, LoadMeets Registers t ∧
        (t.inp = .rmmod → t.pre.loaded = false) := by
  have h : Registered { vars := {}, res := {} } := ⟨rfl, rfl⟩
  refine Run.forall_steps_iff (I := Registered) (A := StepBalanced)
    (B := fun t => LoadMeets Registers t ∧ (t.inp = .rmmod → t.pre.loaded = false))
    (fun s c hs => ?_) h cs
  cases c with
  | insmod g =>
    obtain ⟨h1, h2⟩ := insmod_balanced x (logLines [line]) hs g
    refine ⟨h1.trans ((loadMeets_insmod g).symm.trans (and_iff_left ?_).symm), h2⟩
    exact fun e => by cases e
  | rmmod =>
    cases hl : s.loaded with
    | true =>
      have hn := rmmod_unbalanced x hs line hl
      refine ⟨iff_of_false hn fun h => ?_, fun h => absurd h hn⟩
      exact Bool.noConfusion (hl.symm.trans (h.2 rfl))
    | false =>
      obtain ⟨h1, h2⟩ := rmmod_of_unloaded_balanced x (logLines [line]) hs hl
      exact ⟨iff_of_true h1 ⟨loadMeets_rmmod, fun _ => hl⟩, fun _ => h2⟩

/-- Every history of `chaleco`, `pokemon` and `madre`: the registration is
balanced just if every load attempt's registration succeeds and, for `madre`,
no unload runs. -/
theorem registrations_balanced_iff (cs : List (Command RegisterCall)) :
    (Balanced Toggle.chalecoModule cs ↔
        ∀ t ∈ Toggle.chalecoModule.steps {} cs, LoadMeets Registers t) ∧
      (Balanced Pokemon.kmodule cs ↔ ∀ t ∈ Pokemon.kmodule.steps {} cs, LoadMeets Registers t) ∧
      (Balanced Toggle.madreModule cs ↔ ∀ t ∈ Toggle.madreModule.steps {} cs,
        LoadMeets Registers t ∧ (t.inp = .rmmod → t.pre.loaded = false)) :=
  ⟨balanced_iff Toggle.chalecoLoadTexts cs, balanced_iff Pokemon.loadTexts cs,
    balanced_iff_of_keeps Toggle.madreLoadTexts _ cs⟩

/-- `register_chrdev` fails, and the load succeeds. -/
theorem load_unregistered : ¬ ∀ cs, Balanced Pokemon.kmodule cs := by
  intro h
  have hs := h [.insmod ⟨-16, by decide⟩] _ List.mem_cons_self
  exact absurd (hs.1.1.mp rfl) (by decide)

end SO.Proof.Load
