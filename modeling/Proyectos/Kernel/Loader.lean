import Proyectos.Framework.Run
import Proyectos.Kernel.Device

/-!
# Loading and unloading a module

What `module_init` and `module_exit` functions use of the kernel, and the
machine their calls make: `insmod` runs the load function on fresh static
variables, and `rmmod` the unload function, of a module that is loaded
(`Module.step`). A load function that returns a negative number leaves the
module unloaded.

Two ways of registering a character device: the four resources of a `cdev`
(`Held`), and the major numbers of `register_chrdev` (`Majors`). Both keep
what the module holds, whatever it has been told, and note each release of
something it did not hold (`stray`). The outcomes of the calls a load function
makes are its argument, with what the kernel promises of them as fields.
-/

namespace SO

/-- What a kernel function that returns a pointer returns. -/
inductive Ptr
  | null
  | err (e : Int)
  | valid
  deriving DecidableEq, Repr

/-- `IS_ERR`. -/
def Ptr.isErr : Ptr → Bool
  | .err _ => true
  | _ => false

/-- The state a load or unload function runs in: its static variables `ν`,
what the module holds `ρ`, and the log. -/
structure LoadSt (ν ρ : Type) where
  vars : ν
  res : ρ
  log : List Line := []

/-- A module: its static variables, `module_init` and `module_exit`. `γ` is
the type of the outcomes of the calls `load` makes. -/
structure Module (ν ρ γ : Type) where
  init : ν
  load : γ → Code (LoadSt ν ρ) Int
  unload : Code (LoadSt ν ρ) Unit

section Code

variable {ν ρ : Type}

def moduleVars : Code (LoadSt ν ρ) ν := ⟨fun s => (s.vars, s)⟩

def setModuleVars (f : ν → ν) : Code (LoadSt ν ρ) Unit := ⟨fun s => ((), { s with vars := f s.vars })⟩

def setRes (f : ρ → ρ) : Code (LoadSt ν ρ) Unit := ⟨fun s => ((), { s with res := f s.res })⟩

def logLines (ls : List Line) : Code (LoadSt ν ρ) Unit :=
  ⟨fun s => ((), { s with log := s.log ++ ls })⟩

def logLine (level : Level) (fmt : String) (args : List Arg := []) : Code (LoadSt ν ρ) Unit :=
  logLines [⟨level, fmt, args⟩]

/-! ### Running it -/

variable (s : LoadSt ν ρ)

@[simp] theorem run_moduleVars : (moduleVars : Code (LoadSt ν ρ) ν).run s = (s.vars, s) := (rfl)

@[simp] theorem run_setModuleVars (f : ν → ν) :
    (setModuleVars f : Code (LoadSt ν ρ) Unit).run s = ((), { s with vars := f s.vars }) := (rfl)

@[simp] theorem run_setRes (f : ρ → ρ) :
    (setRes f : Code (LoadSt ν ρ) Unit).run s = ((), { s with res := f s.res }) := (rfl)

@[simp] theorem run_logLines (ls : List Line) :
    (logLines ls : Code (LoadSt ν ρ) Unit).run s = ((), { s with log := s.log ++ ls }) := (rfl)

@[simp] theorem run_logLine (level : Level) (fmt : String) (args : List Arg) :
    (logLine level fmt args : Code (LoadSt ν ρ) Unit).run s =
      ((), { s with log := s.log ++ [⟨level, fmt, args⟩] }) := (rfl)

end Code

/-! ## The loader -/

/-- A module and the kernel. -/
structure Loader (ν ρ : Type) where
  loaded : Bool := false
  vars : ν
  res : ρ

/-- An administrator's command. -/
inductive Command (γ : Type)
  | insmod (g : γ)
  | rmmod
  deriving Repr

/-- Which of the module's functions a command ran, with the value returned. -/
inductive Ran
  | nothing
  | load (ret : Int)
  | unload
  deriving DecidableEq, Repr

namespace Module

variable {ν ρ γ : Type} (m : Module ν ρ γ)

/-- One command. -/
def step (s : Loader ν ρ) : Command γ → Loader ν ρ × Ran
  | .insmod g =>
    if s.loaded then (s, .nothing) else
      let r := (m.load g).run { vars := m.init, res := s.res }
      ({ loaded := decide (0 ≤ r.1), vars := r.2.vars, res := r.2.res }, .load r.1)
  | .rmmod =>
    if s.loaded then
      let r := m.unload.run { vars := s.vars, res := s.res }
      ({ loaded := false, vars := r.2.vars, res := r.2.res }, .unload)
    else (s, .nothing)

/-- The transcript of the commands `cs`, from a kernel where the module holds
`none`. -/
abbrev steps (none : ρ) (cs : List (Command γ)) : List (Step (Loader ν ρ) (Command γ) Ran) :=
  Run.steps m.step { vars := m.init, res := none } cs

variable {m} {s : Loader ν ρ} {g : γ}

theorem step_insmod (h : s.loaded = false) {r : Int × LoadSt ν ρ}
    (hr : (m.load g).run { vars := m.init, res := s.res } = r) : m.step s (.insmod g) =
      ({ loaded := decide (0 ≤ r.1), vars := r.2.vars, res := r.2.res }, .load r.1) := by
  subst hr; simp only [step, h]; rfl

theorem step_insmod_of_loaded (h : s.loaded = true) : m.step s (.insmod g) = (s, .nothing) := by
  simp only [step, h, if_true]

theorem step_rmmod (h : s.loaded = true) {r : Unit × LoadSt ν ρ}
    (hr : m.unload.run { vars := s.vars, res := s.res } = r) :
    m.step s .rmmod = ({ loaded := false, vars := r.2.vars, res := r.2.res }, .unload) := by
  subst hr; simp only [step, h, if_true]

theorem step_rmmod_of_unloaded (h : s.loaded = false) : m.step s .rmmod = (s, .nothing) := by
  simp only [step, h]; rfl

end Module

/-! ## The resources of a `cdev` -/

/-- What `alloc_chrdev_region`, `class_create`, `device_create` and `cdev_add`
give. -/
inductive Res
  | region | cls | device | cdev
  deriving DecidableEq, Repr

/-- How many of each the module holds, and its releases of what it did not
hold. -/
@[ext] structure Held where
  count : Res → Nat := fun _ => 0
  stray : List Res := []

namespace Held

def acquire (r : Res) (h : Held) : Held :=
  { h with count := fun q => if q = r then h.count q + 1 else h.count q }

def release (r : Res) (h : Held) : Held :=
  if h.count r = 0 then { h with stray := h.stray ++ [r] }
  else { h with count := fun q => if q = r then h.count q - 1 else h.count q }

end Held

/-- The outcomes of the calls of a load function that registers a `cdev`;
`deviceNumbers` is what `alloc_chrdev_region` assigns. -/
structure CdevCalls where
  allocChrdevRegion : Int
  deviceNumbers : Nat
  classCreate : Ptr
  deviceCreate : Ptr
  cdevAdd : Int
  alloc_range : allocChrdevRegion = 0 ∨ -4095 ≤ allocChrdevRegion ∧ allocChrdevRegion ≤ -1
  class_ne : classCreate ≠ .null
  device_ne : deviceCreate ≠ .null
  add_range : cdevAdd = 0 ∨ -4095 ≤ cdevAdd ∧ cdevAdd ≤ -1

/-- `MAJOR`. -/
def major (dev : Nat) : Nat := dev / 2 ^ 20

/-- `MINOR`. -/
def minor (dev : Nat) : Nat := dev % 2 ^ 20

section Code

variable {ν : Type}

/-- A call that returned `ret`, and acquires `r` where that is 0. -/
def acquireInt (r : Res) (ret : Int) : Code (LoadSt ν Held) Int := do
  if ret = 0 then setRes (Held.acquire r)
  return ret

/-- A call that returned `p`, and acquires `r` where that is a valid pointer. -/
def acquirePtr (r : Res) (p : Ptr) : Code (LoadSt ν Held) Ptr := do
  if p = .valid then setRes (Held.acquire r)
  return p

/-- A call that gives back `r`. -/
def releaseRes (r : Res) : Code (LoadSt ν Held) Unit := setRes (Held.release r)

variable (s : LoadSt ν Held) (r : Res)

@[simp] theorem run_acquireInt (ret : Int) : (acquireInt r ret).run s =
    (ret, { s with res := if ret = 0 then s.res.acquire r else s.res }) := by
  simp only [acquireInt, Code.run_bind, Code.run_ite, run_setRes, Code.run_pure]
  split <;> rfl

@[simp] theorem run_acquirePtr (p : Ptr) : (acquirePtr r p).run s =
    (p, { s with res := if p = .valid then s.res.acquire r else s.res }) := by
  simp only [acquirePtr, Code.run_bind, Code.run_ite, run_setRes, Code.run_pure]
  split <;> rfl

@[simp] theorem run_releaseRes :
    (releaseRes r).run s = ((), { s with res := s.res.release r }) := (rfl)

end Code

/-! ## Major numbers -/

/-- The major numbers registered by the module, those it gave to
`unregister_chrdev`, and those of them that were not registered. -/
structure Majors where
  registered : List Int := []
  given : List Int := []
  stray : List Int := []
  deriving DecidableEq, Repr

/-- The outcome of `register_chrdev(0, …)`. -/
structure RegisterCall where
  ret : Int
  range : 0 < ret ∧ ret < 2 ^ 31 ∨ -2 ^ 31 ≤ ret ∧ ret < 0

/-- Conversion to `dev_t`, an unsigned 32-bit integer. -/
def devT (x : Int) : Nat := (x % 2 ^ 32).toNat

theorem devT_of_lt {x : Int} (h0 : 0 ≤ x) (h : x < 2 ^ 32) : (devT x : Int) = x := by
  rw [devT, Int.toNat_of_nonneg (Int.emod_nonneg _ (by decide)), Int.emod_eq_of_lt h0 h]

section Code

variable {ν : Type}

/-- `register_chrdev(0, DEVICE_NAME, &fops)`. -/
def registerChrdev (g : RegisterCall) : Code (LoadSt ν Majors) Int := do
  if 0 < g.ret then setRes fun r => { r with registered := g.ret :: r.registered }
  return g.ret

/-- `unregister_chrdev(major, DEVICE_NAME)`. -/
def unregisterChrdev (major : Nat) : Code (LoadSt ν Majors) Unit :=
  setRes fun r =>
    if (major : Int) ∈ r.registered then
      { r with registered := r.registered.erase major, given := r.given ++ [(major : Int)] }
    else { r with given := r.given ++ [(major : Int)], stray := r.stray ++ [(major : Int)] }

variable (s : LoadSt ν Majors)

@[simp] theorem run_registerChrdev (g : RegisterCall) : (registerChrdev g).run s = (g.ret,
    { s with res :=
      if 0 < g.ret then { s.res with registered := g.ret :: s.res.registered } else s.res }) := by
  simp only [registerChrdev, Code.run_bind, Code.run_ite, run_setRes, Code.run_pure]
  split <;> rfl

end Code

end SO
