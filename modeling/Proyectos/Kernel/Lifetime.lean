import Proyectos.Kernel.Loader

/-!
# Open files, over loads and unloads

The kernel keeps, for each registration of a device and for each file open on
it, the load whose `fops` it names. An `open` counts the module as in use, up to
the `close`, if `fops.owner` is the module, and `rmmod` is refused of a module in
use; any other is unloaded and its memory is freed, `fops` and its functions with
it. A call that comes to them after that is told by `Said.stray`.
-/

namespace SO

/-- A module whose `fops` is registered. -/
structure Hosted (ν ρ γ : Type) extends Module ν ρ γ where
  /-- `fops.owner` is `THIS_MODULE`. -/
  owner : Bool
  /-- How many registrations of its `fops` stand. -/
  standing : ρ → Nat

/-- An open file, and the load whose `fops` it has. -/
structure OpenFile where
  key : Nat
  tag : Nat
  deriving DecidableEq, Repr

/-- The module and the kernel. Loads are numbered from 1. -/
structure Host (ν ρ : Type) where
  loader : Loader ν ρ
  gen : Nat := 0
  /-- The module's count of users. -/
  users : Nat := 0
  /-- The registrations that stand, the newest first. -/
  regs : List Nat := []
  files : List OpenFile := []

/-- What an administrator and the clients do: an `open` of the device's
registration `i` gives the file `key`, and a read or a write uses it. -/
inductive Act (γ : Type)
  | insmod (g : γ)
  | rmmod
  | opn (key i : Nat)
  | use (key : Nat)
  | close (key : Nat)

/-- What comes of it. -/
inductive Said
  | done
  | refused
  /-- The memory of a module that has been unloaded is read or run. -/
  | stray
  deriving DecidableEq, Repr

namespace Host

variable {ν ρ : Type} (s : Host ν ρ)

/-- The load numbered `tag` is the one that is in memory. -/
def Live (tag : Nat) : Prop := s.loader.loaded = true ∧ tag = s.gen

instance (tag : Nat) : Decidable (s.Live tag) := inferInstanceAs (Decidable (_ ∧ _))

/-- The load whose `fops` the file has. -/
def tag? (key : Nat) : Option Nat := (s.files.find? fun f => f.key == key).map OpenFile.tag

end Host

/-- The registrations that stand once there are `k` of them, the load `gen` having
run: it has made the new ones, or taken the newest. -/
def standingOf (gen k : Nat) (regs : List Nat) : List Nat :=
  List.replicate (k - regs.length) gen ++ regs.drop (regs.length - k)

namespace Hosted

variable {ν ρ γ : Type} (h : Hosted ν ρ γ)

/-- One of these. -/
def step (s : Host ν ρ) : Act γ → Host ν ρ × Said
  | .insmod g =>
    if s.loader.loaded then (s, .refused)
    else
      let loader := (h.toModule.step s.loader (.insmod g)).1
      let gen := s.gen + 1
      ({ s with loader, gen, regs := standingOf gen (h.standing loader.res) s.regs }, .done)
  | .rmmod =>
    if s.loader.loaded = false ∨ s.users ≠ 0 then (s, .refused)
    else
      let loader := (h.toModule.step s.loader .rmmod).1
      ({ s with loader, regs := standingOf s.gen (h.standing loader.res) s.regs }, .done)
  | .opn key i =>
    match s.tag? key, s.regs[i]? with
    | none, some tag =>
      if s.Live tag then
        ({ s with files := ⟨key, tag⟩ :: s.files, users := s.users + h.owner.toNat }, .done)
      else (s, .stray)
    -- the file is in use already, or no device has the number
    | _, _ => (s, .refused)
  | .use key =>
    match s.tag? key with
    | none => (s, .refused)
    | some tag => (s, if s.Live tag then .done else .stray)
  | .close key =>
    match s.tag? key with
    | none => (s, .refused)
    | some tag =>
      ({ s with files := s.files.filter fun f => f.key != key, users := s.users - h.owner.toNat },
        if s.Live tag then .done else .stray)

/-- The state before the first load; the module holds `r₀`, which is nothing. -/
def boot (r₀ : ρ) : Host ν ρ := { loader := { vars := h.init, res := r₀ } }

end Hosted

end SO
