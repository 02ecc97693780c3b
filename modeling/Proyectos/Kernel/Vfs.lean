import Proyectos.Framework.Run
import Proyectos.Kernel.Device
import Mathlib.Data.Finset.Card
import Mathlib.Logic.Function.Basic

/-!
# Sessions of a character device

The calls user programs make on a device, one at a time, and what the VFS does
with them. A session is an open file: it is named when it is opened, and its
name is not used again. A call on a session that is not open never reaches the
driver. `read` and `write` work at the session's own file offset and store it
back unless the driver failed; with an offset of their own they are `pread` and
`pwrite`, which leave the session's offset alone.

`Driver.step` is the machine of `Proyectos.Framework.Run` that a driver makes
with its sessions: `d.after cs` is the state after the calls `cs`, `d.steps cs`
their transcript. What a call can come to is told once, by `step_outcome`.

The VFS passes on at most `MAX_RW_COUNT` bytes and offsets that are not
negative: a `VfsCall`. Drivers that compute with either are run on `VfsCall`s,
the others on any `Call`.
-/

namespace SO

/-- The longest transfer the VFS asks of a driver. -/
abbrev MAX_RW_COUNT : Nat := 0x7ffff000

/-- A user program's call on the device. -/
inductive Call
  | opn (k : Nat)
  | close (k : Nat)
  | read (k : Nat) (at? : Option Int) (buf : UserDst) (len : Nat)
  | write (k : Nat) (at? : Option Int) (buf : UserSrc)

namespace Call

/-- The session a call is made by. -/
def session : Call → Nat
  | opn k => k
  | close k => k
  | read k _ _ _ => k
  | write k _ _ => k

/-- The VFS lets the call through as it is. -/
def Admitted : Call → Prop
  | opn _ | close _ => True
  | read _ at? _ len => len ≤ MAX_RW_COUNT ∧ ∀ p ∈ at?, 0 ≤ p ∧ p < 2 ^ 63
  | write _ at? buf => buf.bytes.length ≤ MAX_RW_COUNT ∧ ∀ p ∈ at?, 0 ≤ p ∧ p < 2 ^ 63

/-- No user copy of the call misses a byte. -/
def Faultless : Call → Prop
  | opn _ | close _ => True
  | read _ _ buf _ => buf.missed = 0
  | write _ _ buf => buf.missed = 0

end Call

/-- A call as the VFS lets it through. -/
abbrev VfsCall := {c : Call // c.Admitted}

/-- What a call gives its caller: whether it reached the driver, the value
returned and what the driver left behind. -/
structure Event where
  ran : Bool
  ret : Int
  out : Out

/-- A call on a session that is not open. -/
def Event.badf : Event := ⟨false, -EBADF, {}⟩

theorem Event.badf_ret_ne : Event.badf.ret ≠ -EFAULT := by decide

/-- A driver: its static variables when it is loaded and its `struct
file_operations`. `read` and `write` return the value returned and the new
`*offset`. -/
structure Driver (σ : Type) where
  init : Dev σ
  opn : Code (CallSt σ) Int
  release : Code (CallSt σ) Int
  read : UserDst → Nat → Int → Code (CallSt σ) (Int × Int)
  write : UserSrc → Nat → Int → Code (CallSt σ) (Int × Int)

/-- A device and its sessions: those open, the names used so far, and the
file offsets. -/
structure Sys (σ : Type) where
  dev : Dev σ
  opens : Finset Nat := ∅
  used : Finset Nat := ∅
  pos : Nat → Int := fun _ => 0

namespace Sys

variable {σ : Type}

/-- The offset a call of session `k` works at. -/
def offset (s : Sys σ) (k : Nat) (at? : Option Int) : Int := at?.getD (s.pos k)

/-- The file offsets after a call of session `k` that returned `ret` with the
offset `off`. -/
def newPos (s : Sys σ) (k : Nat) (at? : Option Int) (ret off : Int) : Nat → Int :=
  if at? = none ∧ 0 ≤ ret then Function.update s.pos k off else s.pos

/-- A call that does not fail moves the offset it works at, if that is the session's
own. -/
theorem newPos_own (s : Sys σ) (k : Nat) {ret : Int} (h : 0 ≤ ret) (off : Int) :
    s.newPos k none ret off k = off := by
  rw [newPos, if_pos ⟨rfl, h⟩, Function.update_self]

/-- A failed call leaves the offsets. -/
theorem newPos_fault (s : Sys σ) (k : Nat) (at? : Option Int) (off : Int) :
    s.newPos k at? (-EFAULT) off = s.pos :=
  if_neg fun h => absurd h.2 (by decide)

end Sys

namespace Driver

variable {σ : Type} (d : Driver σ)

/-- The loaded device, with no session yet. -/
def boot : Sys σ := { dev := d.init }

/-- One call. -/
def step (s : Sys σ) : Call → Sys σ × Event
  | .opn k =>
    if k ∈ s.used then (s, .badf) else
      let r := d.opn.run { dev := s.dev }
      if r.1 = 0 then
        ({ dev := r.2.dev, opens := insert k s.opens, used := insert k s.used
           pos := Function.update s.pos k 0 }, ⟨true, r.1, r.2.out⟩)
      else ({ s with dev := r.2.dev, used := insert k s.used }, ⟨true, r.1, r.2.out⟩)
  | .close k =>
    if k ∈ s.opens then
      let r := d.release.run { dev := s.dev }
      ({ s with dev := r.2.dev, opens := s.opens.erase k }, ⟨true, r.1, r.2.out⟩)
    else (s, .badf)
  | .read k at? buf len =>
    if k ∈ s.opens then
      let r := (d.read buf len (s.offset k at?)).run { dev := s.dev }
      ({ s with dev := r.2.dev, pos := s.newPos k at? r.1.1 r.1.2 }, ⟨true, r.1.1, r.2.out⟩)
    else (s, .badf)
  | .write k at? buf =>
    if k ∈ s.opens then
      let r := (d.write buf buf.bytes.length (s.offset k at?)).run { dev := s.dev }
      ({ s with dev := r.2.dev, pos := s.newPos k at? r.1.1 r.1.2 }, ⟨true, r.1.1, r.2.out⟩)
    else (s, .badf)

/-- The state after the calls `cs`. -/
abbrev after (cs : List Call) : Sys σ := Run.after d.step d.boot cs

/-- The transcript of the calls `cs`. -/
abbrev steps (cs : List Call) : List (Step (Sys σ) Call Event) := Run.steps d.step d.boot cs

variable {d} {s : Sys σ} {k : Nat} {at? : Option Int}

theorem step_close (h : k ∈ s.opens) : d.step s (.close k) =
    ({ s with dev := (d.release.run { dev := s.dev }).2.dev, opens := s.opens.erase k },
      ⟨true, (d.release.run { dev := s.dev }).1, (d.release.run { dev := s.dev }).2.out⟩) :=
  if_pos h

theorem step_read {buf : UserDst} {len : Nat} (h : k ∈ s.opens) {r : (Int × Int) × CallSt σ}
    (hr : (d.read buf len (s.offset k at?)).run { dev := s.dev } = r) :
    d.step s (.read k at? buf len) =
      ({ s with dev := r.2.dev, pos := s.newPos k at? r.1.1 r.1.2 }, ⟨true, r.1.1, r.2.out⟩) := by
  subst hr; exact if_pos h

theorem step_write {buf : UserSrc} (h : k ∈ s.opens) {r : (Int × Int) × CallSt σ}
    (hr : (d.write buf buf.bytes.length (s.offset k at?)).run { dev := s.dev } = r) :
    d.step s (.write k at? buf) =
      ({ s with dev := r.2.dev, pos := s.newPos k at? r.1.1 r.1.2 }, ⟨true, r.1.1, r.2.out⟩) := by
  subst hr; exact if_pos h

theorem step_read_of_closed {buf : UserDst} {len : Nat} (h : k ∉ s.opens) :
    d.step s (.read k at? buf len) = (s, .badf) := if_neg h

theorem step_write_of_closed {buf : UserSrc} (h : k ∉ s.opens) :
    d.step s (.write k at? buf) = (s, .badf) := if_neg h

theorem step_close_of_closed (h : k ∉ s.opens) : d.step s (.close k) = (s, .badf) := if_neg h

/-- The call does not reach the driver. -/
def Refused (s : Sys σ) : Call → Prop
  | .opn k => k ∈ s.used
  | .close k | .read k _ _ _ | .write k _ _ => k ∉ s.opens

/-- What a call can come to: it is refused, or one of the driver's functions is run
on its variables. -/
inductive Outcome (d : Driver σ) (s : Sys σ) : Call → Sys σ × Event → Prop
  | refused {c : Call} (h : Refused s c) : Outcome d s c (s, .badf)
  | opn {k : Nat} {r : Int × CallSt σ} (h : k ∉ s.used) (hr : d.opn.run { dev := s.dev } = r)
      (h0 : r.1 = 0) : Outcome d s (.opn k)
        ({ dev := r.2.dev, opens := insert k s.opens, used := insert k s.used
           pos := Function.update s.pos k 0 }, ⟨true, r.1, r.2.out⟩)
  | notOpened {k : Nat} {r : Int × CallSt σ} (h : k ∉ s.used) (hr : d.opn.run { dev := s.dev } = r)
      (h0 : r.1 ≠ 0) : Outcome d s (.opn k)
        ({ s with dev := r.2.dev, used := insert k s.used }, ⟨true, r.1, r.2.out⟩)
  | close {k : Nat} {r : Int × CallSt σ} (h : k ∈ s.opens) (hr : d.release.run { dev := s.dev } = r) :
      Outcome d s (.close k)
        ({ s with dev := r.2.dev, opens := s.opens.erase k }, ⟨true, r.1, r.2.out⟩)
  | read {k : Nat} {at? : Option Int} {buf : UserDst} {len : Nat} {r : (Int × Int) × CallSt σ}
      (h : k ∈ s.opens) (hr : (d.read buf len (s.offset k at?)).run { dev := s.dev } = r) :
      Outcome d s (.read k at? buf len)
        ({ s with dev := r.2.dev, pos := s.newPos k at? r.1.1 r.1.2 }, ⟨true, r.1.1, r.2.out⟩)
  | write {k : Nat} {at? : Option Int} {buf : UserSrc} {r : (Int × Int) × CallSt σ}
      (h : k ∈ s.opens)
      (hr : (d.write buf buf.bytes.length (s.offset k at?)).run { dev := s.dev } = r) :
      Outcome d s (.write k at? buf)
        ({ s with dev := r.2.dev, pos := s.newPos k at? r.1.1 r.1.2 }, ⟨true, r.1.1, r.2.out⟩)

theorem step_outcome (d : Driver σ) (s : Sys σ) (c : Call) : Outcome d s c (d.step s c) := by
  cases c with
  | opn k =>
    by_cases hk : k ∈ s.used
    · rw [show d.step s (.opn k) = (s, .badf) from if_pos hk]
      exact .refused hk
    · simp only [step, if_neg hk]
      split
      · rename_i h0
        exact .opn hk rfl h0
      · rename_i h0
        exact .notOpened hk rfl h0
  | close k =>
    by_cases hk : k ∈ s.opens
    · rw [step_close hk]; exact .close hk rfl
    · rw [step_close_of_closed hk]; exact .refused hk
  | read k at? buf len =>
    by_cases hk : k ∈ s.opens
    · rw [step_read hk rfl]; exact .read hk rfl
    · rw [step_read_of_closed hk]; exact .refused hk
  | write k at? buf =>
    by_cases hk : k ∈ s.opens
    · rw [step_write hk rfl]; exact .write hk rfl
    · rw [step_write_of_closed hk]; exact .refused hk

end Driver

end SO
