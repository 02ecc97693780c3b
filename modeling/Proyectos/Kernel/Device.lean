import Proyectos.Framework.Buf
import Proyectos.Framework.Code
import Mathlib.Algebra.Ring.Int.Defs
import Mathlib.Algebra.Ring.Nat

/-!
# What a driver's code uses of the kernel

A driver's static variables are its two arrays (`kernel_buffer`,
`write_buffer`) and the others, `vars`. A call of one of its functions changes
them, and leaves behind an `Out`: the stores it made into `write_buffer`, the
lines it logged and the bytes it stored into the user's buffer.

The user's buffers come with what the copy routines find there: `missed` bytes
cannot be copied (none, if the buffer is valid), and a copy from user space
that misses some may have changed any of the bytes of its destination
(`dirty`). A copy of no bytes misses none.

Machine integers are numbers with the conversions written out: `sizeT` and
`loffT` to 64 bits, `int32` to `int`.
-/

namespace SO

/-- `#define BUFFER_SIZE 1024`, in every driver. -/
abbrev BUFFER_SIZE : Nat := 1024

instance neZero_BUFFER_SIZE : NeZero BUFFER_SIZE := ⟨Nat.succ_ne_zero 1023⟩

/-- `EFAULT`. -/
abbrev EFAULT : Int := 14

/-- `EBADF`. -/
abbrev EBADF : Int := 9

/-! ## Integers -/

/-- Conversion to `size_t`. -/
def sizeT (x : Int) : Nat := (x % 2 ^ 64).toNat

/-- Conversion to `loff_t`. -/
def loffT (x : Int) : Int := x.bmod (2 ^ 64)

/-- Conversion to `int`; the kernel's `int` arithmetic wraps. -/
def int32 (x : Int) : Int := x.bmod (2 ^ 32)

theorem sizeT_of_lt {x : Int} (h0 : 0 ≤ x) (h : x < 2 ^ 64) : (sizeT x : Int) = x := by
  rw [sizeT, Int.toNat_of_nonneg (Int.emod_nonneg _ (by decide)), Int.emod_eq_of_lt h0 h]

theorem loffT_of_lt {x : Int} (h0 : 0 ≤ x) (h : x < 2 ^ 63) : loffT x = x :=
  Int.bmod_eq_of_le (by omega) (by omega)

theorem int32_of_lt {x : Int} (h0 : 0 ≤ x) (h : x < 2 ^ 31) : int32 x = x :=
  Int.bmod_eq_of_le (by omega) (by omega)

/-- A count of the array's bytes is an `int`. -/
theorem int32_count {n : Nat} (h : n ≤ BUFFER_SIZE) : int32 (n : Int) = n := by
  simp only [BUFFER_SIZE] at h
  exact int32_of_lt (by omega) (by omega)

/-! ## The device and its calls -/

/-- A driver's static variables. -/
structure Dev (σ : Type) where
  vars : σ
  kernelBuffer : Buf BUFFER_SIZE
  writeBuffer : Buf BUFFER_SIZE

/-- The level a line is logged at. -/
inductive Level
  | kernInfo | kernErr | kernAlert | none
  deriving DecidableEq, Repr

/-- An argument of `printk`: `%d`, or `%s` with the string it prints (`none`:
the read runs past the end of the array). -/
inductive Arg
  | d (v : Int)
  | s (str : Option (List UInt8))
  deriving DecidableEq, Repr

/-- A line of the kernel's log. -/
structure Line where
  level : Level
  fmt : String
  args : List Arg
  deriving DecidableEq, Repr

/-- Every `%s` of the line finds its terminator. -/
def Line.Terminated (l : Line) : Prop := .s none ∉ l.args

instance (l : Line) : Decidable l.Terminated := inferInstanceAs (Decidable (_ ∉ _))

/-- What a call leaves behind besides the driver's variables. -/
structure Out where
  /-- The stores into `write_buffer`. -/
  stores : List Store := []
  log : List Line := []
  /-- The bytes stored into the user's buffer. -/
  user : List UInt8 := []

/-- The state a driver's function runs in. -/
structure CallSt (σ : Type) where
  dev : Dev σ
  out : Out := {}

/-- A user's buffer to read into. -/
structure UserDst where
  missed : Nat := 0

/-- A user's buffer to write from. -/
structure UserSrc where
  bytes : List UInt8
  missed : Nat := 0
  dirty : List (Option UInt8) := []

/-- What a copy of `n` bytes from `src` puts at each index of its destination. -/
def UserSrc.image (src : UserSrc) (n : Nat) (i : Nat) : Option UInt8 :=
  if min src.missed n = 0 then some (src.bytes.getD i 0) else src.dirty.getD i none

/-- `write_buffer` after a copy of `n` bytes from `src` to `off`. -/
def Buf.copied (b : Buf BUFFER_SIZE) (src : UserSrc) (n : Nat) (off : Int) : Buf BUFFER_SIZE :=
  b.stores (copyTo off n (src.image n))

theorem Buf.get_copied (b : Buf BUFFER_SIZE) (src : UserSrc) (n : Nat) (off : Int)
    (j : Fin BUFFER_SIZE) : (b.copied src n off).get j =
      if off ≤ j ∧ (j : Int) < off + n then (src.image n ((j : Int) - off).toNat).getD (b.get j)
      else b.get j := get_stores_copyTo b off n (src.image n) j

/-- The first byte after some bytes have been copied to the array's start, and
then a terminator stored. -/
theorem Buf.first_copied (b : Buf BUFFER_SIZE) {src : UserSrc} {n : Nat} (hn : 0 < n)
    (hf : min src.missed n = 0) : ((b.copied src n 0).store (n, 0)).get 0 = src.bytes.getD 0 0 := by
  have h0 : (((0 : Fin BUFFER_SIZE) : Nat) : Int) = 0 := rfl
  rw [get_store, if_neg (by rw [h0]; omega), get_copied, if_pos (by rw [h0]; omega), UserSrc.image,
    if_pos hf]
  rfl

/-- A copy leaves the bytes before it. -/
theorem Buf.take_copied (b : Buf BUFFER_SIZE) (src : UserSrc) (n off : Nat) :
    (b.copied src n off).bytes.take off = b.bytes.take off := by
  apply List.ext_getElem
  · simp only [List.length_take, length_bytes]
  · intro i hi _
    simp only [List.length_take, length_bytes] at hi
    rw [List.getElem_take, List.getElem_take, getElem_bytes, getElem_bytes, get_copied, if_neg]
    simp only
    omega

/-- A copy that misses nothing puts the source's first bytes after them. -/
theorem Buf.take_copied_ok (b : Buf BUFFER_SIZE) {src : UserSrc} {n off : Nat}
    (hf : min src.missed n = 0) (hn : n ≤ src.bytes.length) (h : off + n ≤ BUFFER_SIZE) :
    (b.copied src n off).bytes.take (off + n) = b.bytes.take off ++ src.bytes.take n := by
  rw [List.take_add, take_copied]
  refine congrArg _ (List.ext_getElem ?_ ?_)
  · simp only [List.length_take, List.length_drop, length_bytes]
    omega
  · intro i hi _
    simp only [List.length_take, List.length_drop, length_bytes] at hi
    have hk : (((off + i : Nat) : Int) - off).toNat = i := by omega
    have hg : (src.image n i).getD 0 = src.bytes[i] := by
      rw [UserSrc.image, if_pos hf, Option.getD_some, List.getD_eq_getElem?_getD,
        List.getElem?_eq_getElem (by omega), Option.getD_some]
    rw [List.getElem_take, List.getElem_take, List.getElem_drop, getElem_bytes, get_copied, if_pos]
    · simp only [hk, ← hg, UserSrc.image, if_pos hf, Option.getD_some]
    · simp only
      omega

/-- The string in the array, after bytes have been copied to its start and then a
terminator stored. -/
theorem Buf.cstr_copied (b : Buf BUFFER_SIZE) {src : UserSrc} {n : Nat} (hf : min src.missed n = 0)
    (hn : n ≤ src.bytes.length) (h : n < BUFFER_SIZE) :
    ((b.copied src n 0).store (n, 0)).cstr = some ((src.bytes.take n).takeWhile (· ≠ 0)) := by
  have h0 : ((b.copied src n 0).store (n, 0)).get ⟨n, h⟩ = 0 := by rw [get_store, if_pos rfl]
  have ht := b.take_copied_ok hf hn (show 0 + n ≤ BUFFER_SIZE by omega)
  rw [Nat.zero_add, List.take_zero, List.nil_append] at ht
  rw [cstr_of_take h0, take_store, ← ht]
  rfl

/-- The bytes of a string literal. -/
def utf8 (s : String) : List UInt8 := s.toUTF8.data.toList

section Code

variable {σ : Type}

def vars : Code (CallSt σ) σ := ⟨fun s => (s.dev.vars, s)⟩

def setVars (f : σ → σ) : Code (CallSt σ) Unit :=
  ⟨fun s => ((), { s with dev := { s.dev with vars := f s.dev.vars } })⟩

def kernelBuffer : Code (CallSt σ) (Buf BUFFER_SIZE) := ⟨fun s => (s.dev.kernelBuffer, s)⟩

def writeBuffer : Code (CallSt σ) (Buf BUFFER_SIZE) := ⟨fun s => (s.dev.writeBuffer, s)⟩

/-- Stores into `write_buffer`. -/
def storeAll (ws : List Store) : Code (CallSt σ) Unit :=
  ⟨fun s => ((),
    { dev := { s.dev with writeBuffer := s.dev.writeBuffer.stores ws }
      out := { s.out with stores := s.out.stores ++ ws } })⟩

/-- `write_buffer[i] = v`. -/
def storeByte (i : Int) (v : UInt8) : Code (CallSt σ) Unit := storeAll [(i, v)]

def printk (level : Level) (fmt : String) (args : List Arg := []) : Code (CallSt σ) Unit :=
  ⟨fun s => ((), { s with out := { s.out with log := s.out.log ++ [⟨level, fmt, args⟩] } })⟩

/-- `copy_to_user(buf, src, n)`: the number of bytes it could not copy. -/
def copyToUser (buf : UserDst) (src : Buf BUFFER_SIZE) (n : Nat) : Code (CallSt σ) Nat :=
  ⟨fun s => (min buf.missed n,
    { s with out := { s.out with user := s.out.user ++ src.bytes.take (n - min buf.missed n) } })⟩

/-- `copy_from_user(write_buffer + off, src, n)`: the number of bytes it could
not copy. -/
def copyFromUser (off : Int) (src : UserSrc) (n : Nat) : Code (CallSt σ) Nat := do
  storeAll (Buf.copyTo off n (src.image n))
  return min src.missed n

/-! ### Running it -/

variable (s : CallSt σ)

@[simp] theorem run_vars : (vars : Code (CallSt σ) σ).run s = (s.dev.vars, s) := (rfl)

@[simp] theorem run_setVars (f : σ → σ) : (setVars f).run s =
    ((), { s with dev := { s.dev with vars := f s.dev.vars } }) := (rfl)

@[simp] theorem run_kernelBuffer :
    (kernelBuffer : Code (CallSt σ) _).run s = (s.dev.kernelBuffer, s) := (rfl)

@[simp] theorem run_writeBuffer :
    (writeBuffer : Code (CallSt σ) _).run s = (s.dev.writeBuffer, s) := (rfl)

@[simp] theorem run_storeByte (i : Int) (v : UInt8) : (storeByte i v).run s =
    ((), { dev := { s.dev with writeBuffer := s.dev.writeBuffer.store (i, v) }
           out := { s.out with stores := s.out.stores ++ [(i, v)] } }) := (rfl)

@[simp] theorem run_printk (level : Level) (fmt : String) (args : List Arg) :
    (printk level fmt args).run s =
      ((), { s with out := { s.out with log := s.out.log ++ [⟨level, fmt, args⟩] } }) := (rfl)

@[simp] theorem run_copyToUser (buf : UserDst) (src : Buf BUFFER_SIZE) (n : Nat) :
    (copyToUser buf src n).run s = (min buf.missed n,
      { s with out :=
        { s.out with user := s.out.user ++ src.bytes.take (n - min buf.missed n) } }) := (rfl)

@[simp] theorem run_copyFromUser (off : Int) (src : UserSrc) (n : Nat) :
    (copyFromUser off src n).run s = (min src.missed n,
      { dev := { s.dev with
          writeBuffer := s.dev.writeBuffer.copied src n off }
        out := { s.out with stores := s.out.stores ++ Buf.copyTo off n (src.image n) } }) := (rfl)

end Code

end SO
