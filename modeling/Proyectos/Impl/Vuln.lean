import Proyectos.Framework.Slot
import Proyectos.Kernel.Device

/-!
# `vuln.c`

`examples/memory/x86` and `examples/memory/x86_64` have the same program, built
without a stack protector. The frame is the one of their tutorials: the saved
frame pointer and the return address, a word each, follow `buffer`, so that it is
68 and 72 bytes from its start to the return address. That layout is taken as
given. It is the compiler's to choose, and one may leave bytes between `buffer`
and the saved frame pointer, which a longer argument then changes without harm.

The stack is an array from `buffer` on to its end; a store past that is a
segmentation fault.
-/

namespace SO.Impl.Vuln

/-- `char buffer[64]`. -/
abbrev sizeofBuffer : Nat := 64

inductive Arch
  | x86
  | x86_64
  deriving DecidableEq, Repr

/-- The bytes of a word. -/
def Arch.word : Arch → Nat
  | x86 => 4
  | x86_64 => 8

section

variable {n : Nat}

/-- `strcpy`: `str` up to its terminator, and the terminator. -/
def strcpy (stack : Buf n) (str : List UInt8) : Option (Buf n) :=
  if (cstring str).length < n then some (stack.putStr (cstring str)) else none

variable (a : Arch)

/-- The frame pointer `vulnerable_function` restores. -/
def savedFp (stack : Buf n) : List UInt8 := stack.slot sizeofBuffer a.word

/-- The address it returns to. -/
def returnAddress (stack : Buf n) : List UInt8 := stack.slot (sizeofBuffer + a.word) a.word

/-- How the program ends. -/
inductive Ending
  | exit (code : Int) (stdout : List UInt8)
  /-- `vulnerable_function` returns to `ret` with the frame pointer `fp`, to a stack that has been
  written to. -/
  | astray (ret fp stdout : List UInt8)
  | segfault
  deriving DecidableEq, Repr

/-- `vulnerable_function`, up to its return. -/
def vulnerableFunction (stack : Buf n) (str : List UInt8) : Option (Buf n × List UInt8) :=
  (strcpy stack str).map fun stack => (stack, utf8 "Datos copiados exitosamente.\n")

/-- `main`, on its arguments; `stack` is what `vulnerable_function` finds there. In the
tutorials' layout all that follows `buffer` is in use, so the program ends as usual only
if it is as it was. -/
def main (stack : Buf n) : List (List UInt8) → Option Ending
  -- `argv[0]` is null
  | [] => none
  | [programa] => some (.exit 1 (utf8 "Uso: " ++ programa ++ utf8 " <texto>\n"))
  | _ :: texto :: _ =>
    match vulnerableFunction stack texto with
    | none => some .segfault
    | some (stack', out) =>
      if stack'.bytes.drop sizeofBuffer = stack.bytes.drop sizeofBuffer then some (.exit 0 out)
      else some (.astray (returnAddress a stack') (savedFp a stack') out)

end

end SO.Impl.Vuln
