import Proyectos.Framework.Run
import Proyectos.Framework.Stdio
import Proyectos.Framework.Decimal
import Proyectos.Kernel.Device

/-!
# Programs that list `/proc`

An `Entry` is what `readdir` gives of one entry of the directory, with the
process's files as they are found when its turn comes (a process that has gone
by then has left none).

A `Lister` is a program that opens `/proc`, prints a heading and gives each
entry one turn of its loop. Its variables `σ` are those that a turn leaves to
the next one. `Lister.step` makes it a machine of `Proyectos.Framework.Run`,
whose inputs are the entries, and `Lister.main` is the whole program.
-/

namespace SO

/-- An entry of `/proc`. -/
structure Entry where
  dName : List UInt8
  /-- `d_type == DT_DIR`. -/
  dir : Bool
  stat : File
  status : File
  cmdline : File
  deriving DecidableEq, Repr

/-- What `cout` is given: a text, or a string that `setw` pads. -/
inductive Item
  | text (s : String)
  | setw (width : Nat) (s : List UInt8)
  deriving DecidableEq, Repr

/-- What a program prints. -/
inductive Printed
  | printf (fmt : String) (args : List Arg)
  | perror (text : String)
  | cout (items : List Item)
  deriving DecidableEq, Repr

/-- The text of an argument. -/
def Arg.text : Arg → Option (List UInt8)
  | .d v => some (decimalInt v)
  | .s str => str

def Item.column : Item → Option (List UInt8)
  | .text _ => none
  | .setw _ s => some s

/-- The texts of a row, column by column (`none`: `%s` runs past its array). -/
def Printed.columns : Printed → List (Option (List UInt8))
  | .printf _ args => args.map Arg.text
  | .perror _ => []
  | .cout items => (items.filterMap Item.column).map some

/-- How a turn of the loop ends. -/
inductive Turn (σ : Type)
  /-- With the variables it leaves to the next turn. -/
  | next (vars : σ) (out : List Printed)
  /-- With a `return` from `main`. -/
  | ret (code : Int) (out : List Printed)
  /-- In undefined behaviour or an uncaught exception. -/
  | abort

/-- Where the program is. -/
inductive Phase (σ : Type)
  | loop (vars : σ)
  | returned (code : Int)
  | aborted

/-- A program that lists `/proc`. -/
structure Lister (σ : Type) where
  /-- `perror`'s text where `/proc` does not open, and `main`'s value. -/
  noDir : String × Int
  heading : List Printed
  turn : σ → Entry → Turn σ

/-- How a program ends. -/
structure Exit where
  code : Int
  /-- `closedir` has been called. -/
  closed : Bool
  out : List Printed
  deriving DecidableEq, Repr

namespace Lister

variable {σ : Type} (p : Lister σ)

/-- One entry. -/
def step : Phase σ → Entry → Phase σ × List Printed
  | .loop s, e =>
    match p.turn s e with
    | .next s' out => (.loop s', out)
    | .ret code out => (.returned code, out)
    | .abort => (.aborted, [])
  | ph, _ => (ph, [])

/-- Where the program is after the entries `es`. -/
abbrev after (s : σ) (es : List Entry) : Phase σ := Run.after p.step (.loop s) es

/-- The program, on the entries of `/proc` if it opens; nothing is said of one
that aborts. -/
def main (s : σ) : Option (List Entry) → Option Exit
  | none => some ⟨p.noDir.2, false, [.perror p.noDir.1]⟩
  | some es =>
    let out := p.heading ++ (Run.steps p.step (.loop s) es).flatMap (·.out)
    match p.after s es with
    | .loop _ => some ⟨0, true, out⟩
    | .returned code => some ⟨code, false, out⟩
    | .aborted => none

end Lister

end SO
