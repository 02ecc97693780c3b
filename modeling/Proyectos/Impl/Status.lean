import Proyectos.Framework.Scanf
import Proyectos.Kernel.Procfs

/-!
# The listers that read `status`

`Equipo Windon´ts/procesos.c`, which reads the lines with `fgets` and `sscanf`,
and `Equipo-Macrohard/Examen2.cpp`, which reads them with `getline` and tells a
kernel thread by its empty `cmdline`. No variable of either outlives a turn.
-/

namespace SO.Impl

/-- `strncmp(t, s, strlen(s)) == 0`, and `t.find(s) == 0`. -/
def starts (s : String) (t : List UInt8) : Bool := (utf8 s).isPrefixOf t

theorem starts_iff {s : String} {t : List UInt8} : starts s t ↔ utf8 s <+: t :=
  List.isPrefixOf_iff_prefix

/-- The one line that starts with a key. -/
theorem eq_of_starts {s : String} {x l : List UInt8} {ls : List (List UInt8)}
    (h : ls.filter (starts s) = [x]) (hl : l ∈ ls) (hs : starts s l) : l = x := by
  have hm : l ∈ ls.filter (starts s) := List.mem_filter.mpr ⟨hl, hs⟩
  rwa [h, List.mem_singleton] at hm

/-! ## `procesos.c` -/

namespace Procesos

/-- `*str` is a string of digits. -/
def esNumero (str : List UInt8) : Bool := str.all isdigit

/-- What a turn reads of the file. -/
structure Vars where
  pid : Int := 0
  ppid : Int := 0
  nombre : Buf 100 := .ofBytes []

/-- `"Name: %s"`. -/
def nameFormat : List (Directive Vars) :=
  literal (utf8 "Name:") ++ [.space, .str 100 fun w v => { v with nombre := v.nombre.putStr w }]

/-- `"Pid: %d"`. -/
def pidFormat : List (Directive Vars) :=
  literal (utf8 "Pid:") ++ [.space, .int .d fun n v => { v with pid := n }]

/-- `"PPid: %d"`. -/
def ppidFormat : List (Directive Vars) :=
  literal (utf8 "PPid:") ++ [.space, .int .d fun n v => { v with ppid := n }]

/-- `if (strncmp(linea, key, …) == 0) sscanf(linea, format, …);` -/
def scanLine (key : String) (format : List (Directive Vars)) (linea : List UInt8) (v : Vars) :
    Option Vars :=
  if starts key linea then (sscanf linea format v).map Prod.snd else some v

/-- The body of the loop over the lines. -/
def leerLinea (v : Vars) (buffer : List UInt8) : Option Vars := do
  let linea := cstring buffer
  let v ← scanLine "Name:" nameFormat linea v
  let v ← scanLine "Pid:" pidFormat linea v
  scanLine "PPid:" ppidFormat linea v

/-- `fgets` into `linea`, which has room for 256 bytes. -/
def fgetsLinea : Reader (List UInt8) := fgetsOf 256 (by omega)

/-- The loop over the lines. -/
def leer (t : List UInt8) : Option Vars := (fgetsLinea.all t).foldlM leerLinea {}

/-- `tipo`. -/
def tipo (v : Vars) : List UInt8 :=
  if v.ppid = 2 ∨ v.pid = 2 then utf8 "Kernel" else utf8 "Usuario"

def row (v : Vars) : Printed :=
  .printf "%-8d %-8d %-20s %-10s\n" [.d v.pid, .d v.ppid, .s v.nombre.cstr, .s (some (tipo v))]

end Procesos

open Procesos in
/-- `Equipo Windon´ts/procesos.c`. -/
def procesos : Lister Unit where
  noDir := ("No se pudo abrir /proc", 1)
  heading := [.printf "%-8s %-8s %-20s %-10s\n"
    (["PID", "PPID", "Nombre", "Tipo"].map fun s => .s (some (utf8 s)))]
  turn _ e :=
    if esNumero e.dName then
      -- `sprintf` of the path, into 256 bytes
      if (utf8 "/proc/" ++ e.dName ++ utf8 "/status").length < 256 then
        match e.status.opened with
        | none => .next () []
        | some t =>
          match leer t with
          | none => .abort
          | some v => .next () [row v]
      else .abort
    else .next () []

/-! ## `Examen2.cpp` -/

namespace Examen2

def RESET : String := "\x1b[0m"
def BOLD : String := "\x1b[1m"
def BLUE : String := "\x1b[34m"
def GREEN : String := "\x1b[32m"
def YELLOW : String := "\x1b[33m"
def CYAN : String := "\x1b[36m"

def esNumero (str : List UInt8) : Bool := str.all isdigit

/-- `cmdline` opens, and not one byte can be read from it. -/
def esKernelProceso (cmdline : File) : Bool :=
  match cmdline.opened with
  | none => false
  | some t => t.isEmpty

/-- A blank or a tab. -/
def blank (c : UInt8) : Bool := c == ' '.toUInt8 || c == '\t'.toUInt8

/-- `substr(6)`, without the blanks at its start unless there is nothing else;
`substr` throws on a shorter line. -/
def campo (linea : List UInt8) : Option (List UInt8) :=
  if linea.length < 6 then none
  else
    let s := linea.drop 6
    -- `find_first_not_of(" \t")` finds nothing in a blank string
    some (if s.dropWhile blank = [] then s else s.dropWhile blank)

/-- `nombre` and `ppid`. -/
structure Vars where
  nombre : List UInt8 := []
  ppid : List UInt8 := []
  deriving DecidableEq, Repr

/-- The body of the loop over the lines. -/
def leerLinea (v : Vars) (linea : List UInt8) : Option Vars :=
  if starts "Name:" linea then (campo linea).map fun s => { v with nombre := s }
  else if starts "PPid:" linea then (campo linea).map fun s => { v with ppid := s }
  else some v

/-- The loop over the lines, which ends as soon as both strings have been found. -/
def leer : Vars → List (List UInt8) → Option Vars
  | v, [] => some v
  | v, linea :: ls =>
    match leerLinea v linea with
    | none => none
    | some v => if v.nombre ≠ [] ∧ v.ppid ≠ [] then some v else leer v ls

def row (pid : List UInt8) (v : Vars) (esKernel : Bool) : Printed :=
  .cout [.text (BOLD ++ BLUE ++ " ->  " ++ RESET), .setw 10 pid, .setw 10 v.ppid,
    .text (if esKernel then YELLOW else GREEN),
    .setw 15 (utf8 (if esKernel then "[Kernel]" else "[Usuario]")), .text RESET,
    .setw 30 v.nombre, .text "\n"]

end Examen2

open Examen2 in
/-- `Equipo-Macrohard/Examen2.cpp`. -/
def examen2 : Lister Unit where
  noDir := ("Error de E/S al intentar acceder a procfs", 1)
  heading := [.cout [.text (BOLD ++ CYAN),
    .text "========================================================================\n",
    .setw 5 [], .setw 10 (utf8 "PID"), .setw 10 (utf8 "PPID"), .setw 15 (utf8 "ORIGEN"),
    .setw 30 (utf8 "NOMBRE DEL PROCESO"),
    .text "\n========================================================================",
    .text RESET, .text "\n"]]
  turn _ e :=
    if e.dir && esNumero e.dName then
      match e.status.opened with
      | none => .next () []
      | some t =>
        match leer {} (lines.all t) with
        | none => .abort
        | some v => .next () [row e.dName v (esKernelProceso e.cmdline)]
    else .next () []

end SO.Impl
