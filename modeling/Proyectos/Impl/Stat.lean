import Proyectos.Framework.Scanf
import Proyectos.Kernel.Procfs
import Mathlib.Logic.Function.Basic

/-!
# The listers that read `stat`

`get_proc_info` and `struct proc_stat` (`Equipo RAMdom/ExamenP2.c` with
`proc.h`, and the same function in `examples/proc/proc.c`), and the two
programs. In both, `main` has one `struct proc_stat status`, which is not
initialised and which every entry's turn reads its file into.
-/

namespace SO.Impl.Stat

/-- The members of `struct proc_stat` that hold a number. -/
inductive Field
  | pid | ppid | pgrp | session | ttyNr | tpgid | flags
  | minflt | cminflt | majflt | cmajflt | utime | stime
  | cutime | cstime | priority | nice | numThreads | itrealvalue
  | starttime | vsize | rss
  | rsslim | startcode | endcode | startstack | kstkesp | kstkeip | signal | blocked | sigignore
  | sigcatch | wchan | nswap | cnswap
  | exitSignal | processor | rtPriority | policy
  | delayacctBlkioTicks | guestTime | cguestTime
  | startData | endData | startBrk | argStart | argEnd | envStart | envEnd
  | exitCode
  deriving DecidableEq, Repr

/-- The member's type, in `proc.h`. -/
def Field.type : Field → CType
  | pid | ppid | pgrp | session | ttyNr | tpgid => .int
  | flags => .uint
  | minflt | cminflt | majflt | cmajflt | utime | stime => .ulong
  | cutime | cstime | priority | nice | numThreads | itrealvalue => .long
  | starttime => .ullong
  | vsize => .ulong
  | rss => .long
  | rsslim | startcode | endcode | startstack | kstkesp | kstkeip | signal | blocked | sigignore
  | sigcatch | wchan | nswap | cnswap => .ulong
  | exitSignal | processor => .int
  | rtPriority | policy => .uint
  | delayacctBlkioTicks => .ullong
  | guestTime => .ulong
  | cguestTime => .long
  | startData | endData | startBrk | argStart | argEnd | envStart | envEnd => .ulong
  | exitCode => .int

/-- The size of `comm`. -/
abbrev COMM_SIZE : Nat := 256

/-- `struct proc_stat`. -/
structure ProcStat where
  num : Field → Int
  comm : Buf COMM_SIZE
  state : UInt8

namespace ProcStat

def put (f : Field) (v : Int) (s : ProcStat) : ProcStat :=
  { s with num := Function.update s.num f v }

def putComm (w : List UInt8) (s : ProcStat) : ProcStat := { s with comm := s.comm.putStr w }

def putState (c : UInt8) (s : ProcStat) : ProcStat := { s with state := c }

section

variable (s : ProcStat) (f g : Field) (v : Int) (w : List UInt8) (c : UInt8)

@[simp] theorem num_put_self : (put f v s).num f = v := by simp [put]

theorem num_put_of_ne {f g : Field} (h : f ≠ g) : (put f v s).num g = s.num g := by
  simp [put, h.symm]

@[simp] theorem comm_put : (put f v s).comm = s.comm := rfl

@[simp] theorem state_put : (put f v s).state = s.state := rfl

@[simp] theorem num_putComm : (putComm w s).num = s.num := rfl

@[simp] theorem comm_putComm : (putComm w s).comm = s.comm.putStr w := rfl

@[simp] theorem state_putComm : (putComm w s).state = s.state := rfl

@[simp] theorem num_putState : (putState c s).num = s.num := rfl

@[simp] theorem comm_putState : (putState c s).comm = s.comm := rfl

@[simp] theorem state_putState : (putState c s).state = c := rfl

end

end ProcStat

open ProcStat

/-- The conversions after `%c`, in the format's order, and what they store to. -/
def numbers : List (Spec × Field) :=
  [(.d, .ppid), (.d, .pgrp), (.d, .session), (.d, .ttyNr), (.d, .tpgid), (.u, .flags),
    (.lu, .minflt), (.lu, .cminflt), (.lu, .majflt), (.lu, .cmajflt), (.lu, .utime), (.lu, .stime),
    (.ld, .cutime), (.ld, .cstime), (.ld, .priority), (.ld, .nice), (.ld, .numThreads),
    (.ld, .itrealvalue), (.llu, .starttime), (.lu, .vsize), (.ld, .rss),
    (.lu, .rsslim), (.lu, .startcode), (.lu, .endcode), (.lu, .startstack), (.lu, .kstkesp),
    (.lu, .kstkeip), (.lu, .signal), (.lu, .blocked), (.lu, .sigignore), (.lu, .sigcatch),
    (.lu, .wchan), (.lu, .nswap), (.lu, .cnswap),
    (.d, .exitSignal), (.d, .processor), (.u, .rtPriority), (.u, .policy),
    (.llu, .delayacctBlkioTicks), (.lu, .guestTime), (.ld, .cguestTime),
    (.lu, .startData), (.lu, .endData), (.lu, .startBrk), (.lu, .argStart), (.lu, .argEnd),
    (.lu, .envStart), (.lu, .envEnd), (.d, .exitCode)]

/-- A conversion of `numbers`, and the blank before it. -/
def conversion (n : Spec × Field) : List (Directive ProcStat) := [.space, .int n.1 (put n.2)]

/-- `"%d (%[^)]) %c"`, before the other numbers. -/
def headFormat : List (Directive ProcStat) :=
  [.int .d (put .pid), .space, .lit '('.toUInt8, .upto ')'.toUInt8 COMM_SIZE putComm,
    .lit ')'.toUInt8, .space, .chr putState]

/-- `sscanf`'s format. -/
def format : List (Directive ProcStat) := headFormat ++ numbers.flatMap conversion

/-- `stat_filename`: what `snprintf` leaves of the path in 128 bytes. -/
def statFilename (pid : List UInt8) : List UInt8 :=
  (utf8 "/proc/" ++ pid ++ utf8 "/stat").take 127

/-- What comes of `get_proc_info`: the value returned, `*stat_out` and what it
prints. -/
structure Info where
  ret : Int
  stat : ProcStat
  out : List Printed := []

/-- `get_proc_info(&s, pid)`, where the open of `stat_filename` finds `stat`. -/
def getProcInfo (s : ProcStat) (pid : List UInt8) (stat : File) : Option Info :=
  match stat.opened with
  | none =>
    some ⟨-1, s, [.printf "No pude abrir el archivo de proceso: %s" [.s (some (statFilename pid))]]⟩
  | some t =>
    match fgets 512 t with
    | none => some ⟨-1, s, [.perror "Error al leer el archivo"]⟩
    | some (buffer, _) => (sscanf (cstring buffer) format s).map fun r => { ret := r.1, stat := r.2 }

/-- `isdigit(entrada->d_name[0])`. -/
def numeric (e : Entry) : Bool := isdigit (e.dName.headD 0)

/-- `tipo`. -/
def tipo (s : ProcStat) : List UInt8 :=
  if s.num .pid = 2 ∨ s.num .ppid = 2 then utf8 "Kernel" else utf8 "Usuario"

/-- `Equipo RAMdom/ExamenP2.c`. -/
def examenP2 : Lister ProcStat where
  noDir := ("Error al abrir el directorio", 1)
  heading :=
    [.printf "%-8s %-8s %-25s %-10s\n"
      (["PID", "PPID", "NOMBRE", "TIPO"].map fun s => .s (some (utf8 s))),
     .printf "%-8s %-8s %-25s %-10s\n"
      (["---", "----", "------", "----"].map fun s => .s (some (utf8 s)))]
  turn s e :=
    if numeric e then
      match getProcInfo s e.dName e.stat with
      | none => .abort
      | some ⟨ret, s, out⟩ =>
        if ret = -1 then .next s out
        else .next s (out ++ [.printf "%-8d %-8d %-25s %-10s\n"
          [.d (s.num .pid), .d (s.num .ppid), .s s.comm.cstr, .s (some (tipo s))]])
    else .next s []

/-- `examples/proc/proc.c`. -/
def proc : Lister ProcStat where
  noDir := ("Error al abrir el directorio", 1)
  heading := []
  turn s e :=
    if numeric e then
      match getProcInfo s e.dName e.stat with
      | none => .abort
      | some ⟨ret, s, out⟩ =>
        if ret = -1 then
          .ret 1 (out ++ [.printf "Error leyendo archivo de proceso: /proc/%s/stat\n"
            [.s (some e.dName)]])
        else .next s (out ++ [.printf "PID: %s, PPID: %d nombre: %s\n"
          [.s (some e.dName), .d (s.num .ppid), .s s.comm.cstr]])
    else .next s []

end SO.Impl.Stat
