import Proyectos.Impl.Stat
import Proyectos.Impl.Status

/-!
# What the kernel writes to `/proc`

A `Record` is what the kernel has to say in a line of `stat`: a value for each
member of `struct proc_stat`, in that member's range. `Record.line` is the
line, `Record.Agrees` what it is for a member to hold the record's value.

A `Process` is what the three listers print of a process, with its files. The
numbers come first in `stat`, and `status` has one line for each of the three
(in any order, and among any others).
-/

namespace SO.Spec.Procfs

open SO.Impl SO.Impl.Stat

/-! ## `stat` -/

/-- The members of `struct proc_stat` after `state`, in its order. -/
def fields : List Field :=
  [.ppid, .pgrp, .session, .ttyNr, .tpgid, .flags, .minflt, .cminflt, .majflt, .cmajflt, .utime,
    .stime, .cutime, .cstime, .priority, .nice, .numThreads, .itrealvalue, .starttime, .vsize, .rss,
    .rsslim, .startcode, .endcode, .startstack, .kstkesp, .kstkeip, .signal, .blocked, .sigignore,
    .sigcatch, .wchan, .nswap, .cnswap, .exitSignal, .processor, .rtPriority, .policy,
    .delayacctBlkioTicks, .guestTime, .cguestTime, .startData, .endData, .startBrk, .argStart,
    .argEnd, .envStart, .envEnd, .exitCode]

/-- A member of `struct proc_stat`. -/
inductive Member
  | num (f : Field)
  | comm
  | state
  deriving DecidableEq, Repr

/-- The 52 members, in the struct's order. -/
def members : List Member := [.num .pid, .comm, .state] ++ fields.map .num

/-- What one `fgets` with room for 512 bytes leaves of a text, up to its first
NUL: the first 511 bytes of its first line. -/
def firstRead (t : List UInt8) : List UInt8 := cstring ((firstLine t).take 511)

/-- The text starts as a line of `stat` does: the number `u`, the name `a` up to
the first `)` (it fits `comm`), a character and the number `v`. -/
def Legible (t : List UInt8) (u : Int) (a : List UInt8) (v : Int) : Prop :=
  ∃ w w' c t₃ t₄, Number t u (w ++ '('.toUInt8 :: (a ++ ')'.toUInt8 :: (w' ++ c :: t₃))) ∧
    (∀ b ∈ w, isspace b) ∧ a ≠ [] ∧ ')'.toUInt8 ∉ a ∧ a.length < COMM_SIZE ∧
    (∀ b ∈ w', isspace b) ∧ isspace c = false ∧ Number t₃ v t₄

section

variable {t a : List UInt8} {u v : Int}

theorem Legible.name_length (h : Legible t u a v) : a.length < COMM_SIZE := by
  obtain ⟨w, w', c, t₃, t₄, -, -, -, -, hl, -⟩ := h
  exact hl

/-- The name is part of the text. -/
theorem Legible.name_subset (h : Legible t u a v) : a ⊆ t := by
  obtain ⟨w, w', c, t₃, t₄, ⟨b, sg, ds, rfl, -⟩, -⟩ := h
  intro x hx
  simp [hx]

end

/-- A character that text is made of, and that is not blank. -/
def Graphic (c : UInt8) : Prop := isspace c = false ∧ c ≠ 0

instance (c : UInt8) : Decidable (Graphic c) := inferInstanceAs (Decidable (_ ∧ _))

/-- The values a line of `stat` has. -/
structure Record where
  num : Field → Int
  state : UInt8
  name : List UInt8
  num_mem : ∀ f, f.type.lo ≤ num f ∧ num f ≤ f.type.hi
  state_graphic : Graphic state
  name_length : name.length < COMM_SIZE
  name_line : nl ∉ name
  name_noNul : 0 ∉ name

namespace Record

variable (r : Record)

/-- A number, and the blank before it. -/
def number (f : Field) : List UInt8 := ' '.toUInt8 :: decimalInt (r.num f)

/-- The line's text up to `state`: `pid (name) state`. -/
def head : List UInt8 :=
  decimalInt (r.num .pid) ++ utf8 " (" ++ r.name ++ utf8 ") " ++ [r.state]

/-- The line, without its newline. -/
def line : List UInt8 := r.head ++ fields.flatMap r.number

def file : File := .text (r.line ++ [nl])

/-- The member has the record's value. -/
def Agrees (s : ProcStat) : Member → Prop
  | .num f => s.num f = r.num f
  | .comm => s.comm.cstr = some r.name
  | .state => s.state = r.state

/-- `get_proc_info` reads the record back from its file. -/
def Inverts (s : ProcStat) (pid : List UInt8) : Prop :=
  ∃ i, getProcInfo s pid r.file = some i ∧ i.ret = 52 ∧ ∀ m, r.Agrees i.stat m

/-- The members that `get_proc_info` counts have the record's values. -/
def CountTrusted (s : ProcStat) (pid : List UInt8) : Prop :=
  ∃ i, getProcInfo s pid r.file = some i ∧
    (0 ≤ i.ret → ∀ m ∈ members.take i.ret.toNat, r.Agrees i.stat m)

end Record

/-! ## Rows -/

/-- A row of a table. -/
structure Row where
  pid : Option (List UInt8)
  ppid : Option (List UInt8)
  name : Option (List UInt8)
  kind : Option (List UInt8)
  deriving DecidableEq

/-- The row a program prints; `Examen2.cpp` has the kind before the name. -/
def row? (p : Printed) : Option Row :=
  match p, p.columns with
  | .printf _ _, [pid, ppid, name, kind] => some ⟨pid, ppid, name, kind⟩
  | .cout _, [pid, ppid, kind, name] => some ⟨pid, ppid, name, kind⟩
  | _, _ => none

/-- The rows that a turn prints. -/
def table {σ : Type} : Turn σ → List Row
  | .next _ out | .ret _ out => out.filterMap row?
  | .abort => []

/-- The turn prints one row, of this kind. -/
def Labels {σ : Type} (t : Turn σ) (kind : String) : Prop := (table t).map Row.kind = [some (utf8 kind)]

/-- What a turn prints, but for each row's first column, which is the PID. -/
def rows {σ : Type} : Turn σ → Option (List (List (Option (List UInt8))))
  | .next _ out | .ret _ out => some (out.map fun p => p.columns.tail)
  | .abort => none

/-- What the program prints for a numeric entry is the same whatever `status`
holds at first and whatever the files of the entries before it hold. -/
def RowsOwn (p : Lister ProcStat) (es : List Entry) : Prop :=
  ∀ l e r, es = l ++ e :: r → numeric e → ∃ row, ∀ s l' s', l'.map Entry.dName = l.map Entry.dName →
    p.after s l' = .loop s' → rows (p.turn s' e) = some row

/-- The file has nothing to read in its first line, or the line starts as one of
`stat` does. -/
def Determined (f : File) : Prop :=
  ∀ t, f.opened = some t → (∀ b ∈ firstRead t, isspace b) ∨ ∃ u a v, Legible (firstRead t) u a v

/-- The name of the process fills `comm` before its `)` comes. -/
def Overlong (t : List UInt8) : Prop :=
  ∃ u w r, Number t u (w ++ '('.toUInt8 :: r) ∧ (∀ b ∈ w, isspace b) ∧
    COMM_SIZE ≤ (r.takeWhile (· ≠ ')'.toUInt8)).length

/-- The file opens and has a line to be read, with a name that fits. -/
def Readable (f : File) : Prop :=
  ∃ t, f.opened = some t ∧ ¬ (∀ b ∈ firstRead t, isspace b) ∧ ¬ Overlong (firstRead t)

/-- The entry's process is still there: its `stat` opens, and something can be
read from it. -/
def present (e : Entry) : Bool :=
  match e.stat.opened with
  | none | some [] => false
  | some _ => true

/-- The processes of a directory that are still there when their turns come. -/
def remaining (es : List Entry) : List Entry := es.filter fun e => numeric e && present e

/-- The PID in a row of `proc.c`. -/
def pid? : Printed → Option (List UInt8)
  | .printf fmt (.s pid :: _) => if fmt = "PID: %s, PPID: %d nombre: %s\n" then pid else none
  | _ => none

/-- `proc.c` prints one row for each process that is still there, in the order of
the directory, and closes it. -/
def ListsAll (s : ProcStat) (es : List Entry) : Prop :=
  ∃ x, proc.main s (some es) = some x ∧ x.closed = true ∧
    x.out.filterMap pid? = (remaining es).map Entry.dName

/-- The PPID and the name in a row of `proc.c` or of `ExamenP2.c`. -/
def parentName? : Printed → Option (Option (List UInt8) × Option (List UInt8))
  | .printf fmt [_, ppid, name] =>
    if fmt = "PID: %s, PPID: %d nombre: %s\n" then some (ppid.text, name.text) else none
  | .printf fmt [_, ppid, name, _] =>
    if fmt = "%-8d %-8d %-25s %-10s\n" then some (ppid.text, name.text) else none
  | _ => none

/-- The entry is a process's, and its name is written past `comm`. -/
def Overruns (e : Entry) : Prop :=
  numeric e ∧ ∃ t, e.stat.opened = some t ∧ Overlong (firstRead t)

/-- No process that can be read comes after one that cannot. -/
def ReadableFirst (es : List Entry) : Prop :=
  (es.filter numeric).Pairwise fun e e' => Readable e'.stat → Readable e.stat

/-! ## Processes -/

/-- A process, as the kernel shows it in `/proc`. -/
structure Process where
  pid : Nat
  ppid : Nat
  name : List UInt8
  pid_lt : pid < 2 ^ 31
  ppid_lt : ppid < 2 ^ 31
  name_length : name.length < 100
  /-- The kernel writes these otherwise. -/
  name_plain : nl ∉ name ∧ '\\'.toUInt8 ∉ name ∧ 0 ∉ name
  state : UInt8
  state_graphic : Graphic state
  /-- What follows `ppid` in `stat`. -/
  rest : List UInt8
  rest_stops : Stops isdigit rest
  /-- The lines of `status`. -/
  status : List (List UInt8)
  status_lines : ∀ l ∈ status, nl ∉ l
  nameLine : status.filter (starts "Name:") = [utf8 "Name:\t" ++ name]
  pidLine : status.filter (starts "Pid:") = [utf8 "Pid:\t" ++ decimal pid]
  ppidLine : status.filter (starts "PPid:") = [utf8 "PPid:\t" ++ decimal ppid]
  /-- A line that takes `fgets` more than one call (a mask, a list of groups) is
  none of these further on either. -/
  status_pieces : ∀ l ∈ status, ∀ q ∈ (Procesos.fgetsLinea.all (l ++ [nl])).tail,
    ∀ key ∈ ["Name:", "Pid:", "PPid:"], starts key q = false
  cmdline : List UInt8
  /-- A kernel thread has no arguments. -/
  cmdline_kernel : pid = 2 ∨ ppid = 2 → cmdline = []

namespace Process

variable (p : Process)

/-- Kernel threads are process 2 and its children. -/
def Kernel : Prop := p.pid = 2 ∨ p.ppid = 2

/-- The text of `stat`: `pid (name) state ppid …`. -/
def stat : List UInt8 :=
  decimal p.pid ++ utf8 " (" ++ p.name ++ utf8 ") " ++ [p.state] ++ utf8 " " ++ decimal p.ppid ++ p.rest

/-- Its entry of `/proc`. -/
def entry : Entry where
  dName := decimal p.pid
  dir := true
  stat := .text p.stat
  status := .text (unlines p.status)
  cmdline := .text p.cmdline

/-- The turn prints one row, with the process's PID, PPID and name. -/
def ShownBy {σ : Type} (t : Turn σ) : Prop :=
  (table t).map (fun r => (r.pid, r.ppid, r.name)) =
    [(some (decimal p.pid), some (decimal p.ppid), some p.name)]

/-- The three programs show the process as it is, whatever `status` of the first
held when they come to it. -/
def Agree : Prop := ∀ s, p.ShownBy (examenP2.turn s p.entry) ∧ p.ShownBy (procesos.turn () p.entry) ∧
  p.ShownBy (examen2.turn () p.entry)

/-- `Examen2.cpp` takes the process for a kernel thread just when the others do. -/
def KindsAgree : Prop := ∀ s,
  (Labels (examen2.turn () p.entry) "[Kernel]" ↔ Labels (examenP2.turn s p.entry) "Kernel") ∧
  (Labels (examen2.turn () p.entry) "[Kernel]" ↔ Labels (procesos.turn () p.entry) "Kernel")

end Process

/-! ## The directory -/

/-- The processes of a directory, in its order: the other entries are of processes
that have gone, or have names that start with no digit. -/
inductive Directory : List Entry → List Process → Prop
  | nil : Directory [] []
  | process (p : Process) {es ps} (h : Directory es ps) : Directory (p.entry :: es) (p :: ps)
  | gone (n : Nat) (hn : n < 2 ^ 31) (dir : Bool) (cmdline : File) {es ps} (h : Directory es ps) :
    Directory (⟨decimal n, dir, .absent, .absent, cmdline⟩ :: es) ps
  | other (c : UInt8) (hc : isdigit c = false) (r : List UInt8) (dir : Bool)
    (stat status cmdline : File) {es ps} (h : Directory es ps) :
    Directory (⟨c :: r, dir, stat, status, cmdline⟩ :: es) ps

/-- The texts of a row, but for the kind. -/
def Row.shown (r : Row) : Option (List UInt8) × Option (List UInt8) × Option (List UInt8) :=
  (r.pid, r.ppid, r.name)

/-- What is shown in the rows. -/
def shown (out : List Printed) :
    List (Option (List UInt8) × Option (List UInt8) × Option (List UInt8)) :=
  (out.filterMap row?).map Row.shown

/-- What a row should show of the process. -/
def Process.texts (p : Process) :
    Option (List UInt8) × Option (List UInt8) × Option (List UInt8) :=
  (some (decimal p.pid), some (decimal p.ppid), some p.name)

/-- The program comes to the end of the directory, and prints below its heading one
row for each process, with its PID, PPID and name. -/
def Tabulates {σ : Type} (p : Lister σ) (s : σ) (es : List Entry) (ps : List Process) : Prop :=
  ∃ body, p.main s (some es) = some ⟨0, true, p.heading ++ body⟩ ∧ shown body = ps.map Process.texts

end SO.Spec.Procfs
