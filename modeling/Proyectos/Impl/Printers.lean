import Proyectos.Framework.Buf
import Proyectos.Framework.Stdio
import Proyectos.Kernel.Device

/-!
# The programs that print a file

`Equipo RAMdom/ExamenP1.cpp` and `Equipo Windon´ts/Windon´ts P1.cpp` read the
file with `fgetc`, into a `char`, which is signed; `examples/vfs/read_file.c` and
`Equipo-Macrohard/Examen1.c` read it with `fgets`. Nothing is said of a run that
gives `printf` or `fopen` a null pointer, or `%s` an array without a terminator.
-/

namespace SO.Impl

/-- What a program finds: the file at each path, and the text of the error where
there is none to open. -/
structure Files where
  file : List UInt8 → File
  strerror : List UInt8 → List UInt8

/-- This text, at every path. -/
def Files.everywhere (t : List UInt8) : Files := ⟨fun _ => .text t, fun _ => []⟩

/-- How a program or one of its functions ends: its value, and what it has
written to each of the two streams. -/
structure Printout where
  value : Int
  stdout : List UInt8
  stderr : List UInt8
  deriving DecidableEq, Repr

/-- A loop that prints a file: what each round reads, and what it prints of it.
The variables `σ` are those that a round leaves to the next one. -/
structure PrintLoop (σ α : Type) where
  read : Reader α
  body : σ → α → Option (σ × List UInt8)

namespace PrintLoop

variable {σ α : Type}

/-- What the rounds print. -/
def rounds (l : PrintLoop σ α) : σ → List α → Option (List UInt8)
  | _, [] => some []
  | s, a :: as =>
    match l.body s a with
    | none => none
    | some (s', out) => (l.rounds s' as).map (out ++ ·)

/-- What the loop prints of a file. -/
def print (l : PrintLoop σ α) (s : σ) (t : List UInt8) : Option (List UInt8) := l.rounds s (l.read.all t)

/-- The loop as it runs, a test of its condition and then its body, for `k` tests at
most; what it has printed, if it has ended by then. -/
def within (l : PrintLoop σ α) : Nat → σ → List UInt8 → Option (List UInt8)
  | 0, _, _ => none
  | k + 1, s, t =>
    match l.read.next t with
    | none => some []
    | some (a, r) =>
      match l.body s a with
      | none => none
      | some (s', out) => (l.within k s' r).map (out ++ ·)

/-- The loop ends, having printed `out`. -/
def Ends (l : PrintLoop σ α) (s : σ) (t out : List UInt8) : Prop :=
  ∃ k, ∀ m, k ≤ m → l.within m s t = some out

variable {l : PrintLoop σ α}

/-- One test for each item, and the one that fails. -/
theorem within_of_lt {k : Nat} {t : List UInt8} (h : (l.read.all t).length < k) (s : σ) :
    l.within k s t = l.print s t := by
  induction t using l.read.induct generalizing k s with
  | stop t hn =>
    obtain ⟨k, rfl⟩ : ∃ j, k = j + 1 := ⟨k - 1, by omega⟩
    rw [within, hn, print, Reader.all_of_none hn, rounds]
  | item t a r hn ih =>
    obtain ⟨k, rfl⟩ : ∃ j, k = j + 1 := ⟨k - 1, by omega⟩
    rw [Reader.all_of_some hn, List.length_cons] at h
    have hk : (l.read.all r).length < k := by omega
    simp only [within, hn, print, Reader.all_of_some hn, rounds]
    rcases l.body s a with _ | ⟨s', out⟩
    · rfl
    · exact congrArg (Option.map (out ++ ·)) (ih hk s')

/-- The loop ends: it makes progress in each round. -/
theorem ends_iff {s : σ} {t out : List UInt8} : l.Ends s t out ↔ l.print s t = some out := by
  constructor
  · rintro ⟨k, hk⟩
    have hl := hk (max k ((l.read.all t).length + 1)) (by omega)
    rwa [within_of_lt (by omega)] at hl
  · intro h
    refine ⟨(l.read.all t).length + 1, fun m hm => ?_⟩
    rw [within_of_lt (by omega), h]

/-- A loop whose every round prints the same of what it reads, whatever its
variables are. -/
theorem rounds_eq {f : α → List UInt8} {as : List α}
    (h : ∀ a ∈ as, ∀ s, ∃ s', l.body s a = some (s', f a)) (s : σ) :
    l.rounds s as = some (as.flatMap f) := by
  induction as generalizing s with
  | nil => rfl
  | cons a as ih =>
    obtain ⟨s', hs⟩ := h a List.mem_cons_self s
    have has : l.rounds s' as = some (as.flatMap f) :=
      ih (fun b hb => h b (List.mem_cons_of_mem a hb)) s'
    rw [rounds, hs, List.flatMap_cons]
    simp only [has, Option.map_some]

end PrintLoop

/-! ## Character by character -/

/-- `(c = fgetc(archivo)) != EOF`, where `c` is a `char`. -/
def fgetcChar (t : List UInt8) : Option (Int8 × List UInt8) :=
  let (v, r) := fgetc t
  let c := Int8.ofInt v
  if c.toInt ≠ EOF then some (c, r) else none

/-- `printf("%c", c)`: the `int` that `c` is passed as, converted to `unsigned char`. -/
def printfChar (c : Int8) : List UInt8 := [UInt8.ofInt c.toInt]

/-- The condition holds just of a byte that is not `EOF` as a `char`; the end of the
file is, `EOF` being a `char` as well. -/
theorem fgetcChar_eq_some {t r : List UInt8} {c : Int8} : fgetcChar t = some (c, r) ↔
    ∃ b : UInt8, t = b :: r ∧ c = Int8.ofInt b.toNat ∧ c.toInt ≠ EOF := by
  rcases t with _ | ⟨b, t⟩
  · have hn : fgetcChar [] = none := rfl
    simp [hn]
  · by_cases hc : (Int8.ofInt (b.toNat : Int)).toInt = EOF
    · have hn : fgetcChar (b :: t) = none := if_neg (not_not_intro hc)
      rw [hn]
      constructor
      · rintro ⟨⟩
      · rintro ⟨b', hb, rfl, hne⟩
        cases hb
        exact absurd hc hne
    · have hs : fgetcChar (b :: t) = some (Int8.ofInt b.toNat, t) := if_pos hc
      rw [hs, Option.some.injEq, Prod.mk.injEq]
      constructor
      · rintro ⟨rfl, rfl⟩
        exact ⟨b, rfl, rfl, hc⟩
      · rintro ⟨b', hb, rfl, -⟩
        cases hb
        exact ⟨rfl, rfl⟩

/-- The reader of the loops. -/
def chars : Reader Int8 where
  next := fgetcChar
  shrinks {t r c} h := by
    obtain ⟨b, rfl, -, -⟩ := fgetcChar_eq_some.mp h
    exact Nat.lt_succ_self r.length

/-- `while ((c = fgetc(archivo)) != EOF) printf("%c", c);` -/
def charLoop : PrintLoop Unit Int8 where
  read := chars
  body _ c := some ((), printfChar c)

/-- `main` of `ExamenP1.cpp`, on its arguments. -/
def examenP1 (fs : Files) : List (List UInt8) → Option Printout
  | _ :: ruta :: _ =>
    match (fs.file ruta).opened with
    | none => some ⟨1, utf8 "No se pudo abrir el archivo\n", []⟩
    | some t =>
      (charLoop.print () t).map fun out => ⟨0, utf8 "Contenido del archivo:\n\n" ++ out, []⟩
  | _ => some ⟨1,
      utf8 "Hay un error: Debe escribir el nombre del archivo en la linea de comando, intenta de nuevo\n" ++
        utf8 "Ejemplo: ./programa datos.txt\n", []⟩

/-- `main` of `Windon´ts P1.cpp`, on its arguments. -/
def windontsP1 (fs : Files) : List (List UInt8) → Option Printout
  | [_, ruta] =>
    match (fs.file ruta).opened with
    | none => some ⟨1, utf8 "No se pudo abrir el archivo.\n", []⟩
    | some t => (charLoop.print () t).map fun out => ⟨0, out, []⟩
  | programa :: _ => some ⟨1, utf8 "Uso: " ++ programa ++ utf8 " nombre_archivo\n", []⟩
  -- `argv[0]` is null
  | [] => none

/-! ## Line by line -/

/-- A loop on `fgets` into a buffer of `N` bytes that prints the buffer as a string. -/
def lineLoop (N n : Nat) (hn : 1 < n) : PrintLoop (Buf N) (List UInt8) where
  read := fgetsOf n hn
  body buffer linea :=
    let buffer := buffer.putStr linea
    buffer.cstr.map fun s => (buffer, s)

/-- `while (fgets(buffer, 100, fptr)) printf("%s", buffer);` -/
def readFileLoop : PrintLoop (Buf 256) (List UInt8) := lineLoop 256 100 (by omega)

/-- `read_file`; `buffer` is not initialised. -/
def readFile (buffer : Buf 256) (fs : Files) (myfile : List UInt8) : Option Printout :=
  match (fs.file myfile).opened with
  | none => some ⟨0, utf8 "Error opening file: " ++ myfile ++ utf8 "\n", []⟩
  | some t => (readFileLoop.print buffer t).map fun out => ⟨1, out, []⟩

/-- `main` of `read_file.c`, on its arguments. -/
def readFileMain (buffer : Buf 256) (fs : Files) : List (List UInt8) → Option Printout
  | _ :: myfile :: _ =>
    (readFile buffer fs myfile).map fun p => { p with value := if p.value = 0 then 1 else 0 }
  -- `argc < 1` lets the program's name alone through, and `read_file` is given null; with no
  -- arguments at all `argv[0]` is null
  | _ => none

/-- `while (fgets(linea, sizeof(linea), archivo) != NULL) fputs(linea, stdout);` -/
def mostrarArchivoLoop : PrintLoop (Buf 512) (List UInt8) := lineLoop 512 512 (by omega)

/-- `perror(s)`, with the text of the error. -/
def perror (s msg : List UInt8) : List UInt8 :=
  (if s = [] then [] else s ++ utf8 ": ") ++ msg ++ utf8 "\n"

/-- `mostrar_archivo`; `linea` is not initialised. -/
def mostrarArchivo (linea : Buf 512) (fs : Files) (ruta : List UInt8) : Option Printout :=
  match (fs.file ruta).opened with
  | none => some ⟨0, [], perror ruta (fs.strerror ruta)⟩
  | some t => (mostrarArchivoLoop.print linea t).map fun out => ⟨1, out, []⟩

/-- `mostrar_uso`. -/
def mostrarUso (programa : List UInt8) : List UInt8 :=
  utf8 "Uso: " ++ programa ++ utf8 " <archivo>\n"

def EXIT_SUCCESS : Int := 0

def EXIT_FAILURE : Int := 1

/-- `main` of `Examen1.c`, on its arguments. -/
def examen1 (linea : Buf 512) (fs : Files) : List (List UInt8) → Option Printout
  | [_, ruta] =>
    (mostrarArchivo linea fs ruta).map fun p =>
      { p with value := if p.value = 0 then EXIT_FAILURE else EXIT_SUCCESS }
  | programa :: _ => some ⟨EXIT_FAILURE, [], mostrarUso programa⟩
  -- `argv[0]` is null
  | [] => none

end SO.Impl
