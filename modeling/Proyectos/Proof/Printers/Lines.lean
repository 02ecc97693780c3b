import Proyectos.Impl.Printers
import Mathlib.Data.List.Basic
import Mathlib.Data.List.Flatten

/-!
# The printers that read lines

Put together, the pieces `fgets` cuts a file into are the file, and each fits into
its buffer with a terminator (`lineLoop_prints`). Of each piece a round prints the
C string at its start, so what is printed is a sublist of the file, and has no NUL
in it (`strings_sublist`, `nul_notMem_strings`). That makes it the file just if
the file has none either, wherever it is cut (`exact_strings`).
-/

namespace SO.Proof.Printers

open SO.Impl

/-! ## The loops -/

section

/-- The C strings at the start of the pieces a loop is handed, one after the other. -/
def strings (R : Reader (List UInt8)) (t : List UInt8) : List UInt8 := (R.all t).flatMap cstring

variable {N n : Nat} (hn : 1 < n)

/-- A round that reads a piece its buffer has room for prints the string at its
start, whatever was in the buffer. -/
theorem lineLoop_body {l : List UInt8} (hl : l.length < N) (buffer : Buf N) :
    (lineLoop N n hn).body buffer l = some (buffer.putStr l, cstring l) := by
  show ((buffer.putStr l).cstr.map fun s => (buffer.putStr l, s)) = _
  rw [Buf.cstr_putStr_cut buffer hl]
  rfl

theorem lineLoop_prints (hnN : n ≤ N) (buffer : Buf N) (t : List UInt8) :
    (lineLoop N n hn).print buffer t = some (strings (fgetsOf n hn) t) := by
  have hlen : ∀ l ∈ (fgetsOf n hn).all t, l.length < n :=
    (fgetsOf n hn).forall_mem_all (length_of_fgets hn) t
  refine PrintLoop.rounds_eq (fun l hl b => ⟨b.putStr l, ?_⟩) buffer
  exact lineLoop_body hn ((hlen l hl).trans_le hnN) b

theorem strings_sublist (t : List UInt8) : (strings (fgetsOf n hn) t).Sublist t := by
  have hs : (strings (fgetsOf n hn) t).Sublist (((fgetsOf n hn).all t).flatMap id) :=
    List.Sublist.flatMap_right _ fun l _ => (List.takeWhile_prefix _).sublist
  rwa [flatten_fgets] at hs

theorem nul_notMem_strings (t : List UInt8) : 0 ∉ strings (fgetsOf n hn) t := by
  intro h
  obtain ⟨l, -, hl⟩ := List.mem_flatMap.mp h
  exact nul_notMem_cstring l hl

/-- Without a NUL in the file, the strings are the pieces. -/
theorem strings_of_noNul {t : List UInt8} (h : 0 ∉ t) : strings (fgetsOf n hn) t = t := by
  have ht : ((fgetsOf n hn).all t).flatMap id = t := flatten_fgets t
  have hl : ∀ l ∈ (fgetsOf n hn).all t, cstring l = id l := by
    intro l hl
    refine cstring_of_noNul fun h0 => h ?_
    rw [← ht]
    exact List.mem_flatMap.mpr ⟨l, hl, h0⟩
  rw [strings, List.flatMap_congr hl, ht]

/-! ## Exactness -/

/-- What is printed of a file is the file just if there is no NUL in it, and
shorter if there is one. -/
structure Exact (t out : List UInt8) : Prop where
  eq_iff : out = t ↔ 0 ∉ t
  shorter : 0 ∈ t → out.length < t.length

theorem exact_strings (t : List UInt8) : Exact t (strings (fgetsOf n hn) t) := by
  have hi : strings (fgetsOf n hn) t = t ↔ 0 ∉ t := by
    constructor
    · intro h
      rw [← h]
      exact nul_notMem_strings hn t
    · exact strings_of_noNul hn
  refine ⟨hi, fun h0 => ?_⟩
  by_contra hlen
  have heq : strings (fgetsOf n hn) t = t := (strings_sublist hn t).eq_of_length_le (by omega)
  exact hi.mp heq h0

end

/-! ## The programs -/

/-- They are handed the same of a file just if no piece has more than 99 bytes. -/
theorem same_pieces_iff (t : List UInt8) : readFileLoop.read.all t = mostrarArchivoLoop.read.all t ↔
    ∀ l ∈ mostrarArchivoLoop.read.all t, l.length < 100 :=
  all_fgets_eq_iff (by omega) (by omega) (by omega) t

theorem readFile_exact (t : List UInt8) : Exact t (strings readFileLoop.read t) :=
  exact_strings (by omega) t

theorem mostrarArchivo_exact (t : List UInt8) : Exact t (strings mostrarArchivoLoop.read t) :=
  exact_strings (by omega) t

theorem readFileLoop_prints (buffer : Buf 256) (t : List UInt8) :
    readFileLoop.print buffer t = some (strings readFileLoop.read t) :=
  lineLoop_prints (by omega) (by omega) buffer t

theorem mostrarArchivoLoop_prints (linea : Buf 512) (t : List UInt8) :
    mostrarArchivoLoop.print linea t = some (strings mostrarArchivoLoop.read t) :=
  lineLoop_prints (by omega) le_rfl linea t

section

variable (fs : Files) (buffer : Buf 256) (linea : Buf 512) {ruta t : List UInt8}
  (h : fs.file ruta = .text t)

include h

theorem readFile_prints :
    readFile buffer fs ruta = some ⟨1, strings readFileLoop.read t, []⟩ := by
  simp only [readFile, h, File.opened, readFileLoop_prints, Option.map_some]

theorem mostrarArchivo_prints :
    mostrarArchivo linea fs ruta = some ⟨1, strings mostrarArchivoLoop.read t, []⟩ := by
  simp only [mostrarArchivo, h, File.opened, mostrarArchivoLoop_prints, Option.map_some]

/-- On a file without a NUL the two programs end alike, having printed it. -/
theorem mains_of_noNul (h0 : 0 ∉ t) (programa programa' : List UInt8) :
    readFileMain buffer fs [programa, ruta] = some ⟨0, t, []⟩ ∧
      examen1 linea fs [programa', ruta] = some ⟨0, t, []⟩ := by
  have hr := (readFile_exact t).eq_iff.mpr h0
  have hm := (mostrarArchivo_exact t).eq_iff.mpr h0
  constructor
  · simp only [readFileMain, readFile_prints fs buffer h, Option.map_some, hr]
    rfl
  · simp only [examen1, mostrarArchivo_prints fs linea h, Option.map_some, hm]
    rfl

/-- Both loops end, having printed the file just if there is no NUL in it, and less
of it otherwise. So the two programs print the same of a file without a NUL,
although they cut it alike just if no piece has more than 99 bytes. -/
theorem line_printers_exact :
    (∃ out, readFileLoop.Ends buffer t out ∧ readFile buffer fs ruta = some ⟨1, out, []⟩ ∧
      Exact t out) ∧
    (∃ out, mostrarArchivoLoop.Ends linea t out ∧ mostrarArchivo linea fs ruta = some ⟨1, out, []⟩ ∧
      Exact t out) ∧
    (0 ∉ t → readFile buffer fs ruta = mostrarArchivo linea fs ruta ∧
      ∀ programa programa', readFileMain buffer fs [programa, ruta] =
        examen1 linea fs [programa', ruta]) ∧
    (readFileLoop.read.all t = mostrarArchivoLoop.read.all t ↔
      ∀ l ∈ mostrarArchivoLoop.read.all t, l.length < 100) := by
  have hr := readFile_prints fs buffer h
  have hm := mostrarArchivo_prints fs linea h
  refine ⟨⟨_, PrintLoop.ends_iff.mpr (readFileLoop_prints buffer t), hr, readFile_exact t⟩,
    ⟨_, PrintLoop.ends_iff.mpr (mostrarArchivoLoop_prints linea t), hm, mostrarArchivo_exact t⟩,
    fun h0 => ⟨?_, fun programa programa' => ?_⟩, ?_⟩
  · rw [hr, hm, (readFile_exact t).eq_iff.mpr h0, (mostrarArchivo_exact t).eq_iff.mpr h0]
  · obtain ⟨h₁, h₂⟩ := mains_of_noNul fs buffer linea h h0 programa programa'
    rw [h₁, h₂]
  · exact same_pieces_iff t

end

/-- A NUL between letters, in a line that `read_file` reads in two pieces. -/
def nulBetween : List UInt8 := List.replicate 60 0x61 ++ 0 :: List.replicate 60 0x62 ++ [nl]

theorem nulBetween_shorter :
    (∃ out, readFile (.ofBytes []) (.everywhere nulBetween) (utf8 "datos.txt") = some ⟨1, out, []⟩ ∧
      out.length < 122) ∧
    (∃ out, mostrarArchivo (.ofBytes []) (.everywhere nulBetween) (utf8 "datos.txt") =
      some ⟨1, out, []⟩ ∧ out.length < 122) := by
  have h : (Files.everywhere nulBetween).file (utf8 "datos.txt") = .text nulBetween := rfl
  obtain ⟨⟨out, -, hr, he⟩, ⟨out', -, hm, he'⟩, -⟩ :=
    line_printers_exact (.everywhere nulBetween) (.ofBytes []) (.ofBytes []) h
  exact ⟨⟨out, hr, he.shorter (by decide)⟩, ⟨out', hm, he'.shorter (by decide)⟩⟩

end SO.Proof.Printers
