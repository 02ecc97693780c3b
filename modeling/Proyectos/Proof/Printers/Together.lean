import Proyectos.Proof.Printers.Chars
import Proyectos.Proof.Printers.Lines

/-!
# The printers, one beside another

A printer that reads lines prints what comes before the first NUL as it is
(`cstring_isPrefix_strings`), so it goes on past a 0xFF at which one that reads
characters ends, which in turn prints the NUL that the other leaves out. They end
alike just if the file has neither (`printers_agree_iff`).
-/

namespace SO.Proof.Printers

open SO.Impl

section

variable {n : Nat} (hn : 1 < n)

/-- By the file's pieces: the first that has a NUL is printed up to it. -/
theorem cstring_isPrefix_strings (t : List UInt8) : cstring t <+: strings (fgetsOf n hn) t := by
  induction t using (fgetsOf n hn).induct with
  | stop t h =>
    obtain rfl := fgets_eq_none.mp h
    exact List.nil_prefix
  | item t a r h ih =>
    rw [strings, Reader.all_of_some h, List.flatMap_cons, append_of_fgets h]
    by_cases h0 : 0 ∈ a
    · obtain ⟨u, v, rfl, hu⟩ := List.eq_append_cons_of_mem h0
      rw [List.append_assoc, List.cons_append, cstring, cstring, takeWhile_ne_append_cons hu,
        takeWhile_ne_append_cons hu]
      exact List.prefix_append _ _
    · rw [cstring_of_noNul h0, cstring, takeWhile_ne_append h0]
      exact (List.prefix_append_right_inj a).mpr ih

/-- The two ways to print a file come to the same just if it has neither byte. -/
theorem strings_eq_iff (t : List UInt8) :
    t.takeWhile (· ≠ 0xFF) = strings (fgetsOf n hn) t ↔ 0 ∉ t ∧ 0xFF ∉ t := by
  constructor
  · intro h
    have hff : 0xFF ∉ t := by
      intro hm
      obtain ⟨u, v, rfl, hu⟩ := List.eq_append_cons_of_mem hm
      rw [takeWhile_ne_append_cons hu] at h
      -- what has been printed by then has no NUL, so the 0xFF is printed next
      have h0 : 0 ∉ u := h ▸ nul_notMem_strings hn _
      have hc : cstring (u ++ 0xFF :: v) = u ++ 0xFF :: cstring v := takeWhile_ne_append h0 _
      have hp := (cstring_isPrefix_strings hn (u ++ 0xFF :: v)).length_le
      rw [hc, ← h, List.length_append, List.length_cons] at hp
      omega
    rw [takeWhile_ne_eq_self.mpr hff] at h
    exact ⟨(exact_strings hn t).eq_iff.mp h.symm, hff⟩
  · rintro ⟨h0, hff⟩
    rw [takeWhile_ne_eq_self.mpr hff, strings_of_noNul hn h0]

end

/-- `Windon´ts P1.cpp` ends as `read_file.c` and as `Examen1.c` do, on a file it
opens, just if the file has neither a NUL nor a byte 0xFF. -/
theorem printers_agree_iff (fs : Files) (buffer : Buf 256) (linea : Buf 512) (programa : List UInt8)
    {ruta t : List UInt8} (h : fs.file ruta = .text t) :
    (windontsP1 fs [programa, ruta] = readFileMain buffer fs [programa, ruta] ↔
      0 ∉ t ∧ 0xFF ∉ t) ∧
    (windontsP1 fs [programa, ruta] = examen1 linea fs [programa, ruta] ↔ 0 ∉ t ∧ 0xFF ∉ t) := by
  have hr : readFileMain buffer fs [programa, ruta] = some ⟨0, strings readFileLoop.read t, []⟩ := by
    simp only [readFileMain, readFile_prints fs buffer h, Option.map_some]
    rfl
  have hm : examen1 linea fs [programa, ruta] = some ⟨0, strings mostrarArchivoLoop.read t, []⟩ := by
    simp only [examen1, mostrarArchivo_prints fs linea h, Option.map_some]
    rfl
  rw [windontsP1_prints fs programa h, hr, hm]
  simp only [Option.some.injEq, Printout.mk.injEq, true_and, and_true]
  exact ⟨strings_eq_iff (by omega) t, strings_eq_iff (by omega) t⟩

/-- On a file with a NUL between letters they end differently. -/
theorem nulBetween_differ :
    windontsP1 (.everywhere nulBetween) [utf8 "./programa", utf8 "datos.txt"] ≠
      readFileMain (.ofBytes []) (.everywhere nulBetween) [utf8 "./programa", utf8 "datos.txt"] := by
  have h : (Files.everywhere nulBetween).file (utf8 "datos.txt") = .text nulBetween := rfl
  have hi := printers_agree_iff (.everywhere nulBetween) (.ofBytes []) (.ofBytes [])
    (utf8 "./programa") h
  exact fun he => (hi.1.mp he).1 (by decide)

end SO.Proof.Printers
