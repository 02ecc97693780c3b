import Proyectos.Impl.Printers

/-!
# The printers that read characters

Of all bytes, 0xFF alone is `EOF` once it is a `char` (`charOf_eq_EOF`), and `%c`
prints every other one as it was (`printfChar_charOf`). So the loop ends at the
first 0xFF, and prints what comes before it (`charLoop_prints`): the whole file,
just if there is none in it (`copies_iff`).
-/

namespace SO.Proof.Printers

open SO.Impl

/-! ## A character -/

/-- The byte that is `EOF` as a `char`. -/
theorem charOf_eq_EOF (b : UInt8) : (Int8.ofInt b.toNat).toInt = EOF ↔ b = 0xFF := by
  have hb : b.toNat < 256 := b.toNat_lt
  have hff : (0xFF : UInt8).toNat = 255 := rfl
  rw [Int8.toInt_ofInt, ← UInt8.toNat_inj, hff]
  show Int.bmod b.toNat 256 = -1 ↔ _
  rw [Int.bmod_def]
  split <;> omega

/-- A byte that has been a `char` is printed as it was. -/
theorem printfChar_charOf (b : UInt8) : printfChar (Int8.ofInt b.toNat) = [b] := by
  have hb : b.toNat < 256 := b.toNat_lt
  have hmod : Int.bmod b.toNat 256 % 256 = b.toNat :=
    Int.bmod_emod.trans (Int.emod_eq_of_lt (by omega) (by omega))
  rw [printfChar, Int8.toInt_ofInt, UInt8.ofInt]
  show [UInt8.ofNat (Int.bmod b.toNat 256 % 256).toNat] = _
  rw [hmod, Int.toNat_natCast, UInt8.ofNat_toNat]

/-- What a round prints comes off the front of the file. -/
theorem append_of_fgetcChar {t r : List UInt8} {c : Int8} (h : fgetcChar t = some (c, r)) :
    t = printfChar c ++ r := by
  obtain ⟨b, rfl, rfl, -⟩ := fgetcChar_eq_some.mp h
  rw [printfChar_charOf]
  rfl

/-- It is not 0xFF. -/
theorem printfChar_of_fgetcChar {t r : List UInt8} {c : Int8} (h : fgetcChar t = some (c, r)) :
    ∀ b ∈ printfChar c, decide (b ≠ 0xFF) = true := by
  obtain ⟨b, -, rfl, hc⟩ := fgetcChar_eq_some.mp h
  rw [Ne, charOf_eq_EOF] at hc
  rw [printfChar_charOf]
  simpa using hc

/-- The loop stops at the end of the file or at a byte 0xFF. -/
theorem stops_of_fgetcChar {t : List UInt8} (h : fgetcChar t = none) : Stops (· ≠ 0xFF) t := by
  rcases t with _ | ⟨b, t⟩
  · exact stops_nil
  · rw [stops_cons, decide_eq_false_iff_not, not_not, ← charOf_eq_EOF]
    by_contra hc
    have hs : fgetcChar (b :: t) = some (Int8.ofInt b.toNat, t) :=
      fgetcChar_eq_some.mpr ⟨b, rfl, rfl, hc⟩
    rw [h] at hs
    cases hs

/-! ## The loop -/

/-- The characters read, and printed, are the bytes before the first 0xFF. -/
theorem flatMap_chars (t : List UInt8) :
    (chars.all t).flatMap printfChar = t.takeWhile (· ≠ 0xFF) := by
  obtain ⟨r, hr, ht⟩ := chars.exists_rest append_of_fgetcChar t
  have hff : ∀ b ∈ (chars.all t).flatMap printfChar, decide (b ≠ 0xFF) = true := by
    intro b hb
    obtain ⟨c, hc, hbc⟩ := List.mem_flatMap.mp hb
    exact chars.forall_mem_all printfChar_of_fgetcChar t c hc b hbc
  calc (chars.all t).flatMap printfChar
      = ((chars.all t).flatMap printfChar ++ r).takeWhile (· ≠ 0xFF) :=
        (takeWhile_of_stops hff (stops_of_fgetcChar hr)).symm
    _ = t.takeWhile (· ≠ 0xFF) := by rw [← ht]

theorem charLoop_prints (t : List UInt8) :
    charLoop.print () t = some (t.takeWhile (· ≠ 0xFF)) := by
  rw [← flatMap_chars]
  exact PrintLoop.rounds_eq (fun c _ _ => ⟨(), rfl⟩) ()

/-! ## The programs -/

section

variable (fs : Files) (programa : List UInt8) {ruta t : List UInt8} (h : fs.file ruta = .text t)

include h

theorem examenP1_prints (resto : List (List UInt8)) :
    examenP1 fs (programa :: ruta :: resto) =
      some ⟨0, utf8 "Contenido del archivo:\n\n" ++ t.takeWhile (· ≠ 0xFF), []⟩ := by
  simp only [examenP1, h, File.opened, charLoop_prints, Option.map_some]

theorem windontsP1_prints : windontsP1 fs [programa, ruta] = some ⟨0, t.takeWhile (· ≠ 0xFF), []⟩ := by
  simp only [windontsP1, h, File.opened, charLoop_prints, Option.map_some]

/-- The loop ends, having printed what comes before the first byte 0xFF. So either
program prints the file after its heading just if there is no such byte in it. -/
theorem copies_iff (resto : List (List UInt8)) :
    charLoop.Ends () t (t.takeWhile (· ≠ 0xFF)) ∧
    (charLoop.Ends () t t ∧ examenP1 fs (programa :: ruta :: resto) =
        some ⟨0, utf8 "Contenido del archivo:\n\n" ++ t, []⟩ ↔ 0xFF ∉ t) ∧
    (charLoop.Ends () t t ∧ windontsP1 fs [programa, ruta] = some ⟨0, t, []⟩ ↔ 0xFF ∉ t) := by
  rw [examenP1_prints fs programa h, windontsP1_prints fs programa h, PrintLoop.ends_iff,
    PrintLoop.ends_iff, charLoop_prints]
  simp only [Option.some.injEq, Printout.mk.injEq, List.append_cancel_left_eq, true_and, and_true,
    takeWhile_ne_eq_self, and_self]

end

theorem copies_ascii :
    (charLoop.Ends () (utf8 "hola\n") (utf8 "hola\n") ∧
        examenP1 (Files.everywhere (utf8 "hola\n")) [utf8 "./programa", utf8 "datos.txt"] =
          some ⟨0, utf8 "Contenido del archivo:\n\n" ++ utf8 "hola\n", []⟩) ∧
      (charLoop.Ends () (utf8 "hola\n") (utf8 "hola\n") ∧
        windontsP1 (Files.everywhere (utf8 "hola\n")) [utf8 "./programa", utf8 "datos.txt"] =
          some ⟨0, utf8 "hola\n", []⟩) := by
  have h : (Files.everywhere (utf8 "hola\n")).file (utf8 "datos.txt") = .text (utf8 "hola\n") := rfl
  have hi := copies_iff (Files.everywhere (utf8 "hola\n")) (utf8 "./programa") h []
  exact ⟨hi.2.1.mpr (by decide), hi.2.2.mpr (by decide)⟩

/-- `ÿ` between two letters, in Latin-1. -/
def latin1 : List UInt8 := [0x61, 0xFF, 0x62]

/-- Both programs print the first letter only. -/
theorem latin1_cut :
    (examenP1 (Files.everywhere latin1) [utf8 "./programa", utf8 "datos.txt"] =
        some ⟨0, utf8 "Contenido del archivo:\n\n" ++ [0x61], []⟩ ∧
      windontsP1 (Files.everywhere latin1) [utf8 "./programa", utf8 "datos.txt"] = some ⟨0, [0x61], []⟩) ∧
    ¬ (examenP1 (Files.everywhere latin1) [utf8 "./programa", utf8 "datos.txt"] =
        some ⟨0, utf8 "Contenido del archivo:\n\n" ++ latin1, []⟩) ∧
    ¬ (windontsP1 (Files.everywhere latin1) [utf8 "./programa", utf8 "datos.txt"] = some ⟨0, latin1, []⟩) := by
  rw [examenP1_prints (Files.everywhere latin1) _ rfl [], windontsP1_prints (Files.everywhere latin1) _ rfl]
  decide

end SO.Proof.Printers
