import Proyectos.Proof.Stat.Record
import Proyectos.Proof.Stat.Rows

/-!
# `ExamenP2.c`: what it reads of a process's `stat`

The numbers and the name come first in the file and fit the buffer
(`firstRead_stat`), so that the PID is always read, and the name up to its first
`)`. With a name that has none, the PPID is read as well (`legible_stat`).
-/

namespace SO.Proof.Stat

open SO.Impl.Stat SO.Impl.Stat.ProcStat SO.Spec.Procfs

variable (p : Process) (s : ProcStat)

/-! ## The text -/

/-- The start of a line that fits the buffer is read whole. -/
theorem firstRead_append {P : List UInt8} (hP : ∀ c ∈ P, InLine c) (hl : P.length ≤ 511)
    (R : List UInt8) : ∃ R', firstRead (P ++ R) = P ++ R' ∧ R' <+: R := by
  have hline : firstLine (P ++ R) = P ++ firstLine R := by
    have hn : ∀ c ∈ P, decide (c ≠ nl) = true := fun c hc => decide_eq_true (hP c hc).1
    rw [firstLine, List.takeWhile_append_of_pos hn, List.dropWhile_append_of_pos hn, List.append_assoc]
    rfl
  have h0 : ∀ c ∈ P, decide (c ≠ 0) = true := fun c hc => decide_eq_true (hP c hc).2
  refine ⟨cstring ((firstLine R).take (511 - P.length)), ?_, ?_⟩
  · rw [firstRead, hline, List.take_append, List.take_of_length_le hl, cstring,
      List.takeWhile_append_of_pos h0]
    rfl
  · exact (List.takeWhile_prefix _).trans ((List.take_prefix _ _).trans (isPrefix_firstLine R))

/-- The text up to `ppid`. -/
def statHead (p : Process) : List UInt8 :=
  decimal p.pid ++ utf8 " (" ++ p.name ++ utf8 ") " ++ [p.state] ++ utf8 " " ++ decimal p.ppid

theorem length_statHead_le : (statHead p).length ≤ 511 := by
  have hp := length_decimal_of_lt p.pid_lt
  have hpp := length_decimal_of_lt p.ppid_lt
  have hname := p.name_length
  have h2 : (utf8 " (").length = 2 ∧ (utf8 ") ").length = 2 ∧ (utf8 " ").length = 1 := by decide
  simp only [statHead, List.length_append, List.length_singleton]
  omega

theorem inLine_of_mem_statHead : ∀ c ∈ statHead p, InLine c := by
  intro c hc
  simp only [statHead, List.mem_append, List.mem_singleton] at hc
  rcases hc with (((((hc | hc) | hc) | hc) | rfl) | hc) | hc
  · exact inLine_of_isdigit (isdigit_of_mem_decimal hc)
  · exact inLine_of_mem (l := utf8 " (") (by decide) (by decide) hc
  · exact inLine_of_mem p.name_plain.1 p.name_plain.2.2 hc
  · exact inLine_of_mem (l := utf8 ") ") (by decide) (by decide) hc
  · exact inLine_of_graphic p.state_graphic
  · exact inLine_of_mem (l := utf8 " ") (by decide) (by decide) hc
  · exact inLine_of_isdigit (isdigit_of_mem_decimal hc)

/-- What is read of the process's `stat`. -/
theorem firstRead_stat : ∃ R, Stops isdigit R ∧ firstRead p.stat = decimalInt p.pid ++
    (utf8 " " ++ '('.toUInt8 :: (p.name ++ ')'.toUInt8 ::
      (utf8 " " ++ p.state :: (utf8 " " ++ (decimalInt p.ppid ++ R))))) := by
  obtain ⟨R, hR, hpre⟩ := firstRead_append (inLine_of_mem_statHead p) (length_statHead_le p) p.rest
  refine ⟨R, p.rest_stops.of_isPrefix hpre, ?_⟩
  rw [show p.stat = statHead p ++ p.rest from rfl, hR, decimalInt_ofNat, decimalInt_ofNat, statHead]
  simp only [List.append_assoc]
  rfl

/-- A process whose name has no `)` has a line as `get_proc_info` expects it. -/
theorem legible_stat (hn : p.name ≠ []) (hp : ')'.toUInt8 ∉ p.name) :
    Legible (firstRead p.stat) p.pid p.name p.ppid := by
  obtain ⟨R, hR, ht⟩ := firstRead_stat p
  have hw : ∀ b ∈ utf8 " ", isspace b := List.all_eq_true.mp rfl
  rw [ht]
  exact ⟨utf8 " ", utf8 " ", p.state, _, R, number_head hw, hw, hn, hp,
    p.name_length.trans (by decide), hw, p.state_graphic.1, number_decimalInt hw _ hR⟩

/-! ## `get_proc_info` -/

/-- What of `status` holds once the process's `stat` has been read into `s`. -/
structure Taken (s s' : ProcStat) : Prop where
  pid : s'.num .pid = p.pid
  /-- The name up to its first `)`. -/
  comm : p.name.takeWhile (· ≠ ')'.toUInt8) ≠ [] →
    s'.comm.cstr = some (p.name.takeWhile (· ≠ ')'.toUInt8))
  unnamed : p.name.takeWhile (· ≠ ')'.toUInt8) = [] → s'.num .ppid = s.num .ppid
  legible {u v : Int} {a : List UInt8} : Legible (firstRead p.stat) u a v →
    s'.comm.cstr = some a ∧ s'.num .ppid = Spec.d.conv v
  illegible : (∀ u a v, ¬ Legible (firstRead p.stat) u a v) → s'.num .ppid = s.num .ppid

theorem scan_process : ∃ k s', sscanf (firstRead p.stat) format s = some (k, s') ∧ 1 ≤ k ∧
    (p.name.takeWhile (· ≠ ')'.toUInt8) ≠ [] →
      s'.comm.cstr = some (p.name.takeWhile (· ≠ ')'.toUInt8))) ∧
    (p.name.takeWhile (· ≠ ')'.toUInt8) = [] → s'.num .ppid = s.num .ppid) ∧
    s'.num .pid = p.pid := by
  obtain ⟨R, -, ht⟩ := firstRead_stat p
  have hw : ∀ b ∈ utf8 " ", isspace b := List.all_eq_true.mp rfl
  obtain ⟨hnil, hcons⟩ := scan_named s (X := utf8 " " ++ p.state :: (utf8 " " ++ (decimalInt p.ppid ++ R)))
    (p.name_length.trans (by decide)) p.name_plain.2.2 (fun _ => number_head (v := p.pid) hw) hw
  rw [← ht] at hnil hcons
  have hpid : ∀ i ∈ sscanf (firstRead p.stat) format s, i.2.num .pid = p.pid := by
    have hnum : Number (firstRead p.stat) p.pid _ := ht ▸ number_head hw
    rw [← Spec.conv_natCast p.pid_lt]
    exact scan_pid s hnum
  rcases eq_or_ne (p.name.takeWhile (· ≠ ')'.toUInt8)) [] with ha | ha
  · have hs := hnil ha
    exact ⟨1, _, hs, le_rfl, absurd ha, fun _ => num_put_of_ne s _ (by decide), hpid _ hs⟩
  · obtain ⟨k, s', hs, hk, hc⟩ := hcons ha
    exact ⟨k, s', hs, by omega, fun _ => hc, fun h => absurd h ha, hpid _ hs⟩

theorem info_process : ∃ ret s', getProcInfo s p.entry.dName p.entry.stat = some ⟨ret, s', []⟩ ∧
    ret ≠ -1 ∧ Taken p s s' := by
  have hne : p.stat ≠ [] := by
    intro h
    simp only [Process.stat, List.append_eq_nil_iff] at h
    exact decimal_ne_nil p.pid h.1.1.1.1.1.1.1
  obtain ⟨k, s', hs, hk, hcomm, hunnamed, hpid⟩ := scan_process p s
  refine ⟨k, s', ?_, by omega, hpid, hcomm, hunnamed, fun hl => ?_, fun hl => ?_⟩
  · rw [getProcInfo_text s _ rfl hne, hs]
    rfl
  · obtain ⟨k', s'', hs', -, -, hname, hppid⟩ := scan_legible s hl (noNul_firstRead _)
    rw [hs] at hs'
    cases hs'
    exact ⟨hname, hppid⟩
  · have hb : ¬ ∀ b ∈ firstRead p.stat, isspace b := by
      intro hb
      rw [scan_blank s hb] at hs
      cases hs
      exact absurd hk (by decide)
    exact (scan_illegible s hl hb _ hs).2

/-- The row `ExamenP2.c` prints of a process. -/
theorem examenP2_row {ret : Int} {s' : ProcStat}
    (h : getProcInfo s p.entry.dName p.entry.stat = some ⟨ret, s', []⟩) (hr : ret ≠ -1) :
    table (examenP2.turn s p.entry) = [⟨some (decimalInt (s'.num .pid)),
      some (decimalInt (s'.num .ppid)), s'.comm.cstr, some (tipo s')⟩] := by
  have hnum : numeric p.entry := by
    have hd := isdigit_of_mem_decimal (List.head_mem (decimal_ne_nil p.pid))
    rw [numeric, Process.entry, List.headD_eq_head?_getD, List.head?_eq_some_head (decimal_ne_nil _)]
    exact hd
  rw [shows_examenP2.shown hnum h hr]
  rfl

end SO.Proof.Stat
