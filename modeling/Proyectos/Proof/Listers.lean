import Proyectos.Proof.Stat.Process
import Proyectos.Proof.Status.Procesos
import Proyectos.Proof.Status.Examen2

/-!
# The listers, one beside another

The three programs tell a process's name apart at different characters:
`ExamenP2.c` ends it at a `)` (`examenP2_shown_iff`), `procesos.c` at white space
(`procesos_shown_iff`) and `Examen2.cpp` only drops blanks before it
(`examen2_shown_iff`), so they agree on a process just if its name has none of
these (`agree_iff`).

Two of them tell a kernel thread by its numbers and the third by its empty
`cmdline`, which other processes may have as well (`kinds_agree_iff`).
-/

namespace SO.Proof.Listers

open SO.Impl SO.Impl.Stat SO.Spec.Procfs SO.Proof.Stat SO.Proof.Status

variable (p : Process) {s : ProcStat}

/-! ## What is printed -/

theorem procesos_table : ∃ v, table (procesos.turn () p.entry) = [⟨some (decimalInt v.pid),
      some (decimalInt v.ppid), v.nombre.cstr, some (Impl.Procesos.tipo v)⟩] ∧
    v.pid = p.pid ∧ v.ppid = p.ppid ∧ v.nombre.cstr = some (Procesos.firstWord p.name) := by
  obtain ⟨v, hv, h⟩ := Procesos.procesos_row p
  refine ⟨v, ?_, h⟩
  rw [hv]
  rfl

theorem procesos_shown_iff :
    p.ShownBy (procesos.turn () p.entry) ↔ ∀ c ∈ p.name, isspace c = false := by
  obtain ⟨v, ht, hpid, hppid, hname⟩ := procesos_table p
  rw [Process.ShownBy, ht, hpid, hppid, hname, decimalInt_ofNat, decimalInt_ofNat,
    ← Procesos.firstWord_eq_self]
  simp

theorem table_examen2 : table (examen2.turn () p.entry) =
    [⟨some (decimal p.pid), some (decimal p.ppid), some (Examen2.unblanked p.name),
      some (utf8 (if p.cmdline.isEmpty then "[Kernel]" else "[Usuario]"))⟩] := by
  rw [Examen2.examen2_row]
  rfl

theorem examen2_shown_iff : p.ShownBy (examen2.turn () p.entry) ↔
    (∀ c ∈ p.name, Impl.Examen2.blank c) ∨ Stops Impl.Examen2.blank p.name := by
  rw [Process.ShownBy, table_examen2, ← Examen2.unblanked_eq_self]
  simp

theorem examenP2_shown {ret : Int} {s' : ProcStat}
    (h : getProcInfo s p.entry.dName p.entry.stat = some ⟨ret, s', []⟩) (hr : ret ≠ -1) :
    p.ShownBy (examenP2.turn s p.entry) ↔
      s'.num .pid = p.pid ∧ s'.num .ppid = p.ppid ∧ s'.comm.cstr = some p.name := by
  rw [Process.ShownBy, examenP2_row p s h hr, ← decimalInt_ofNat, ← decimalInt_ofNat]
  simp [decimalInt_injective.eq_iff]

theorem examenP2_shown_iff :
    (∀ s, p.ShownBy (examenP2.turn s p.entry)) ↔ p.name ≠ [] ∧ ')'.toUInt8 ∉ p.name := by
  constructor
  · intro h
    -- a memory whose `ppid` is not the process's
    obtain ⟨ret, s', hi, hr, ht⟩ := info_process p ⟨fun _ => -1, .ofBytes [], 0⟩
    obtain ⟨-, hppid, hname⟩ := (examenP2_shown p hi hr).mp (h _)
    rcases eq_or_ne (p.name.takeWhile (· ≠ ')'.toUInt8)) [] with ha | ha
    · have hp : (p.ppid : Int) = -1 := hppid.symm.trans (ht.unnamed ha)
      omega
    · have he : p.name.takeWhile (· ≠ ')'.toUInt8) = p.name :=
        Option.some.inj ((ht.comm ha).symm.trans hname)
      rw [he] at ha
      exact ⟨ha, takeWhile_ne_eq_self.mp he⟩
  · rintro ⟨hn, hp⟩ s
    obtain ⟨ret, s', hi, hr, ht⟩ := info_process p s
    obtain ⟨hname, hppid⟩ := ht.legible (legible_stat p hn hp)
    rw [Spec.conv_natCast p.ppid_lt] at hppid
    exact (examenP2_shown p hi hr).mpr ⟨ht.pid, hppid, hname⟩

/-- The three programs show a process as it is just if its name is not empty and
has neither a `)` nor white space. -/
theorem agree_iff (p : Process) :
    p.Agree ↔ p.name ≠ [] ∧ ∀ c ∈ p.name, c ≠ ')'.toUInt8 ∧ isspace c = false := by
  constructor
  · intro h
    obtain ⟨hn, hp⟩ := (examenP2_shown_iff p).mp fun s => (h s).1
    have hs := (procesos_shown_iff p).mp (h ⟨fun _ => 0, .ofBytes [], 0⟩).2.1
    exact ⟨hn, fun c hc => ⟨fun e => hp (e ▸ hc), hs c hc⟩⟩
  · rintro ⟨hn, h⟩ s
    have hp : ')'.toUInt8 ∉ p.name := fun hc => (h _ hc).1 rfl
    refine ⟨(examenP2_shown_iff p).mpr ⟨hn, hp⟩ s, (procesos_shown_iff p).mpr fun c hc => (h c hc).2, ?_⟩
    refine (examen2_shown_iff p).mpr (.inr fun c hc => ?_)
    exact Examen2.blank_of_not_isspace (h c (List.mem_of_mem_head? hc)).2

/-- The lines of a process 100 whose parent is process 1. -/
def childStatus (name : List UInt8) : List (List UInt8) :=
  [utf8 "Name:\t" ++ name, utf8 "Pid:\t" ++ decimal 100, utf8 "PPid:\t" ++ decimal 1]

theorem childStatus_fits {name : List UInt8} (hl : name.length < 100) (hn : nl ∉ name) :
    ∀ l ∈ childStatus name, nl ∉ l ∧ l.length + 1 < 256 := by
  simp only [childStatus, List.mem_cons, List.not_mem_nil, or_false, forall_eq_or_imp, forall_eq,
    List.mem_append, not_or, List.length_append]
  refine ⟨⟨⟨by decide, hn⟩, ?_⟩, by decide, by decide⟩
  show 6 + name.length + 1 < 256
  omega

/-- Process 100. -/
def child (name cmdline : List UInt8) (hl : name.length < 100)
    (hp : nl ∉ name ∧ '\\'.toUInt8 ∉ name ∧ 0 ∉ name) : Process where
  pid := 100
  ppid := 1
  name := name
  pid_lt := by decide
  ppid_lt := by decide
  name_length := hl
  name_plain := hp
  state := 'Z'.toUInt8
  state_graphic := by decide
  rest := [nl]
  rest_stops := by decide
  status := childStatus name
  status_lines l hm := (childStatus_fits hl hp.1 l hm).1
  nameLine := rfl
  pidLine := rfl
  ppidLine := rfl
  status_pieces l hm q hq := by
    obtain ⟨hn, hf⟩ := childStatus_fits hl hp.1 l hm
    rw [show Impl.Procesos.fgetsLinea.all (l ++ [nl]) = [l ++ [nl]] from pieces_of_fits hn hf] at hq
    cases hq
  cmdline := cmdline
  cmdline_kernel h := absurd h (by decide)

/-- `procesos.c` prints `a` of the name `a b`. -/
theorem name_cut : ¬ (child (utf8 "a b") [] (by decide) (by decide)).Agree := by
  intro h
  have hs := (procesos_shown_iff _).mp (h ⟨fun _ => 0, .ofBytes [], 0⟩).2.1
  exact absurd (hs ' '.toUInt8 (by decide)) (by decide)

/-! ## Which are kernel threads -/

theorem labels_iff {σ : Type} {t : Turn σ} {r : Row} (h : table t = [r]) (kind : String) :
    Labels t kind ↔ r.kind = some (utf8 kind) := by
  rw [Labels, h]
  simp

/-- `Examen2.cpp` goes by the empty `cmdline`. -/
theorem examen2_labels : Labels (examen2.turn () p.entry) "[Kernel]" ↔ p.cmdline = [] := by
  rw [labels_iff (table_examen2 p), ← List.isEmpty_iff]
  rcases p.cmdline.isEmpty
  · exact iff_of_false (show ¬ some (utf8 "[Usuario]") = _ by decide) Bool.false_ne_true
  · exact iff_of_true rfl rfl

theorem procesos_labels : Labels (procesos.turn () p.entry) "Kernel" ↔ p.Kernel := by
  obtain ⟨v, hv, hpid, hppid, -⟩ := procesos_table p
  rw [labels_iff hv, Impl.Procesos.tipo, hpid, hppid, Process.Kernel]
  split
  · exact iff_of_true rfl (by omega)
  · exact iff_of_false (show ¬ some (utf8 "Usuario") = _ by decide) (by omega)

theorem examenP2_labels {ret : Int} {s' : ProcStat}
    (h : getProcInfo s p.entry.dName p.entry.stat = some ⟨ret, s', []⟩) (hr : ret ≠ -1) :
    Labels (examenP2.turn s p.entry) "Kernel" ↔ s'.num .pid = 2 ∨ s'.num .ppid = 2 := by
  rw [labels_iff (examenP2_row p s h hr), tipo]
  split
  · rename_i hk
    exact iff_of_true rfl hk
  · rename_i hk
    exact iff_of_false (show ¬ some (utf8 "Usuario") = _ by decide) hk

/-- `ExamenP2.c` takes a process for a kernel thread just when it is one, whatever
`status` held, if it is process 2 or has its PPID read, from the right place or
from one that tells as much. -/
theorem examenP2_kernel_iff :
    (∀ s, Labels (examenP2.turn s p.entry) "Kernel" ↔ p.Kernel) ↔
      p.pid = 2 ∨ ∃ u a v, Legible (firstRead p.stat) u a v ∧ (Spec.d.conv v = 2 ↔ p.ppid = 2) := by
  constructor
  · intro h
    refine or_iff_not_imp_left.mpr fun hpid => ?_
    have hread (s : ProcStat) : ∃ s', Taken p s s' ∧ (s'.num .ppid = 2 ↔ p.ppid = 2) := by
      obtain ⟨ret, s', hi, hr, ht⟩ := info_process p s
      have hk := (examenP2_labels p hi hr).symm.trans (h s)
      rw [ht.pid, Process.Kernel] at hk
      exact ⟨s', ht, by omega⟩
    by_cases hl : ∃ u a v, Legible (firstRead p.stat) u a v
    · obtain ⟨u, a, v, hl⟩ := hl
      obtain ⟨s', ht, hv⟩ := hread ⟨fun _ => 0, .ofBytes [], 0⟩
      rw [(ht.legible hl).2] at hv
      exact ⟨u, a, v, hl, hv⟩
    · -- two memories with different numbers where `ppid` is not read
      have hl : ∀ u a v, ¬ Legible (firstRead p.stat) u a v := fun u a v h => hl ⟨u, a, v, h⟩
      obtain ⟨s₀, ht₀, h₀⟩ := hread ⟨fun _ => 0, .ofBytes [], 0⟩
      obtain ⟨s₂, ht₂, h₂⟩ := hread ⟨fun _ => 2, .ofBytes [], 0⟩
      rw [ht₀.illegible hl] at h₀
      rw [ht₂.illegible hl] at h₂
      exact absurd (h₀.mpr (h₂.mp rfl)) (show ¬ (0 : Int) = 2 by decide)
  · intro h s
    obtain ⟨ret, s', hi, hr, ht⟩ := info_process p s
    rw [examenP2_labels p hi hr, ht.pid, Process.Kernel]
    rcases h with hpid | ⟨u, a, v, hl, hv⟩
    · omega
    · rw [(ht.legible hl).2]
      omega

/-- So it does for a name that is not empty and has no `)`. -/
theorem examenP2_kernel (hn : p.name ≠ []) (hp : ')'.toUInt8 ∉ p.name) (s : ProcStat) :
    Labels (examenP2.turn s p.entry) "Kernel" ↔ p.Kernel := by
  refine (examenP2_kernel_iff p).mpr (.inr ⟨_, _, _, legible_stat p hn hp, ?_⟩) s
  rw [Spec.conv_natCast p.ppid_lt]
  omega

/-- The three programs take the same processes for kernel threads, but for those
that have an empty `cmdline` without being one and those whose PPID `ExamenP2.c`
does not find. -/
theorem kinds_agree_iff (p : Process) : p.KindsAgree ↔ (p.Kernel ∨ p.cmdline ≠ []) ∧
    (p.pid = 2 ∨ ∃ u a v, Legible (firstRead p.stat) u a v ∧ (Spec.d.conv v = 2 ↔ p.ppid = 2)) := by
  have hcmd : (p.cmdline = [] ↔ p.Kernel) ↔ p.Kernel ∨ p.cmdline ≠ [] := by
    constructor
    · intro h
      exact or_iff_not_imp_right.mpr fun hc => h.mp (not_not.mp hc)
    · intro h
      exact ⟨fun hc => h.resolve_right (not_not.mpr hc), fun hk => p.cmdline_kernel hk⟩
  rw [← hcmd, ← examenP2_kernel_iff]
  constructor
  · intro h
    have hc : p.cmdline = [] ↔ p.Kernel := by
      rw [← examen2_labels, ← procesos_labels]
      exact (h ⟨fun _ => 0, .ofBytes [], 0⟩).2
    refine ⟨hc, fun s => ?_⟩
    rw [← (h s).1, examen2_labels, hc]
  · rintro ⟨hc, hk⟩ s
    rw [examen2_labels, procesos_labels, hk s]
    exact ⟨hc, hc⟩

/-- A process that has ended, `sh`, is taken for a kernel thread. -/
theorem zombie_kernel : ¬ (child (utf8 "sh") [] (by decide) (by decide)).KindsAgree := by
  intro h
  have hc := (h ⟨fun _ => 0, .ofBytes [], 0⟩).2
  rw [examen2_labels, procesos_labels] at hc
  exact absurd (hc.mp rfl) (show ¬ (100 = 2 ∨ 1 = 2) by decide)

end SO.Proof.Listers
