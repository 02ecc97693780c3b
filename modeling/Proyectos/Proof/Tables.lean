import Proyectos.Proof.Listers
import Proyectos.Proof.Walk

/-!
# The listers' tables

A program's turn at a process prints one row. If it shows the process as it is
just of those processes that are `Good`, the whole table is right just if all of
them are (`Prints.tabulates_iff`, by induction on the directory). So the three
programs print the same of a directory just if no process's name is empty or has
a `)` or white space (`tables_agree_iff`): where `ExamenP2.c` prints what another
process has left in `status`, that is not the name.
-/

namespace SO.Proof.Listers

open SO.Impl SO.Impl.Stat SO.Spec.Procfs SO.Proof.Stat SO.Proof.Status

theorem shown_append (out out' : List Printed) : shown (out ++ out') = shown out ++ shown out' := by
  rw [shown, List.filterMap_append, List.map_append]
  rfl

/-- What a turn does to a program's variables and to its table: `I` is what a process
whose row is right needs of them to be `Good`. -/
structure Prints {σ : Type} (p : Lister σ) (I : σ → Prop) (good : Process → Prop) : Prop where
  process (q : Process) (s : σ) : ∃ s' out r, p.turn s q.entry = .next s' out ∧ shown out = [r] ∧
    (good q → r = q.texts) ∧ (I s → I s' ∧ (r = q.texts → good q))
  gone {n : Nat} (hn : n < 2 ^ 31) (dir : Bool) (cmdline : File) (s : σ) :
    ∃ out, p.turn s ⟨decimal n, dir, .absent, .absent, cmdline⟩ = .next s out ∧ shown out = []
  other {c : UInt8} (hc : isdigit c = false) (r : List UInt8) (dir : Bool)
    (stat status cmdline : File) (s : σ) :
    p.turn s ⟨c :: r, dir, stat, status, cmdline⟩ = .next s []

section

variable {σ : Type} {p : Lister σ} {I : σ → Prop} {good : Process → Prop} {es : List Entry}
  {ps : List Process}

/-- A turn that goes on. -/
theorem walk_next {s s' : σ} {e : Entry} {out : List Printed} (h : p.turn s e = .next s' out)
    (es : List Entry) : p.after s (e :: es) = p.after s' es ∧
      shown (p.printed (.loop s) (e :: es)) = shown out ++ shown (p.printed (.loop s') es) := by
  rw [Lister.after, Run.after_cons, Lister.printed_cons, Lister.step_next h, shown_append]
  exact ⟨rfl, rfl⟩

theorem Prints.walk (h : Prints p I good) (hd : Directory es ps) (s : σ) :
    (∃ s', p.after s es = .loop s') ∧
      ((∀ q ∈ ps, good q) → shown (p.printed (.loop s) es) = ps.map Process.texts) ∧
      (I s → shown (p.printed (.loop s) es) = ps.map Process.texts → ∀ q ∈ ps, good q) := by
  induction hd generalizing s with
  | nil => exact ⟨⟨s, rfl⟩, fun _ => rfl, fun _ _ => nofun⟩
  | @process q es ps hd ih =>
    obtain ⟨s', out, r, ht, hr, hgood, hI⟩ := h.process q s
    obtain ⟨ha, hp⟩ := walk_next ht es
    obtain ⟨hloop, hfine, hrest⟩ := ih s'
    rw [ha, hp, hr, List.map_cons, List.forall_mem_cons, List.singleton_append]
    refine ⟨hloop, fun hg => ?_, fun hs he => ?_⟩
    · rw [hgood hg.1, hfine hg.2]
    · obtain ⟨hr, hrows⟩ := List.cons.inj he
      exact ⟨(hI hs).2 hr, hrest (hI hs).1 hrows⟩
  | @gone n hn dir cmdline es ps hd ih =>
    obtain ⟨out, ht, hout⟩ := h.gone hn dir cmdline s
    obtain ⟨ha, hp⟩ := walk_next ht es
    rw [ha, hp, hout]
    exact ih s
  | @other c hc r dir stat status cmdline es ps hd ih =>
    obtain ⟨ha, hp⟩ := walk_next (h.other hc r dir stat status cmdline s) es
    rw [ha, hp]
    exact ih s

/-- The table is right just if it can be of every process. -/
theorem Prints.tabulates_iff (h : Prints p I good) (hd : Directory es ps) {s : σ} :
    ((∀ q ∈ ps, good q) → Tabulates p s es ps) ∧
      (I s → Tabulates p s es ps → ∀ q ∈ ps, good q) := by
  obtain ⟨⟨s', ha⟩, hfine, hrest⟩ := h.walk hd s
  have hmain : p.main s (some es) = some ⟨0, true, p.heading ++ p.printed (.loop s) es⟩ := by
    simp only [Lister.main, ha]
    rfl
  refine ⟨fun hg => ⟨_, hmain, hfine hg⟩, fun hs ht => hrest hs ?_⟩
  obtain ⟨body, hb, hsh⟩ := ht
  rw [hmain] at hb
  obtain rfl : p.printed (.loop s) es = body := by simpa using hb
  exact hsh

end

/-! ## The programs -/

theorem prints_procesos : Prints procesos (fun _ => True) fun q => ∀ c ∈ q.name, isspace c = false where
  process q s := by
    obtain ⟨v, ht, hv⟩ := Procesos.procesos_row q
    have hi := procesos_shown_iff q
    rw [Process.ShownBy, ht] at hi
    refine ⟨(), _, _, ht, rfl, fun hg => ?_, fun _ => ⟨trivial, fun hr => hi.mp ?_⟩⟩
    · exact (List.cons.inj (hi.mpr hg)).1
    · exact congrArg (fun r => [r]) hr
  gone {n} hn dir cmdline s := by
    have hd : Procesos.esNumero (decimal n) := List.all_eq_true.mpr fun c => isdigit_of_mem_decimal
    have hl := length_decimal_of_lt hn
    refine ⟨[], ?_, rfl⟩
    simp only [procesos, if_pos hd, List.length_append, File.opened]
    exact if_pos (show 6 + (decimal n).length + 7 < 256 by omega)
  other {c} hc r dir stat status cmdline s := by
    have hd : ¬ Procesos.esNumero (c :: r) := by simp [Procesos.esNumero, hc]
    simp only [procesos, if_neg hd]

theorem prints_examen2 : Prints examen2 (fun _ => True) fun q =>
    (∀ c ∈ q.name, Impl.Examen2.blank c) ∨ Stops Impl.Examen2.blank q.name where
  process q s := by
    have hi := examen2_shown_iff q
    rw [Process.ShownBy, Examen2.examen2_row] at hi
    refine ⟨(), _, _, Examen2.examen2_row q, rfl, fun hg => ?_, fun _ => ⟨trivial, fun hr => hi.mp ?_⟩⟩
    · exact (List.cons.inj (hi.mpr hg)).1
    · exact congrArg (fun r => [r]) hr
  gone {n} hn dir cmdline s := by
    refine ⟨[], ?_, rfl⟩
    simp only [examen2, File.opened]
    split <;> rfl
  other {c} hc r dir stat status cmdline s := by
    have hd : ¬ (dir && Impl.Examen2.esNumero (c :: r)) := by simp [Impl.Examen2.esNumero, hc]
    simp only [examen2, if_neg hd]

/-- `comm` holds a name that is not empty and has no `)`. -/
def Named (s : ProcStat) : Prop := ∃ w, s.comm.cstr = some w ∧ w ≠ [] ∧ ')'.toUInt8 ∉ w

/-- A process whose name has nothing before its first `)` leaves `comm` as it is. -/
theorem scan_unnamed (q : Process) (s : ProcStat) (ha : q.name.takeWhile (· ≠ ')'.toUInt8) = []) :
    sscanf (firstRead q.stat) format s = some (1, ProcStat.put .pid (Spec.d.conv q.pid) s) := by
  obtain ⟨R, -, ht⟩ := firstRead_stat q
  have hw : ∀ b ∈ utf8 " ", isspace b := List.all_eq_true.mp rfl
  rw [ht]
  exact (scan_named s (q.name_length.trans (by decide)) q.name_plain.2.2
    (fun _ => number_head (v := q.pid) hw) hw).1 ha

theorem Named.process (q : Process) {s s' : ProcStat} {ret : Int} (hs : Named s)
    (hi : getProcInfo s q.entry.dName q.entry.stat = some ⟨ret, s', []⟩) (ht : Taken q s s') :
    Named s' := by
  rcases eq_or_ne (q.name.takeWhile (· ≠ ')'.toUInt8)) [] with ha | ha
  · have hne : q.stat ≠ [] := by
      intro h
      simp only [Process.stat, List.append_eq_nil_iff] at h
      exact decimal_ne_nil q.pid h.1.1.1.1.1.1.1
    rw [getProcInfo_text s _ rfl hne, scan_unnamed q s ha] at hi
    cases hi
    exact hs
  · exact ⟨_, ht.comm ha, ha, notMem_takeWhile_ne q.name⟩

theorem numeric_decimal {e : Entry} {n : Nat} (he : e.dName = decimal n) : numeric e := by
  have hd := isdigit_of_mem_decimal (List.head_mem (decimal_ne_nil n))
  rw [numeric, he, List.headD_eq_head?_getD, List.head?_eq_some_head (decimal_ne_nil n)]
  exact hd

theorem prints_examenP2 : Prints examenP2 Named fun q => q.name ≠ [] ∧ ')'.toUInt8 ∉ q.name where
  process q s := by
    obtain ⟨ret, s', hi, hr, ht⟩ := info_process q s
    have hturn := shows_examenP2.shown (numeric_decimal rfl) hi hr
    refine ⟨s', _, _, hturn, rfl, fun hg => ?_, fun hs => ⟨hs.process q hi ht, fun he => ?_⟩⟩
    · have hsh := (examenP2_shown_iff q).mpr hg s
      rw [Process.ShownBy, hturn] at hsh
      exact (List.cons.inj hsh).1
    · -- the name shown is what `comm` holds
      obtain ⟨w, hw, hne, hp⟩ := hs.process q hi ht
      have hname : s'.comm.cstr = some q.name := congrArg (fun r => r.2.2) he
      obtain rfl : w = q.name := Option.some.inj (hw.symm.trans hname)
      exact ⟨hne, hp⟩
  gone {n} hn dir cmdline s := by
    refine ⟨[.printf "No pude abrir el archivo de proceso: %s"
      [.s (some (statFilename (decimal n)))]], ?_, rfl⟩
    simp only [examenP2, if_pos (numeric_decimal (e := ⟨decimal n, dir, .absent, .absent, cmdline⟩) rfl),
      getProcInfo, File.opened, if_true]
  other {c} hc r dir stat status cmdline s := shows_examenP2.other (by simp [numeric, hc])

/-- The three programs print one row for each process of a directory, with its PID,
PPID and name, whatever `status` held, just if no process's name is empty or has a
`)` or white space. -/
theorem tables_agree_iff {es : List Entry} {ps : List Process} (hd : Directory es ps) :
    (∀ s, Tabulates examenP2 s es ps ∧ Tabulates procesos () es ps ∧ Tabulates examen2 () es ps) ↔
      ∀ p ∈ ps, p.name ≠ [] ∧ ∀ c ∈ p.name, c ≠ ')'.toUInt8 ∧ isspace c = false := by
  have hq := prints_procesos.tabulates_iff hd (s := ())
  constructor
  · intro h
    -- a memory in which `comm` is a name
    have hs : Named ⟨fun _ => 0, .ofBytes (utf8 "a"), 0⟩ := ⟨utf8 "a", rfl, by decide, by decide⟩
    have hg := (prints_examenP2.tabulates_iff hd).2 hs (h _).1
    have hw := hq.2 trivial (h ⟨fun _ => 0, .ofBytes [], 0⟩).2.1
    exact fun p hp => ⟨(hg p hp).1, fun c hc => ⟨fun e => (hg p hp).2 (e ▸ hc), hw p hp c hc⟩⟩
  · intro h s
    refine ⟨(prints_examenP2.tabulates_iff hd).1 fun p hp => ?_, hq.1 fun p hp c hc => ?_,
      (prints_examen2.tabulates_iff hd).1 fun p hp => .inr fun c hc => ?_⟩
    · exact ⟨(h p hp).1, fun hc => ((h p hp).2 _ hc).1 rfl⟩
    · exact ((h p hp).2 c hc).2
    · exact Examen2.blank_of_not_isspace ((h p hp).2 c (List.mem_of_mem_head? hc)).2

/-- Process 101, which has gone. -/
def gone : Entry := ⟨decimal 101, true, .absent, .absent, .absent⟩

theorem tables_agree_sh :
    Tabulates examenP2 zeroed [(child (utf8 "sh") [] (by decide) (by decide)).entry, gone]
      [child (utf8 "sh") [] (by decide) (by decide)] ∧
    Tabulates procesos () [(child (utf8 "sh") [] (by decide) (by decide)).entry, gone]
      [child (utf8 "sh") [] (by decide) (by decide)] ∧
    Tabulates examen2 () [(child (utf8 "sh") [] (by decide) (by decide)).entry, gone]
      [child (utf8 "sh") [] (by decide) (by decide)] := by
  have hname : ∀ p ∈ [child (utf8 "sh") [] (by decide) (by decide)],
      p.name ≠ [] ∧ ∀ c ∈ p.name, c ≠ ')'.toUInt8 ∧ isspace c = false := by
    rw [List.forall_mem_singleton]
    refine ⟨by decide, fun c hc => ?_⟩
    have hm : c ∈ ['s'.toUInt8, 'h'.toUInt8] := hc
    rw [List.mem_cons, List.mem_singleton] at hm
    rcases hm with rfl | rfl <;> decide
  exact (tables_agree_iff (.process _ (.gone 101 (by decide) true .absent .nil))).mpr hname zeroed

end SO.Proof.Listers
