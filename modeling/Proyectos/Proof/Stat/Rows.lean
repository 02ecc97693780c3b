import Proyectos.Proof.Stat.Scan

/-!
# `ExamenP2.c` and `proc.c`: what a row depends on

`get_proc_info` either does not get as far as `ppid` or replaces the name, the
PID and the PPID, so a row is of the entry's own file just if that file has
nothing to read or starts as a line of `stat` does (`Determined`):

* `info_determined`: what `get_proc_info` leaves for such a file, whatever
  `status` held.
* `info_stale`: for any other file `ppid` is the one of an earlier entry.
* `rows_own_iff`: the rows of both programs.
-/

namespace SO.Proof.Stat

open SO.Impl.Stat SO.Impl.Stat.ProcStat SO.Spec.Procfs

variable (s : ProcStat) (pid : List UInt8)

/-! ## `get_proc_info` -/

/-- The file is opened and read. -/
theorem getProcInfo_text {f : File} {t : List UInt8} (hf : f.opened = some t) (ht : t ≠ []) :
    getProcInfo s pid f =
      (sscanf (firstRead t) format s).map fun r => { ret := r.1, stat := r.2 } := by
  simp only [getProcInfo, hf, fgets, if_neg ht]
  rfl

theorem noNul_firstRead (t : List UInt8) : 0 ∉ firstRead t := by
  intro h
  simpa using List.mem_takeWhile_imp h

/-- The parts of `status` that the programs print. -/
structure Shown (s s' : ProcStat) : Prop where
  pid : s.num .pid = s'.num .pid
  comm : s.comm.cstr = s'.comm.cstr
  ppid : s.num .ppid = s'.num .ppid

/-- A file that leaves nothing to chance: nothing is read of it, or all that the
programs print. -/
theorem info_determined {f : File} (h : Determined f) :
    (∃ out, ∀ s, getProcInfo s pid f = some ⟨-1, s, out⟩) ∨
      ∃ s₀, ∀ s, ∃ ret s', getProcInfo s pid f = some ⟨ret, s', []⟩ ∧ ret ≠ -1 ∧ Shown s' s₀ := by
  rcases hf : f.opened with _ | t
  · refine .inl ⟨[.printf "No pude abrir el archivo de proceso: %s" [.s (some (statFilename pid))]],
      fun s => ?_⟩
    simp only [getProcInfo, hf]
  rcases eq_or_ne t [] with rfl | ht
  · refine .inl ⟨[.perror "Error al leer el archivo"], fun s => ?_⟩
    simp only [getProcInfo, hf]
    rfl
  rcases h t hf with hb | ⟨u, a, v, hl⟩
  · refine .inl ⟨[], fun s => ?_⟩
    rw [getProcInfo_text s pid hf ht, scan_blank s hb]
    rfl
  · refine .inr ⟨put .ppid (Spec.d.conv v) (putComm a (put .pid (Spec.d.conv u)
      { num := fun _ => 0, comm := .ofBytes [], state := 0 })), fun s => ?_⟩
    obtain ⟨k, s', hs, hk, hu, ha, hv⟩ := scan_legible s hl (noNul_firstRead t)
    have h0 : 0 ∉ a := fun hm => noNul_firstRead t (hl.name_subset hm)
    refine ⟨k, s', ?_, by omega, ?_, ?_, ?_⟩
    · rw [getProcInfo_text s pid hf ht, hs]
      rfl
    · rw [hu, num_put_of_ne _ _ (by decide), num_putComm, num_put_self]
    · rw [ha, comm_put, comm_putComm, Buf.cstr_putStr _ h0 hl.name_length]
    · rw [hv, num_put_self]

/-- Any other file leaves `ppid` as it was. -/
theorem info_stale {f : File} (h : ¬ Determined f) :
    ∀ i ∈ getProcInfo s pid f, i.ret ≠ -1 ∧ i.out = [] ∧ i.stat.num .ppid = s.num .ppid := by
  unfold Determined at h
  push Not at h
  obtain ⟨t, hf, hb, hl⟩ := h
  have hb : ¬ ∀ b ∈ firstRead t, isspace b := by
    obtain ⟨b, hm, hb⟩ := hb
    exact fun h => hb (h b hm)
  have ht : t ≠ [] := by
    rintro rfl
    exact hb fun b hm => absurd hm List.not_mem_nil
  intro i hi
  rw [getProcInfo_text s pid hf ht, Option.mem_map] at hi
  obtain ⟨r, hr, rfl⟩ := hi
  obtain ⟨h0, hp⟩ := scan_illegible s hl hb r hr
  have h1 : r.1 ≠ -1 := by omega
  exact ⟨h1, rfl, hp⟩

/-! ## The programs -/

/-- What both programs do with an entry, in terms of `get_proc_info`; `row` is
the row they print. -/
structure Shows (p : Lister ProcStat) (row : Entry → ProcStat → Printed) : Prop where
  other {s e} : ¬ numeric e → p.turn s e = .next s []
  abort {s e} : numeric e → getProcInfo s e.dName e.stat = none → p.turn s e = .abort
  gone {e out} : numeric e → (∀ s, getProcInfo s e.dName e.stat = some ⟨-1, s, out⟩) →
    ∃ out', ∀ s, rows (p.turn s e) = some out'
  shown {s e i} : numeric e → getProcInfo s e.dName e.stat = some i → i.ret ≠ -1 →
    p.turn s e = .next i.stat (i.out ++ [row e i.stat])
  row_congr {e s s'} : Shown s s' → (row e s).columns.tail = (row e s').columns.tail
  row_ppid {e s s'} : (row e s).columns.tail = (row e s').columns.tail → s.num .ppid = s'.num .ppid

theorem shows_examenP2 : Shows examenP2 fun _ s => .printf "%-8d %-8d %-25s %-10s\n"
    [.d (s.num .pid), .d (s.num .ppid), .s s.comm.cstr, .s (some (tipo s))] where
  other h := by simp only [examenP2, if_neg h]
  abort h hi := by simp only [examenP2, if_pos h, hi]
  gone {e out} h hi := by
    refine ⟨out.map fun p => p.columns.tail, fun s => ?_⟩
    simp only [examenP2, if_pos h, hi, if_true, rows]
  shown h hi hr := by simp only [examenP2, if_pos h, hi, if_neg hr]
  row_congr h := by simp only [Printed.columns, tipo, h.pid, h.comm, h.ppid, List.map_cons, Arg.text,
    List.tail_cons]
  row_ppid h := by
    simp only [Printed.columns, List.map_cons, Arg.text, List.tail_cons, List.cons.injEq,
      Option.some.injEq] at h
    exact decimalInt_injective h.1

theorem shows_proc : Shows proc fun e s => .printf "PID: %s, PPID: %d nombre: %s\n"
    [.s (some e.dName), .d (s.num .ppid), .s s.comm.cstr] where
  other h := by simp only [proc, if_neg h]
  abort h hi := by simp only [proc, if_pos h, hi]
  gone {e out} h hi := by
    refine ⟨(out ++ [Printed.printf "Error leyendo archivo de proceso: /proc/%s/stat\n"
      [.s (some e.dName)]]).map fun p : Printed => p.columns.tail, fun s => ?_⟩
    simp only [proc, if_pos h, hi, if_true, rows]
  shown h hi hr := by simp only [proc, if_pos h, hi, if_neg hr]
  row_congr h := by simp only [Printed.columns, h.comm, h.ppid, List.map_cons, Arg.text,
    List.tail_cons]
  row_ppid h := by
    simp only [Printed.columns, List.map_cons, Arg.text, List.tail_cons, List.cons.injEq,
      Option.some.injEq] at h
    exact decimalInt_injective h.1

/-! ## Stale rows -/

/-- A file whose `ppid` is 0 or 1. -/
def plain (b : Bool) : File := .text (utf8 (if b then "1 (a) S 1\n" else "1 (a) S 0\n"))

/-- Its `ppid`. -/
def plainPpid (b : Bool) : Int := if b then 1 else 0

theorem legible_plain (b : Bool) :
    Legible (firstRead (utf8 (if b then "1 (a) S 1\n" else "1 (a) S 0\n"))) 1 (utf8 "a")
      (plainPpid b) := by
  have hw : ∀ c ∈ utf8 " ", isspace c := List.all_eq_true.mp rfl
  refine ⟨utf8 " ", utf8 " ", 'S'.toUInt8, utf8 (if b then " 1\n" else " 0\n"), [nl],
    ?_, hw, by decide, by decide, by decide, hw, by decide, ?_⟩
  · cases b <;> exact number_decimalInt (w := []) (by simp) 1 (by decide)
  · rcases b with _ | _
    · exact number_decimalInt hw 0 (by decide)
    · exact number_decimalInt hw 1 (by decide)

/-- An entry with such a file. -/
def plainEntry (b : Bool) (e : Entry) : Entry := { e with stat := plain b }

section Main

variable {p : Lister ProcStat} {row : Entry → ProcStat → Printed} (hp : Shows p row)
include hp

/-- The turn of such an entry. -/
theorem turn_plain (b : Bool) (s : ProcStat) {e : Entry} (he : numeric e) :
    ∃ s' out, p.turn s (plainEntry b e) = .next s' out ∧ s'.num .ppid = plainPpid b := by
  obtain ⟨k, s', hk, h4, -, -, hv⟩ := scan_legible s (legible_plain b) (noNul_firstRead _)
  have hi : getProcInfo s (plainEntry b e).dName (plainEntry b e).stat = some ⟨k, s', []⟩ := by
    rw [getProcInfo_text s _ rfl (by cases b <;> decide), hk]
    rfl
  have hr : k ≠ -1 := by omega
  refine ⟨s', _, hp.shown (show numeric (plainEntry b e) from he) hi hr, ?_⟩
  rw [hv]
  cases b <;> decide

/-- After such entries, `ppid` is theirs. -/
theorem after_plain (b : Bool) {s : ProcStat} (hs : s.num .ppid = plainPpid b) (l : List Entry) :
    ∃ s', p.after s (l.map (plainEntry b)) = .loop s' ∧ s'.num .ppid = plainPpid b := by
  induction l generalizing s with
  | nil => exact ⟨s, rfl, hs⟩
  | cons e l ih =>
    by_cases he : numeric e
    · obtain ⟨s', out, ht, hv⟩ := turn_plain hp b s he
      obtain ⟨s'', ha, hs''⟩ := ih hv
      refine ⟨s'', ?_, hs''⟩
      rw [← ha, List.map_cons, Lister.after, Run.after_cons]
      simp only [Lister.step, ht]
    · obtain ⟨s', ha, hs'⟩ := ih hs
      refine ⟨s', ?_, hs'⟩
      rw [← ha, List.map_cons, Lister.after, Run.after_cons]
      simp only [Lister.step, hp.other (e := plainEntry b e) he]

/-- What an entry's turn prints, if its file is not `Determined`, tells the
`ppid` found there. -/
theorem rows_stale {s s' : ProcStat} {e : Entry} (he : numeric e) (h : ¬ Determined e.stat)
    {out : List (List (Option (List UInt8)))} (hs : rows (p.turn s e) = some out)
    (hs' : rows (p.turn s' e) = some out) : s.num .ppid = s'.num .ppid := by
  have hrow {s : ProcStat} (hs : rows (p.turn s e) = some out) :
      ∃ s₁, out = [(row e s₁).columns.tail] ∧ s₁.num .ppid = s.num .ppid := by
    rcases hi : getProcInfo s e.dName e.stat with _ | i
    · rw [hp.abort he hi] at hs
      cases hs
    · obtain ⟨hr, ho, hv⟩ := info_stale s _ h i hi
      rw [hp.shown he hi hr, ho] at hs
      exact ⟨i.stat, (Option.some.inj hs).symm, hv⟩
  obtain ⟨s₁, rfl, h₁⟩ := hrow hs
  obtain ⟨s₂, h₂, h₃⟩ := hrow hs'
  rw [← h₁, ← h₃]
  exact hp.row_ppid (List.cons.inj h₂).1

/-- Each row is of the entry's own file just if each file is `Determined`. -/
theorem rowsOwn_iff (es : List Entry) :
    RowsOwn p es ↔ ∀ e ∈ es, numeric e → Determined e.stat := by
  constructor
  · intro h e hm he
    by_contra hd
    obtain ⟨l, r, rfl⟩ := List.append_of_mem hm
    obtain ⟨out, hout⟩ := h l e r rfl he
    have hb (b : Bool) : ∃ s' : ProcStat, rows (p.turn s' e) = some out ∧
        s'.num .ppid = plainPpid b := by
      obtain ⟨s', ha, hs'⟩ := after_plain hp b (s := ⟨fun _ => plainPpid b, .ofBytes [], 0⟩) rfl l
      have hn : (l.map (plainEntry b)).map Entry.dName = l.map Entry.dName := by
        rw [List.map_map]
        rfl
      exact ⟨s', hout _ _ s' hn ha, hs'⟩
    obtain ⟨s₀, h₀, hp₀⟩ := hb false
    obtain ⟨s₁, h₁, hp₁⟩ := hb true
    have := rows_stale hp he hd h₀ h₁
    rw [hp₀, hp₁] at this
    exact absurd this (by decide)
  · intro h l e r hes he
    rcases info_determined e.dName (h e (hes ▸ by simp) he) with ⟨out, ho⟩ | ⟨s₀, hs₀⟩
    · obtain ⟨out', ho'⟩ := hp.gone he ho
      exact ⟨out', fun _ _ s' _ _ => ho' s'⟩
    · refine ⟨[(row e s₀).columns.tail], fun _ _ s' _ _ => ?_⟩
      obtain ⟨ret, s₁, hi, hr, hsh⟩ := hs₀ s'
      rw [hp.shown he hi hr]
      show some [(row e s₁).columns.tail] = _
      rw [hp.row_congr hsh]

end Main

/-- Each row of `ExamenP2.c` and of `proc.c` is of its own process just if the
stat file of each numeric entry cannot be read, is blank in its first line, or
starts as a line of `stat` does. -/
theorem rows_own_iff (es : List Entry) :
    (RowsOwn examenP2 es ↔ ∀ e ∈ es, numeric e → Determined e.stat) ∧
      (RowsOwn proc es ↔ ∀ e ∈ es, numeric e → Determined e.stat) :=
  ⟨rowsOwn_iff shows_examenP2 es, rowsOwn_iff shows_proc es⟩

/-- Process 2, whose name is `b)c`: its `ppid` is not reached. -/
def unread : Entry := ⟨utf8 "2", true, .text (utf8 "2 (b)c) S 1\n"), .absent, .absent⟩

/-- Process 1. -/
def initProc : Entry := ⟨utf8 "1", true, plain false, .absent, .absent⟩

/-- `status`, all zeros. -/
def zeroed : ProcStat := ⟨fun _ => 0, .ofBytes [], 0⟩

theorem scan_unread (s : ProcStat) :
    (sscanf (firstRead (utf8 "2 (b)c) S 1\n")) format s).map Prod.fst = some 3 := rfl

theorem not_determined_unread : ¬ Determined unread.stat := by
  intro h
  rcases h _ rfl with hb | ⟨u, a, v, hl⟩
  · revert hb
    decide
  · obtain ⟨k, s', hs, hk, -⟩ := scan_legible zeroed hl (noNul_firstRead _)
    have h3 := scan_unread zeroed
    rw [hs] at h3
    cases h3
    exact absurd hk (by decide)

/-- The row of process 2 is not its own. From the same memory, a change to the
file of process 1 changes it. -/
theorem row_of_another : ¬ RowsOwn examenP2 [initProc, unread] ∧
    ∃ s₀ s₁, examenP2.after zeroed [plainEntry false initProc] = .loop s₀ ∧
      examenP2.after zeroed [plainEntry true initProc] = .loop s₁ ∧
      rows (examenP2.turn s₀ unread) ≠ rows (examenP2.turn s₁ unread) := by
  have hown : ¬ RowsOwn examenP2 [initProc, unread] := fun h =>
    not_determined_unread ((rowsOwn_iff shows_examenP2 _).mp h unread (by simp) (by decide))
  refine ⟨hown, ?_⟩
  obtain ⟨s₀, o₀, h₀, hp₀⟩ := turn_plain shows_examenP2 false zeroed (e := initProc) (by decide)
  obtain ⟨s₁, o₁, h₁, hp₁⟩ := turn_plain shows_examenP2 true zeroed (e := initProc) (by decide)
  have ha {b : Bool} {s : ProcStat} {o : List Printed}
      (h : examenP2.turn zeroed (plainEntry b initProc) = .next s o) :
      examenP2.after zeroed [plainEntry b initProc] = .loop s := by
    rw [Lister.after, Run.after_cons]
    simp only [Lister.step, h, Run.after_nil]
  refine ⟨s₀, s₁, ha h₀, ha h₁, fun he => ?_⟩
  rcases hi : sscanf (firstRead (utf8 "2 (b)c) S 1\n")) format s₀ with _ | ⟨k, s⟩
  · have h3 := scan_unread s₀
    rw [hi] at h3
    cases h3
  · have hg : getProcInfo s₀ unread.dName unread.stat = some ⟨k, s, []⟩ := by
      rw [getProcInfo_text s₀ _ rfl (by decide), hi]
      rfl
    have hr := congrArg rows (shows_examenP2.shown (by decide) hg
      (info_stale s₀ _ not_determined_unread _ hg).1)
    have := rows_stale shows_examenP2 (by decide) not_determined_unread hr (he ▸ hr)
    rw [hp₀, hp₁] at this
    exact absurd this (by decide)

end SO.Proof.Stat
