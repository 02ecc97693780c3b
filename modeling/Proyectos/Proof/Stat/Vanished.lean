import Proyectos.Proof.Stat.Process

/-!
# `proc.c`: processes that have vanished

`get_proc_info` returns -1 for a file of which nothing can be read, and for no
line of `stat` (`info_readable`, `info_unreadable`). Where `ExamenP2.c` goes on
with the next entry, `proc.c` then ends, and leaves the directory open. So it
lists the processes that are still there just if each numeric entry's file can
be read (`lists_all_iff`, by induction on the entries), as that of a process
which has not vanished can (`readable_process`).
-/

namespace SO.Proof.Stat

open SO.Impl.Stat SO.Impl.Stat.ProcStat SO.Spec.Procfs

variable {t : List UInt8} {f : File} {e : Entry} {es : List Entry}

/-! ## The scan -/

/-- A name that does not fit `comm` is written past its end. -/
theorem scan_overlong (h : Overlong t) (s : ProcStat) : sscanf t format s = none := by
  obtain ⟨u, w, r, hu, hw, hl⟩ := h
  have hs : Stops isspace ('('.toUInt8 :: r) := by rw [stops_cons]; decide
  rw [sscanf, format_eq, scan_stored (apply_int hu), scan_passed apply_space, dropWhile_of_stops hw hs,
    scan_passed (apply_lit _), scan_overrun ((apply_upto_overrun (by decide)).mpr hl)]
  rfl

/-- Nothing else is. -/
theorem scan_fits (h : ¬ Overlong t) (s : ProcStat) : ∃ r, sscanf t format s = some r := by
  have hstop {k : Nat} {s₁ : ProcStat} {o : Scan ProcStat} (ho : o = .stop k s₁) :
      ∃ r, o.result = some r := by
    subst ho
    exact ⟨_, rfl⟩
  by_cases hb : ∀ b ∈ t, isspace b
  · exact ⟨_, scan_blank s hb⟩
  rw [sscanf, format_eq]
  rcases scan_int_or .d (put .pid) _ (.inr hb) s with ⟨u, r₁, hu⟩ | ho
  swap
  · exact hstop ho
  rw [scan_stored (apply_int hu)]
  rcases scan_lit_or '('.toUInt8 _ (Nat.succ_ne_zero 0) r₁ _ with ⟨w, r₂, rfl, hw⟩ | ho
  swap
  · exact hstop ho
  have hs : Stops isspace ('('.toUInt8 :: r₂) := by rw [stops_cons]; decide
  rw [scan_passed apply_space, dropWhile_of_stops hw hs, scan_passed (apply_lit _)]
  refine scan_cons_some (fun ho => h ⟨u, w, r₂, hu, hw, (apply_upto_overrun (by decide)).mp ho⟩) ?_
  refine scan_bounded fun d hd => ?_
  rcases List.mem_cons.mp hd with rfl | hd
  · exact Directive.bounded_lit _
  · exact bounded_tail d hd

/-- A scan of a text that is not blank never returns -1. -/
theorem scan_nonneg (h0 : 0 ∉ t) (hb : ¬ ∀ b ∈ t, isspace b) (s : ProcStat) :
    ∀ r ∈ sscanf t format s, 0 ≤ r.1 := by
  intro r hr
  by_cases hl : ∃ u a v, Legible t u a v
  · obtain ⟨u, a, v, hl⟩ := hl
    obtain ⟨k, s', hs, hk, -⟩ := scan_legible s hl h0
    rw [hs] at hr
    cases hr
    omega
  · exact (scan_illegible s (fun u a v h => hl ⟨u, a, v, h⟩) hb r hr).1

/-! ## `get_proc_info` -/

theorem info_readable (h : Readable f) (s : ProcStat) (pid : List UInt8) :
    ∃ ret s', getProcInfo s pid f = some ⟨ret, s', []⟩ ∧ ret ≠ -1 := by
  obtain ⟨t, hf, hb, hl⟩ := h
  have ht : t ≠ [] := by
    rintro rfl
    exact hb fun b hm => absurd hm List.not_mem_nil
  obtain ⟨⟨k, s'⟩, hs⟩ := scan_fits hl s
  have hk : 0 ≤ k := scan_nonneg (noNul_firstRead t) hb s _ hs
  refine ⟨k, s', ?_, by omega⟩
  rw [getProcInfo_text s pid hf ht, hs]
  rfl

theorem info_unreadable (h : ¬ Readable f) (s : ProcStat) (pid : List UInt8) :
    ∀ i ∈ getProcInfo s pid f, i.ret = -1 := by
  intro i hi
  rcases hf : f.opened with _ | t
  · simp only [getProcInfo, hf] at hi
    cases hi
    rfl
  rcases eq_or_ne t [] with rfl | ht
  · simp only [getProcInfo, hf] at hi
    cases hi
    rfl
  rw [getProcInfo_text s pid hf ht] at hi
  by_cases hb : ∀ b ∈ firstRead t, isspace b
  · rw [scan_blank s hb] at hi
    cases hi
    rfl
  · have hl : Overlong (firstRead t) := not_not.mp fun hl => h ⟨t, hf, hb, hl⟩
    rw [scan_overlong hl] at hi
    cases hi

theorem present_of_readable (h : Readable e.stat) : present e := by
  obtain ⟨t, hf, hb, -⟩ := h
  rcases t with _ | ⟨b, t⟩
  · exact absurd (fun b hm => absurd hm List.not_mem_nil) hb
  · simp only [present, hf]

/-- What `get_proc_info` reads a number from is readable. -/
theorem readable_of_scan {s s' : ProcStat} {k : Int} (h : sscanf (firstRead t) format s = some (k, s'))
    (hk : k ≠ -1) : Readable (.text t) := by
  refine ⟨t, rfl, fun hb => ?_, fun hl => ?_⟩
  · rw [scan_blank s hb] at h
    cases h
    exact hk rfl
  · rw [scan_overlong hl] at h
    cases h

/-- The `stat` of a process is readable, whatever its name. -/
theorem readable_process (p : Process) : Readable p.entry.stat := by
  obtain ⟨k, s', hs, hk, -⟩ := scan_process p zeroed
  exact readable_of_scan hs (by omega)

/-! ## A turn -/

/-- The turn of a process that can be read prints its row. -/
theorem turn_readable (he : numeric e) (h : Readable e.stat) (s : ProcStat) :
    ∃ s' row, proc.turn s e = .next s' [row] ∧ pid? row = some e.dName := by
  obtain ⟨ret, s', hi, hr⟩ := info_readable h s e.dName
  exact ⟨s', _, shows_proc.shown he hi hr, rfl⟩

/-- The turn of one that cannot be ends the program. -/
theorem turn_unreadable (he : numeric e) (h : ¬ Readable e.stat) (s : ProcStat) :
    proc.turn s e = .abort ∨ ∃ out, proc.turn s e = .ret 1 out := by
  rcases hi : getProcInfo s e.dName e.stat with _ | ⟨ret, s', out⟩
  · exact .inl (shows_proc.abort he hi)
  · obtain rfl : ret = -1 := info_unreadable h s e.dName _ hi
    right
    simp only [proc, if_pos he, hi, if_true]
    exact ⟨_, rfl⟩

/-! ## The directory -/

/-- A program that has ended goes no further. -/
theorem after_ended {σ : Type} {p : Lister σ} {ph : Phase σ} (h : ∀ s, ph ≠ .loop s) (es : List Entry) :
    Run.after p.step ph es = ph := by
  induction es with
  | nil => rfl
  | cons e es ih =>
    rcases ph with s | code | _
    · exact absurd rfl (h s)
    · exact ih
    · exact ih

theorem remaining_cons (e : Entry) (es : List Entry) : remaining (e :: es) =
    if numeric e && present e then e :: remaining es else remaining es := List.filter_cons

/-- What the program prints up to the end of a directory it can read. -/
theorem after_readable (h : ∀ e ∈ es, numeric e → Readable e.stat) (s : ProcStat) :
    ∃ s', proc.after s es = .loop s' ∧
      ((Run.steps proc.step (.loop s) es).flatMap (·.out)).filterMap pid? =
        (remaining es).map Entry.dName := by
  induction es generalizing s with
  | nil => exact ⟨s, rfl, rfl⟩
  | cons e es ih =>
    have hes : ∀ e ∈ es, numeric e → Readable e.stat := fun e hm => h e (List.mem_cons_of_mem _ hm)
    rw [remaining_cons, Lister.after, Run.after_cons, Run.steps_cons, List.flatMap_cons,
      List.filterMap_append]
    by_cases he : numeric e
    · have hr := h e List.mem_cons_self he
      obtain ⟨s₁, row, ht, hrow⟩ := turn_readable he hr s
      obtain ⟨s', ha, hout⟩ := ih hes s₁
      have hstep : proc.step (.loop s) e = (.loop s₁, [row]) := by simp only [Lister.step, ht]
      rw [if_pos (Bool.and_eq_true_iff.mpr ⟨he, present_of_readable hr⟩), Run.stepOf, hstep, hout,
        List.filterMap_cons_some hrow]
      exact ⟨s', ha, rfl⟩
    · obtain ⟨s', ha, hout⟩ := ih hes s
      have hstep : proc.step (.loop s) e = (.loop s, []) := by
        simp only [Lister.step, shows_proc.other he]
      rw [if_neg (by simp [he]), Run.stepOf, hstep, hout]
      exact ⟨s', ha, rfl⟩

/-- The program gets to the end of no other. -/
theorem readable_of_after {s s' : ProcStat} (h : proc.after s es = .loop s') :
    ∀ e ∈ es, numeric e → Readable e.stat := by
  induction es generalizing s with
  | nil => exact fun e hm => absurd hm List.not_mem_nil
  | cons e es ih =>
    rw [Lister.after, Run.after_cons] at h
    obtain ⟨s₁, hs₁⟩ : ∃ s₁, (proc.step (.loop s) e).1 = .loop s₁ := by
      by_contra hn
      have hended := after_ended (p := proc) (fun s₁ hs₁ => hn ⟨s₁, hs₁⟩) es
      exact hn ⟨s', hended.symm.trans h⟩
    rw [hs₁] at h
    intro e' hm he
    rcases List.mem_cons.mp hm with rfl | hm
    · by_contra hr
      rcases turn_unreadable he hr s with ht | ⟨out, ht⟩
      · simp only [Lister.step, ht] at hs₁
        cases hs₁
      · simp only [Lister.step, ht] at hs₁
        cases hs₁
    · exact ih h e' hm he

theorem readable_of_listsAll {s : ProcStat} (h : ListsAll s es) :
    ∀ e ∈ es, numeric e → Readable e.stat := by
  obtain ⟨x, hx, hc, -⟩ := h
  simp only [Lister.main] at hx
  rcases ha : proc.after s es with s' | code | _
  · exact readable_of_after ha
  · rw [ha] at hx
    cases hx
    cases hc
  · rw [ha] at hx
    cases hx

/-- `proc.c` lists the processes that are still there, and closes the directory,
just if the file of each numeric entry can be read. -/
theorem lists_all_iff (s : ProcStat) (es : List Entry) :
    ListsAll s es ↔ ∀ e ∈ es, numeric e → Readable e.stat := by
  constructor
  · exact readable_of_listsAll
  · intro h
    obtain ⟨s', ha, hout⟩ := after_readable h s
    refine ⟨⟨0, true, _⟩, ?_, rfl, hout⟩
    simp only [Lister.main, ha]
    rfl

/-- A process that has gone when its turn comes. -/
def vanished : Entry := ⟨utf8 "100", true, .absent, .absent, .absent⟩

/-- The process after it. -/
def later : Entry := ⟨utf8 "101", true, .text (utf8 "101 (b) S 1\n"), .absent, .absent⟩

/-- It hides the process after it. -/
theorem vanished_hides : remaining [initProc, vanished, later] = [initProc, later] ∧
    ¬ ListsAll zeroed [initProc, vanished, later] := by
  refine ⟨by decide, fun h => ?_⟩
  obtain ⟨t, ht, -⟩ := readable_of_listsAll h vanished (by simp) (by decide)
  cases ht

end SO.Proof.Stat
