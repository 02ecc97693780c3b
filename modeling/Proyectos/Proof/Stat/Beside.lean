import Proyectos.Proof.Stat.Vanished
import Proyectos.Proof.Walk

/-!
# `proc.c` beside `ExamenP2.c`

Both abort at a name that is written past `comm` (`aborts_iff`), `proc.c` only if
it gets so far. Where `ExamenP2.c` comes to the end of the directory, `proc.c`
does not abort, and prints the first of the other's rows, with the same PPID and
name: `status` is the same before each turn that both make. It prints all of them
just if no process that can be read comes after one that cannot (`proc_prefix`).
-/

namespace SO.Proof.Stat

open SO.Impl SO.Impl.Stat SO.Spec.Procfs

variable {s s' : ProcStat} {e : Entry} {es : List Entry} {i : Info}

/-! ## `get_proc_info` -/

theorem info_overruns (h : Overruns e) (s : ProcStat) : getProcInfo s e.dName e.stat = none := by
  obtain ⟨-, t, hf, hl⟩ := h
  have ht : t ≠ [] := by
    rintro rfl
    obtain ⟨u, w, r, ⟨b, sg, ds, hn, -⟩, -⟩ := hl
    simp [firstRead, firstLine, cstring] at hn
  rw [getProcInfo_text s _ hf ht, scan_overlong hl]
  rfl

/-- A readable file's name fits. -/
theorem not_overruns (h : Readable e.stat) : ¬ Overruns e := by
  rintro ⟨-, t, hf, hl⟩
  obtain ⟨t', hf', -, hl'⟩ := h
  rw [hf] at hf'
  cases hf'
  exact hl' hl

/-- Nothing is read of any other file, and it is told. -/
theorem info_gone (h : ¬ Readable e.stat) (ho : ¬ Overruns e) (he : numeric e) (s : ProcStat) :
    ∃ out, getProcInfo s e.dName e.stat = some ⟨-1, s, out⟩ ∧ out.filterMap parentName? = [] := by
  rcases hf : e.stat.opened with _ | t
  · refine ⟨[.printf "No pude abrir el archivo de proceso: %s" [.s (some (statFilename e.dName))]],
      ?_, rfl⟩
    simp only [getProcInfo, hf]
  rcases eq_or_ne t [] with rfl | ht
  · refine ⟨[.perror "Error al leer el archivo"], ?_, rfl⟩
    simp only [getProcInfo, hf]
    rfl
  have hl : ¬ Overlong (firstRead t) := fun hl => ho ⟨he, t, hf, hl⟩
  have hb : ∀ b ∈ firstRead t, isspace b := by
    by_contra hb
    exact h ⟨t, hf, hb, hl⟩
  refine ⟨[], ?_, rfl⟩
  rw [getProcInfo_text s _ hf ht, scan_blank s hb]
  rfl

/-! ## The turns -/

/-- The turns of both, at one entry. -/
inductive Turns (e : Entry) (s : ProcStat) : Prop
  | other (he : ¬ numeric e) (hp : proc.turn s e = .next s []) (hq : examenP2.turn s e = .next s [])
  | abort (ho : Overruns e) (hp : proc.turn s e = .abort) (hq : examenP2.turn s e = .abort)
  | gone (he : numeric e) (hr : ¬ Readable e.stat) (ho : ¬ Overruns e) (out out' : List Printed)
    (hp : proc.turn s e = .ret 1 out) (hq : examenP2.turn s e = .next s out')
    (hout : out.filterMap parentName? = []) (hout' : out'.filterMap parentName? = [])
  | shown (he : numeric e) (hr : Readable e.stat) (s' : ProcStat) (row row' : Printed)
    (hp : proc.turn s e = .next s' [row]) (hq : examenP2.turn s e = .next s' [row'])
    (c : Option (List UInt8) × Option (List UInt8)) (hrow : parentName? row = some c)
    (hrow' : parentName? row' = some c)

theorem turns (e : Entry) (s : ProcStat) : Turns e s := by
  by_cases he : numeric e
  swap
  · exact .other he (shows_proc.other he) (shows_examenP2.other he)
  by_cases hr : Readable e.stat
  · obtain ⟨ret, s', hi, hret⟩ := info_readable hr s e.dName
    exact .shown he hr s' _ _ (shows_proc.shown he hi hret) (shows_examenP2.shown he hi hret)
      (some (decimalInt (s'.num .ppid)), s'.comm.cstr) rfl rfl
  by_cases ho : Overruns e
  · have hi := info_overruns ho s
    exact .abort ho (shows_proc.abort he hi) (shows_examenP2.abort he hi)
  · obtain ⟨out, hi, hout⟩ := info_gone hr ho he s
    refine .gone he hr ho (out ++ [.printf "Error leyendo archivo de proceso: /proc/%s/stat\n"
      [.s (some e.dName)]]) out ?_ ?_ ?_ hout
    · simp only [proc, if_pos he, hi, if_true]
    · simp only [examenP2, if_pos he, hi, if_true]
    · rw [List.filterMap_append, hout]
      rfl

theorem ends_examenP2 : examenP2.Ends Overruns fun _ => False where
  abort {e} h s := shows_examenP2.abort h.1 (info_overruns h s)
  ret _ h := absurd h id
  next {e} h _ s := by
    rcases turns e s with ⟨-, -, hq⟩ | ⟨ho, -, -⟩ | ⟨-, -, -, out, out', -, hq, -, -⟩ |
      ⟨-, -, s', row, row', -, hq, -, -, -⟩
    · exact ⟨s, [], hq⟩
    · exact absurd ho h
    · exact ⟨s, out', hq⟩
    · exact ⟨s', [row'], hq⟩

theorem ends_proc : proc.Ends Overruns fun e => numeric e ∧ ¬ Readable e.stat where
  abort {e} h s := shows_proc.abort h.1 (info_overruns h s)
  ret {e} h hl s := by
    rcases turns e s with ⟨he, -, -⟩ | ⟨ho, -, -⟩ | ⟨-, -, -, out, out', hp, -, -, -⟩ |
      ⟨-, hr, -⟩
    · exact absurd hl.1 he
    · exact absurd ho h
    · exact ⟨1, out, hp⟩
    · exact absurd hr hl.2
  next {e} h hl s := by
    rcases turns e s with ⟨-, hp, -⟩ | ⟨ho, -, -⟩ | ⟨he, hr, -⟩ | ⟨-, -, s', row, row', hp, -, -, -, -⟩
    · exact ⟨s, [], hp⟩
    · exact absurd ho h
    · exact absurd ⟨he, hr⟩ hl
    · exact ⟨s', [row], hp⟩

/-! ## The directory -/

/-- A name is written past `comm` just if it is as long as `comm` and its process
is come to: by `ExamenP2.c` always, by `proc.c` if every numeric entry before it
can be read. -/
theorem aborts_iff (s : ProcStat) (es : List Entry) :
    (examenP2.main s (some es) = none ↔ ∃ e ∈ es, Overruns e) ∧
    (proc.main s (some es) = none ↔ ∃ l e r, es = l ++ e :: r ∧ Overruns e ∧
      ∀ e' ∈ l, numeric e' → Readable e'.stat) := by
  refine ⟨ends_examenP2.main_eq_none_iff_exists s es, ?_⟩
  rw [ends_proc.main_eq_none_iff]
  have hgo (e : Entry) : ¬ Overruns e ∧ ¬ (numeric e ∧ ¬ Readable e.stat) ↔
      (numeric e → Readable e.stat) := by
    constructor
    · rintro ⟨-, hr⟩ he
      by_contra hn
      exact hr ⟨he, hn⟩
    · exact fun h => ⟨fun ho => not_overruns (h ho.1) ho, fun hl => hl.2 (h hl.1)⟩
  simp only [hgo]

/-- The rows of a program from the phase `ph` on. -/
abbrev links (p : Lister ProcStat) (ph : Phase ProcStat) (es : List Entry) :
    List (Option (List UInt8) × Option (List UInt8)) := (p.printed ph es).filterMap parentName?

/-- The program goes on after this entry. -/
theorem links_next {p : Lister ProcStat} {out : List Printed} (h : p.turn s e = .next s' out)
    (es : List Entry) :
    links p (.loop s) (e :: es) = out.filterMap parentName? ++ links p (.loop s') es := by
  rw [links, Lister.printed_cons, Lister.step_next h, List.filterMap_append]

/-- `ExamenP2.c` prints a row just if some process can be read. -/
theorem links_eq_nil (h : ∀ e ∈ es, ¬ Overruns e) (s : ProcStat) :
    links examenP2 (.loop s) es = [] ↔ ∀ e ∈ es, numeric e → ¬ Readable e.stat := by
  induction es generalizing s with
  | nil => simp [links, Lister.printed]
  | cons e es ih =>
    have ih := ih fun e hm => h e (List.mem_cons_of_mem _ hm)
    rw [List.forall_mem_cons]
    rcases turns e s with ⟨he, -, hq⟩ | ⟨ho, -, -⟩ | ⟨he, hr, -, -, out', -, hq, -, hout'⟩ |
      ⟨he, hr, s', -, row', -, hq, c, -, hrow'⟩
    · rw [links_next hq, List.filterMap_nil, List.nil_append, ih]
      exact ⟨fun hs => ⟨fun hn => absurd hn he, hs⟩, And.right⟩
    · exact absurd ho (h e List.mem_cons_self)
    · rw [links_next hq, hout', List.nil_append, ih]
      exact ⟨fun hs => ⟨fun _ => hr, hs⟩, And.right⟩
    · rw [links_next hq, List.filterMap_cons_some hrow']
      exact iff_of_false (List.cons_ne_nil _ _) fun hs => hs.1 he hr

theorem readableFirst_cons : ReadableFirst (e :: es) ↔
    (numeric e → ¬ Readable e.stat → ∀ e' ∈ es, numeric e' → ¬ Readable e'.stat) ∧
      ReadableFirst es := by
  unfold ReadableFirst
  by_cases he : numeric e
  · rw [List.filter_cons_of_pos he, List.pairwise_cons]
    refine and_congr_left' ⟨fun h _ hr e' hm he' hr' => ?_, fun h e' hm hr' => ?_⟩
    · exact hr (h e' (List.mem_filter.mpr ⟨hm, he'⟩) hr')
    · obtain ⟨hm, he'⟩ := List.mem_filter.mp hm
      by_contra hr
      exact h he hr e' hm he' hr'
  · rw [List.filter_cons_of_neg he]
    exact ⟨fun h => ⟨fun hn => absurd hn he, h⟩, And.right⟩

/-- What `proc.c` prints, beside what `ExamenP2.c` does. -/
theorem links_prefix (h : ∀ e ∈ es, ¬ Overruns e) (s : ProcStat) :
    links proc (.loop s) es <+: links examenP2 (.loop s) es ∧
      (links proc (.loop s) es = links examenP2 (.loop s) es ↔ ReadableFirst es) := by
  induction es generalizing s with
  | nil => exact ⟨List.prefix_rfl, iff_of_true rfl List.Pairwise.nil⟩
  | cons e es ih =>
    have hes : ∀ e ∈ es, ¬ Overruns e := fun e hm => h e (List.mem_cons_of_mem _ hm)
    rw [readableFirst_cons]
    rcases turns e s with ⟨he, hp, hq⟩ | ⟨ho, -, -⟩ | ⟨he, hr, -, out, out', hp, hq, hout, hout'⟩ |
      ⟨he, hr, s', row, row', hp, hq, c, hrow, hrow'⟩
    · rw [links_next hp, links_next hq]
      refine ⟨(ih hes s).1, (ih hes s).2.trans ?_⟩
      exact ⟨fun hs => ⟨fun hn => absurd hn he, hs⟩, And.right⟩
    · exact absurd ho (h e List.mem_cons_self)
    · -- `proc.c` ends here, so the rest is compared with nothing
      have hend : links proc (.loop s) (e :: es) = [] := by
        rw [links, Lister.printed_cons, Lister.step_ret hp, List.filterMap_append, hout,
          (Lister.ended nofun es).2]
        rfl
      rw [hend, links_next hq, hout', List.nil_append]
      refine ⟨List.nil_prefix, eq_comm.trans ((links_eq_nil hes s).trans ?_)⟩
      refine ⟨fun hs => ⟨fun _ _ => hs, ?_⟩, fun hs => hs.1 he hr⟩
      refine List.pairwise_iff_forall_sublist.mpr fun {a b} hab hb => ?_
      obtain ⟨hm, hn⟩ := List.mem_filter.mp (hab.subset (by simp : b ∈ [a, b]))
      exact absurd hb (hs b hm hn)
    · rw [links_next hp, links_next hq, List.filterMap_cons_some hrow, List.filterMap_cons_some hrow']
      obtain ⟨hpre, heq⟩ := ih hes s'
      refine ⟨List.cons_prefix_cons.mpr ⟨rfl, hpre⟩, ?_⟩
      rw [List.filterMap_nil, List.cons_append, List.cons_append, List.cons_inj_right,
        List.nil_append, List.nil_append, heq]
      exact ⟨fun hs => ⟨fun _ hn => absurd hr hn, hs⟩, And.right⟩

theorem readable_later : Readable later.stat := by
  have h4 : (sscanf (firstRead (utf8 "101 (b) S 1\n")) format zeroed).map Prod.fst = some 4 := rfl
  rcases hs : sscanf (firstRead (utf8 "101 (b) S 1\n")) format zeroed with _ | ⟨k, s'⟩
  · rw [hs] at h4
    cases h4
  · rw [hs] at h4
    cases h4
    exact readable_of_scan hs (by decide)

end SO.Proof.Stat
