import Proyectos.Spec.Procfs

/-!
# `procesos.c`: what it reads of a process's status

Of the pieces that `fgets` hands the loop, those of the three lines it looks for
are scanned (`leerLinea_name`, `leerLinea_pid`, `leerLinea_ppid`) and the others
change nothing. By induction on the lines (`Seen`), the loop ends with the
process's numbers and the first word of its name (`leer_status`).
-/

namespace SO.Proof.Status.Procesos

open SO.Impl SO.Impl.Procesos SO.Spec.Procfs

/-- What `%s` reads of a name. -/
def firstWord (n : List UInt8) : List UInt8 := (n.dropWhile isspace).takeWhile fun c => !isspace c

theorem firstWord_eq_nil {n : List UInt8} : firstWord n = [] ↔ ∀ c ∈ n, isspace c := by
  rw [← List.dropWhile_eq_nil_iff]
  have hs := stops_dropWhile (p := isspace) n
  unfold firstWord
  generalize n.dropWhile isspace = r at hs
  rcases r with _ | ⟨c, r⟩
  · simp
  · rw [stops_cons] at hs
    simp [hs]

theorem firstWord_eq_self {n : List UInt8} : firstWord n = n ↔ ∀ c ∈ n, isspace c = false := by
  constructor
  · intro h c hc
    rw [← h] at hc
    simpa using List.mem_takeWhile_imp hc
  · intro h
    have hs : n.dropWhile isspace = n := by
      rw [List.dropWhile_eq_self_iff]
      intro hl
      simpa using h _ (List.getElem_mem hl)
    rw [firstWord, hs, List.takeWhile_eq_self_iff]
    simpa using h

theorem firstWord_sublist (n : List UInt8) : (firstWord n).Sublist n :=
  (List.takeWhile_prefix _).sublist.trans (List.dropWhile_suffix _).sublist

/-! ## The keys -/

/-- The lines looked for. -/
def keys : List String := ["Name:", "Pid:", "PPid:"]

theorem starts_cstring {key : String} {q : List UInt8} (h : starts key (cstring q)) : starts key q :=
  starts_iff.mpr ((starts_iff.mp h).trans (List.takeWhile_prefix _))

variable {p : Process} {l : List UInt8}

/-- What the loop is handed of a line. -/
abbrev chunks (l : List UInt8) : List (List UInt8) := fgetsLinea.all (l ++ [nl])

/-- What is known of a line of the process's status. -/
structure Fine (p : Process) (l : List UInt8) : Prop where
  line : nl ∉ l
  name : starts "Name:" l → l = utf8 "Name:\t" ++ p.name
  pid : starts "Pid:" l → l = utf8 "Pid:\t" ++ decimal p.pid
  ppid : starts "PPid:" l → l = utf8 "PPid:\t" ++ decimal p.ppid
  chunks : ∀ q ∈ (chunks l).tail, ∀ key ∈ keys, starts key q = false

theorem fine (p : Process) : ∀ l ∈ p.status, Fine p l := by
  intro l hl
  exact ⟨p.status_lines l hl, eq_of_starts p.nameLine hl, eq_of_starts p.pidLine hl,
    eq_of_starts p.ppidLine hl, p.status_pieces l hl⟩

/-- Each of the three lines is there. -/
theorem line_mem {key : String} {x : List UInt8} (h : p.status.filter (starts key) = [x]) :
    ∃ l ∈ p.status, starts key l := by
  have hm : x ∈ p.status.filter (starts key) := by rw [h]; exact List.mem_singleton_self x
  exact ⟨x, List.mem_filter.mp hm⟩

/-! ## A piece -/

theorem leerLinea_eq (v : Vars) (q : List UInt8) : leerLinea v q =
    (scanLine "Name:" nameFormat (cstring q) v).bind fun v =>
      (scanLine "Pid:" pidFormat (cstring q) v).bind fun v =>
        scanLine "PPid:" ppidFormat (cstring q) v := rfl

section

variable {key : String} {format : List (Directive Vars)} {t : List UInt8}

theorem scanLine_of_not (h : starts key t = false) (v : Vars) : scanLine key format t v = some v := by
  rw [scanLine, h]
  rfl

theorem scanLine_of (h : starts key t = true) (v : Vars) :
    scanLine key format t v = (sscanf t format v).map Prod.snd := by
  rw [scanLine, h]
  rfl

end

/-- The text starts with no key. -/
def Quiet (t : List UInt8) : Prop := ∀ key ∈ keys, starts key t = false

/-- A piece that starts with no key changes nothing. -/
theorem leerLinea_quiet {q : List UInt8} (h : Quiet q) (v : Vars) : leerLinea v q = some v := by
  have hc : Quiet (cstring q) := by
    intro key hk
    have hq := h key hk
    rw [Bool.eq_false_iff] at hq ⊢
    exact fun hs => hq (starts_cstring hs)
  rw [leerLinea_eq, scanLine_of_not (hc "Name:" (by decide)), Option.bind_some,
    scanLine_of_not (hc "Pid:" (by decide)), Option.bind_some,
    scanLine_of_not (hc "PPid:" (by decide))]

theorem noNul_decimal (n : Nat) : 0 ∉ decimal n := fun h =>
  absurd (isdigit_of_mem_decimal h) (by decide)

theorem nl_notMem_decimal (n : Nat) : nl ∉ decimal n := fun h =>
  absurd (isdigit_of_mem_decimal h) (by decide)

/-- A number after its key. -/
theorem scan_number (key : String) (put : Int → Vars → Vars) {n : Nat} (hn : n < 2 ^ 31) (v : Vars) :
    sscanf (utf8 key ++ '\t'.toUInt8 :: (decimal n ++ [nl]))
      (literal (utf8 key) ++ [.space, .int .d put]) v = some (1, put n v) := by
  have hnum : Number ('\t'.toUInt8 :: (decimal n ++ [nl])) n [nl] := by
    rw [← decimalInt_ofNat]
    exact number_decimalInt (w := ['\t'.toUInt8]) (List.all_eq_true.mp rfl) n (by rw [stops_cons]; decide)
  rw [sscanf, scan_literal, scan_passed apply_space, scan_stored (apply_int hnum.skip),
    Spec.conv_natCast hn]
  rfl

theorem leerLinea_pid {n : Nat} (hn : n < 2 ^ 31) (v : Vars) :
    leerLinea v (utf8 "Pid:\t" ++ decimal n ++ [nl]) = some { v with pid := n } := by
  have h0 : 0 ∉ utf8 "Pid:\t" ++ decimal n ++ [nl] := by
    simp only [List.mem_append, not_or]
    exact ⟨⟨by decide, noNul_decimal n⟩, by decide⟩
  have hs : sscanf (utf8 "Pid:\t" ++ decimal n ++ [nl]) pidFormat v = some (1, { v with pid := n }) :=
    scan_number "Pid:" (fun n v => { v with pid := n }) hn v
  rw [leerLinea_eq, cstring_of_noNul h0, scanLine_of_not rfl, Option.bind_some, scanLine_of rfl, hs,
    Option.map_some, Option.bind_some, scanLine_of_not rfl]

theorem leerLinea_ppid {n : Nat} (hn : n < 2 ^ 31) (v : Vars) :
    leerLinea v (utf8 "PPid:\t" ++ decimal n ++ [nl]) = some { v with ppid := n } := by
  have h0 : 0 ∉ utf8 "PPid:\t" ++ decimal n ++ [nl] := by
    simp only [List.mem_append, not_or]
    exact ⟨⟨by decide, noNul_decimal n⟩, by decide⟩
  have hs : sscanf (utf8 "PPid:\t" ++ decimal n ++ [nl]) ppidFormat v =
      some (1, { v with ppid := n }) :=
    scan_number "PPid:" (fun n v => { v with ppid := n }) hn v
  rw [leerLinea_eq, cstring_of_noNul h0, scanLine_of_not rfl, Option.bind_some, scanLine_of_not rfl,
    Option.bind_some, scanLine_of rfl, hs, Option.map_some]

/-- A name in its line: its first word, between white space and what does not go
on with it. -/
theorem name_text (n : List UInt8) : ∃ b r, '\t'.toUInt8 :: (n ++ [nl]) = b ++ (firstWord n ++ r) ∧
    (∀ c ∈ b, isspace c) ∧ Stops (fun c => !isspace c) r := by
  refine ⟨'\t'.toUInt8 :: n.takeWhile isspace,
    (n.dropWhile isspace).dropWhile (fun c => !isspace c) ++ [nl], ?_, ?_, ?_⟩
  · rw [firstWord, ← List.append_assoc _ _ [nl], List.takeWhile_append_dropWhile, List.cons_append,
      ← List.append_assoc, List.takeWhile_append_dropWhile]
  · intro c hc
    rcases List.mem_cons.mp hc with rfl | hc
    · decide
    · exact List.mem_takeWhile_imp hc
  · exact (stops_dropWhile _).append (by rw [stops_cons]; decide)

theorem not_isspace_of_mem_firstWord {n : List UInt8} : ∀ c ∈ firstWord n, isspace c = false := by
  intro c hc
  simpa using List.mem_takeWhile_imp hc

/-- `"Name: %s"` reads the first word of the name, if it has one. -/
theorem scan_word {n : List UInt8} (hn : n.length < 100) (v : Vars) :
    (sscanf (utf8 "Name:" ++ '\t'.toUInt8 :: (n ++ [nl])) nameFormat v).map Prod.snd =
      some (if firstWord n = [] then v else { v with nombre := v.nombre.putStr (firstWord n) }) := by
  rw [sscanf, nameFormat, scan_literal, scan_passed apply_space]
  split
  · rename_i hw
    have hd : ('\t'.toUInt8 :: (n ++ [nl])).dropWhile isspace = [] := by
      rw [List.dropWhile_eq_nil_iff]
      intro c hc
      simp only [List.mem_cons, List.mem_append, List.not_mem_nil, or_false] at hc
      rcases hc with rfl | hc | rfl
      · decide
      · exact firstWord_eq_nil.mp hw c hc
      · decide
    rw [hd, scan_ended rfl]
    rfl
  · rename_i hw
    obtain ⟨b, r, ht, hb, hr⟩ := name_text n
    have hs : Stops isspace (firstWord n ++ r) := by
      rcases hf : firstWord n with _ | ⟨c, w⟩
      · exact absurd hf hw
      · rw [List.cons_append, stops_cons]
        exact not_isspace_of_mem_firstWord c (hf ▸ List.mem_cons_self)
    have hl := (firstWord_sublist n).length_le
    have hput : (Directive.str 100 fun w v => { v with nombre := v.nombre.putStr w }).apply
        (firstWord n ++ r) v = .stored r { v with nombre := v.nombre.putStr (firstWord n) } :=
      apply_str (b := []) (by simp) hw not_isspace_of_mem_firstWord hr (by omega)
    rw [ht, dropWhile_of_stops hb hs, scan_stored hput]
    rfl

theorem leerLinea_name {n : List UInt8} (hn : n.length < 100) (h0 : 0 ∉ n) (v : Vars) :
    leerLinea v (utf8 "Name:\t" ++ n ++ [nl]) =
      some (if firstWord n = [] then v else { v with nombre := v.nombre.putStr (firstWord n) }) := by
  have h0 : 0 ∉ utf8 "Name:\t" ++ n ++ [nl] := by
    simp only [List.mem_append, not_or]
    exact ⟨⟨by decide, h0⟩, by decide⟩
  have hs : (sscanf (utf8 "Name:\t" ++ n ++ [nl]) nameFormat v).map Prod.snd = _ := scan_word hn v
  rw [leerLinea_eq, cstring_of_noNul h0, scanLine_of rfl, hs, Option.bind_some, scanLine_of_not rfl,
    Option.bind_some, scanLine_of_not rfl]

/-! ## A line -/

/-- The keys have no newline. -/
theorem nl_notMem_keys : ∀ key ∈ keys, nl ∉ utf8 key := by decide

/-- A line of text, its key before it, that fits `linea`. -/
theorem chunks_short {k t : List UInt8} (hk : nl ∉ k) (ht : nl ∉ t) (hl : k.length + t.length < 255) :
    chunks (k ++ t) = [k ++ t ++ [nl]] := by
  apply pieces_of_fits
  · simp only [List.mem_append, not_or]
    exact ⟨hk, ht⟩
  · rw [List.length_append]
    omega

/-- A line that starts with no key is read in pieces that start with none. -/
theorem quiet_chunks (h : Fine p l) (hq : Quiet l) : ∀ q ∈ chunks l, Quiet q := by
  have hfirst {q : List UInt8} (hl : q <+: l ++ [nl]) : Quiet q := by
    intro key hk
    rw [Bool.eq_false_iff]
    intro hs
    rcases List.prefix_concat_iff.mp ((starts_iff.mp hs).trans hl) with he | hp
    · exact nl_notMem_keys key hk (he ▸ by simp)
    · exact Bool.eq_false_iff.mp (hq key hk) (starts_iff.mpr hp)
  have htail := h.chunks
  intro q hq
  rcases lt_or_ge (l.length + 1) 256 with hl | hl
  · rw [show chunks l = [l ++ [nl]] from pieces_of_fits h.line hl, List.mem_singleton] at hq
    exact hfirst (hq ▸ List.prefix_rfl)
  · rw [show chunks l = l.take 255 :: _ from pieces_of_long h.line hl] at hq htail
    rcases List.mem_cons.mp hq with rfl | hq
    · exact hfirst ((List.take_prefix _ _).trans (List.prefix_append _ _))
    · exact htail q hq

theorem foldlM_quiet {qs : List (List UInt8)} (h : ∀ q ∈ qs, Quiet q) (v : Vars) :
    qs.foldlM leerLinea v = some v := by
  induction qs with
  | nil => rfl
  | cons q qs ih =>
    rw [List.foldlM_cons, leerLinea_quiet (h q List.mem_cons_self)]
    exact ih fun q hq => h q (List.mem_cons_of_mem _ hq)

/-! ## The lines -/

/-- What the loop has stored after the lines `ls`. -/
structure Seen (p : Process) (ls : List (List UInt8)) (v : Vars) : Prop where
  pid : ∀ l ∈ ls, starts "Pid:" l → v.pid = p.pid
  ppid : ∀ l ∈ ls, starts "PPid:" l → v.ppid = p.ppid
  name : ∀ l ∈ ls, starts "Name:" l → v.nombre.cstr = some (firstWord p.name)
  /-- A blank name leaves `nombre` as it is, which is empty. -/
  blank : firstWord p.name = [] → v.nombre.cstr = some []

theorem Seen.nil (p : Process) : Seen p [] {} := ⟨by simp, by simp, by simp, fun _ => rfl⟩

/-- What is known of the lines before and of this one is known of them all. -/
theorem forall_mem_snoc {ls : List (List UInt8)} {P : List UInt8 → Prop} (h : ∀ l ∈ ls, P l)
    (hl : P l) : ∀ l' ∈ ls ++ [l], P l' := by
  intro l' hm
  rcases List.mem_append.mp hm with hm | hm
  · exact h l' hm
  · rwa [List.mem_singleton.mp hm]

section

variable {ls : List (List UInt8)} {v : Vars}

theorem seen_name (h : Seen p ls v) : ∃ v', (chunks (utf8 "Name:\t" ++ p.name)).foldlM leerLinea v =
    some v' ∧ Seen p (ls ++ [utf8 "Name:\t" ++ p.name]) v' := by
  have hlen : (utf8 "Name:\t").length + p.name.length < 255 :=
    Nat.add_lt_add_left p.name_length 6 |>.trans (by decide)
  rw [chunks_short (by decide) p.name_plain.1 hlen, List.foldlM_cons,
    leerLinea_name p.name_length p.name_plain.2.2]
  refine ⟨_, rfl, ?_⟩
  split
  · rename_i hw
    exact ⟨forall_mem_snoc h.pid (absurd · Bool.false_ne_true),
      forall_mem_snoc h.ppid (absurd · Bool.false_ne_true),
      forall_mem_snoc h.name fun _ => (h.blank hw).trans (by rw [hw]), h.blank⟩
  · rename_i hw
    have hsub := firstWord_sublist p.name
    have hcstr := Buf.cstr_putStr v.nombre (fun h0 => p.name_plain.2.2 (hsub.subset h0))
      (lt_of_le_of_lt hsub.length_le p.name_length)
    exact ⟨forall_mem_snoc h.pid (absurd · Bool.false_ne_true),
      forall_mem_snoc h.ppid (absurd · Bool.false_ne_true), fun _ _ _ => hcstr,
      fun hb => absurd hb hw⟩

theorem seen_pid (h : Seen p ls v) : ∃ v', (chunks (utf8 "Pid:\t" ++ decimal p.pid)).foldlM leerLinea v =
    some v' ∧ Seen p (ls ++ [utf8 "Pid:\t" ++ decimal p.pid]) v' := by
  have hlen : (utf8 "Pid:\t").length + (decimal p.pid).length < 255 :=
    Nat.add_le_add_left (length_decimal_of_lt p.pid_lt) 5 |>.trans_lt (by decide)
  rw [chunks_short (by decide) (nl_notMem_decimal _) hlen, List.foldlM_cons, leerLinea_pid p.pid_lt]
  exact ⟨_, rfl, fun _ _ _ => rfl, forall_mem_snoc h.ppid (absurd · Bool.false_ne_true),
    forall_mem_snoc h.name (absurd · Bool.false_ne_true), h.blank⟩

theorem seen_ppid (h : Seen p ls v) :
    ∃ v', (chunks (utf8 "PPid:\t" ++ decimal p.ppid)).foldlM leerLinea v = some v' ∧
      Seen p (ls ++ [utf8 "PPid:\t" ++ decimal p.ppid]) v' := by
  have hlen : (utf8 "PPid:\t").length + (decimal p.ppid).length < 255 :=
    Nat.add_le_add_left (length_decimal_of_lt p.ppid_lt) 6 |>.trans_lt (by decide)
  rw [chunks_short (by decide) (nl_notMem_decimal _) hlen, List.foldlM_cons, leerLinea_ppid p.ppid_lt]
  exact ⟨_, rfl, forall_mem_snoc h.pid (absurd · Bool.false_ne_true), fun _ _ _ => rfl,
    forall_mem_snoc h.name (absurd · Bool.false_ne_true), h.blank⟩

/-- A line, read. -/
theorem seen_snoc (h : Seen p ls v) (hl : Fine p l) :
    ∃ v', (chunks l).foldlM leerLinea v = some v' ∧ Seen p (ls ++ [l]) v' := by
  by_cases hN : starts "Name:" l
  · rw [hl.name hN]
    exact seen_name h
  by_cases hP : starts "Pid:" l
  · rw [hl.pid hP]
    exact seen_pid h
  by_cases hPP : starts "PPid:" l
  · rw [hl.ppid hPP]
    exact seen_ppid h
  · have hq : Quiet l := by
      intro key hk
      simp only [keys, List.mem_cons, List.not_mem_nil, or_false] at hk
      rcases hk with rfl | rfl | rfl
      · exact Bool.eq_false_iff.mpr hN
      · exact Bool.eq_false_iff.mpr hP
      · exact Bool.eq_false_iff.mpr hPP
    exact ⟨v, foldlM_quiet (quiet_chunks hl hq) v, forall_mem_snoc h.pid (absurd · hP),
      forall_mem_snoc h.ppid (absurd · hPP), forall_mem_snoc h.name (absurd · hN), h.blank⟩

end

/-- The lines, read one after another. -/
theorem seen_append {ls : List (List UInt8)} (h : ∀ l ∈ ls, Fine p l) {done : List (List UInt8)}
    {v : Vars} (hv : Seen p done v) :
    ∃ v', (ls.flatMap chunks).foldlM leerLinea v = some v' ∧
      Seen p (done ++ ls) v' := by
  induction ls generalizing done v with
  | nil => exact ⟨v, rfl, by rwa [List.append_nil]⟩
  | cons l ls ih =>
    obtain ⟨v₁, h₁, hs₁⟩ := seen_snoc hv (h l List.mem_cons_self)
    obtain ⟨v', h', hs'⟩ := ih (fun l hl => h l (List.mem_cons_of_mem _ hl)) hs₁
    refine ⟨v', ?_, by rwa [List.append_assoc] at hs'⟩
    rw [List.flatMap_cons, List.foldlM_append, h₁]
    exact h'

/-- `procesos.c` reads the process's numbers and the first word of its name. -/
theorem leer_status (p : Process) : ∃ v, leer (unlines p.status) = some v ∧ v.pid = p.pid ∧
    v.ppid = p.ppid ∧ v.nombre.cstr = some (firstWord p.name) := by
  obtain ⟨v, hv, hs⟩ := seen_append (fine p) (Seen.nil p)
  obtain ⟨l, hl, hP⟩ := line_mem p.pidLine
  obtain ⟨l', hl', hPP⟩ := line_mem p.ppidLine
  obtain ⟨l'', hl'', hN⟩ := line_mem p.nameLine
  refine ⟨v, ?_, hs.pid l hl hP, hs.ppid l' hl' hPP, hs.name l'' hl'' hN⟩
  rw [leer, fgetsLinea, fgets_lines p.status_lines]
  exact hv

/-- The row `procesos.c` prints of the process. -/
theorem procesos_row (p : Process) : ∃ v, procesos.turn () p.entry = .next () [row v] ∧
    v.pid = p.pid ∧ v.ppid = p.ppid ∧ v.nombre.cstr = some (firstWord p.name) := by
  obtain ⟨v, hv, h⟩ := leer_status p
  refine ⟨v, ?_, h⟩
  have hnum : esNumero p.entry.dName := List.all_eq_true.mpr fun c => isdigit_of_mem_decimal
  have hlen := length_decimal_of_lt p.pid_lt
  have hpath : (utf8 "/proc/" ++ p.entry.dName ++ utf8 "/status").length < 256 := by
    rw [List.length_append, List.length_append]
    show 6 + (decimal p.pid).length + 7 < 256
    omega
  have hopen : p.entry.status.opened = some (unlines p.status) := rfl
  simp only [procesos, if_pos hnum, if_pos hpath, hopen, hv]

end SO.Proof.Status.Procesos
