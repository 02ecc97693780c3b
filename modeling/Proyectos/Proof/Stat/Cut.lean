import Proyectos.Proof.Stat.Record

/-!
# `get_proc_info` on a line of any length

`fgets` hands `sscanf` the first 511 bytes of the line. The numbers before the
cut are read; the one the cut falls in is read too, short of its last digits,
if the cut leaves it a digit (`scan_cut`, by induction on the numbers). So the
count that `get_proc_info` returns is one of members read right unless the cut
falls between two digits (`count_trusted_iff`).
-/

namespace SO.Proof.Stat

open SO.Impl.Stat SO.Impl.Stat.ProcStat SO.Spec.Procfs

variable {r : Record}

/-- No conversion finds anything in white space. -/
theorem scan_blanks (ns : List (Spec × Field)) {k : Nat} (hk : k ≠ 0) {t : List UInt8}
    (ht : ∀ b ∈ t, isspace b) (s : ProcStat) :
    (scan (ns.flatMap conversion) k t s).result = some ((k : Int), s) := by
  rcases ns with _ | ⟨n, ns⟩
  · rfl
  · rw [List.flatMap_cons, conversion, List.cons_append, scan_passed apply_space,
      List.dropWhile_eq_nil_iff.mpr ht, List.cons_append, scan_ended rfl, if_neg hk]
    rfl

/-- A number starts with no white space. -/
theorem stops_decimalInt (v : Int) : Stops isspace (decimalInt v) := by
  unfold decimalInt
  split
  · rw [stops_cons]
    decide
  · have hd := decimal_ne_nil v.natAbs
    have hm : ∀ c ∈ decimal v.natAbs, isdigit c := fun c => isdigit_of_mem_decimal
    generalize decimal v.natAbs = ds at hd hm ⊢
    rcases ds with _ | ⟨c, ds⟩
    · exact absurd rfl hd
    · rw [stops_cons]
      exact not_isspace_of_isdigit (hm c List.mem_cons_self)

/-- Where the cut is not past the line, it leaves some of it. -/
theorem not_digitsAt_boundary {p L : List UInt8} (hL : Stops isdigit L) {i : Nat}
    (hi : i + 1 = p.length) : ¬ DigitsAt i (p ++ L) := by
  rintro ⟨a, b, -, hb, -, hdb⟩
  rw [hi, List.getElem?_append_right le_rfl, Nat.sub_self, ← List.head?_eq_getElem?] at hb
  rw [hL b hb] at hdb
  cases hdb

/-- The numbers, each after a blank, and the end of the line. -/
def numbersText (r : Record) (ns : List (Spec × Field)) : List UInt8 :=
  (ns.flatMap fun n => r.number n.2) ++ [nl]

/-- What comes of the numbers `ns` of a line that is cut after `m` bytes of
them: those before the cut are read, or the cut is between two digits and a
wrong number is read. -/
structure CutRead (r : Record) (ns : List (Spec × Field)) (m : Nat) (fs : List Field)
    (s s' : ProcStat) : Prop where
  right : (∀ i, m = i + 1 → ¬ DigitsAt i (numbersText r ns)) → Took r fs s s'
  wrong : (∃ i, m = i + 1 ∧ DigitsAt i (numbersText r ns)) → ∃ f ∈ fs, s'.num f ≠ r.num f

/-- The number the cut falls in. -/
theorem scan_cut_number {n : Spec × Field} (hn : n.1.type = n.2.type) (ds : List (Directive ProcStat))
    {k : Nat} (hk : k ≠ 0) {i : Nat} (hi : i + 1 < (decimalInt (r.num n.2)).length) (s : ProcStat) :
    (¬ DigitsAt i (decimalInt (r.num n.2)) ∧
      scan (conversion n ++ ds) k (' '.toUInt8 :: (decimalInt (r.num n.2)).take (i + 1)) s =
        .stop k s) ∨
      (DigitsAt i (decimalInt (r.num n.2)) ∧ ∃ u ≠ r.num n.2,
        scan (conversion n ++ ds) k (' '.toUInt8 :: (decimalInt (r.num n.2)).take (i + 1)) s =
          scan ds (k + 1) [] (put n.2 u s)) := by
  have hs := (stops_decimalInt (r.num n.2)).of_isPrefix (List.take_prefix (i + 1) _)
  have hd : (' '.toUInt8 :: (decimalInt (r.num n.2)).take (i + 1)).dropWhile isspace =
      (decimalInt (r.num n.2)).take (i + 1) :=
    dropWhile_of_stops (w := [' '.toUInt8]) (List.all_eq_true.mp rfl) hs
  have hd' : ((decimalInt (r.num n.2)).take (i + 1)).dropWhile isspace =
      (decimalInt (r.num n.2)).take (i + 1) := dropWhile_of_stops (w := []) (by simp) hs
  rw [conversion, List.cons_append, scan_passed apply_space, hd, List.cons_append, List.nil_append]
  rcases integer_cut hi with ⟨hnone, hdig⟩ | ⟨u, hu, hne, hlo, hhi, hdig⟩
  · refine .inl ⟨hdig, ?_⟩
    rcases scan_int_or n.1 (put n.2) ds (.inl hk) s with ⟨v, R, hv⟩ | ho
    · have := integer_of_number hv
      rw [hd', hnone] at this
      cases this
    · exact ho
  · refine .inr ⟨hdig, u, hne, ?_⟩
    obtain ⟨h0, h1⟩ := r.num_mem n.2
    have hz : n.2.type.lo ≤ 0 ∧ 0 ≤ n.2.type.hi := by cases n.2.type <;> decide
    rw [scan_stored (apply_int (number_of_integer hu)), n.1.conv_of_mem (hn ▸ by omega)
      (hn ▸ by omega)]

theorem numbersText_cons (n : Spec × Field) (ns : List (Spec × Field)) :
    numbersText r (n :: ns) = r.number n.2 ++ numbersText r ns := by
  rw [numbersText, List.flatMap_cons, List.append_assoc]
  rfl

theorem stops_numbersText (ns : List (Spec × Field)) : Stops isdigit (numbersText r ns) :=
  stops_numbers ns (by rw [stops_cons]; decide)

/-- The cut is in the first of the numbers. -/
theorem digitsAt_number {n : Spec × Field} (ns : List (Spec × Field)) {i : Nat}
    (hi : i + 1 < (decimalInt (r.num n.2)).length) :
    DigitsAt (i + 1) (numbersText r (n :: ns)) ↔ DigitsAt i (decimalInt (r.num n.2)) := by
  rw [numbersText_cons, Record.number, List.cons_append, ← List.singleton_append, Nat.add_comm i 1,
    ← List.length_singleton (a := ' '.toUInt8), digitsAt_append]
  simp only [DigitsAt, List.getElem?_append_left hi, List.getElem?_append_left (Nat.lt_of_succ_lt hi)]

/-- The first of the numbers is before the cut. -/
theorem CutRead.cons {n : Spec × Field} {ns : List (Spec × Field)} {m : Nat} {fs : List Field}
    {s s' : ProcStat} (h : CutRead r ns m fs (put n.2 (r.num n.2) s) s') :
    CutRead r (n :: ns) ((r.number n.2).length + m) (n.2 :: fs) s s' := by
  constructor
  · intro hno
    refine (h.right fun i hi hd => ?_).cons
    apply hno ((r.number n.2).length + i) (by omega)
    rw [numbersText_cons]
    exact digitsAt_append.mpr hd
  · rintro ⟨i, hi, hd⟩
    rw [numbersText_cons] at hd
    rcases m with _ | m
    · exact absurd hd (not_digitsAt_boundary (stops_numbersText ns) hi.symm)
    · obtain rfl : i = (r.number n.2).length + m := by omega
      obtain ⟨f, hf, hw⟩ := h.wrong ⟨m, rfl, digitsAt_append.mp hd⟩
      exact ⟨f, List.mem_cons_of_mem _ hf, hw⟩

/-- Nothing is read, and the cut is not between two digits. -/
theorem CutRead.none {ns : List (Spec × Field)} {m : Nat} {s : ProcStat}
    (h : ∀ i, m = i + 1 → ¬ DigitsAt i (numbersText r ns)) : CutRead r ns m [] s s :=
  ⟨fun _ => .nil, fun ⟨i, hi, hd⟩ => absurd hd (h i hi)⟩

/-- The numbers of a line that is cut in the first of them: before it, after its blank,
or in its digits. -/
theorem scan_cut_first {n : Spec × Field} (hn : n.1.type = n.2.type) (ns : List (Spec × Field))
    {k : Nat} (hk : k ≠ 0) {m : Nat} (hm : m < (r.number n.2).length) (s : ProcStat) :
    ∃ j s', (scan ((n :: ns).flatMap conversion) k ((numbersText r (n :: ns)).take m) s).result =
      some (((k + j : Nat) : Int), s') ∧
        CutRead r (n :: ns) m (((n :: ns).map Prod.snd).take j) s s' := by
  rcases m with _ | _ | i
  · -- nothing is left
    refine ⟨0, s, scan_blanks (n :: ns) hk (by simp) s, .none ?_⟩
    intro i hi
    cases hi
  · -- the blank before the number
    refine ⟨0, s, scan_blanks (n :: ns) hk (t := [' '.toUInt8]) (List.all_eq_true.mp rfl) s,
      .none ?_⟩
    rintro i hi ⟨a, b, ha, -, hda, -⟩
    obtain rfl : i = 0 := by omega
    cases ha
    exact absurd hda (by decide)
  · -- its digits
    have hi : i + 1 < (decimalInt (r.num n.2)).length := by
      rw [Record.number, List.length_cons] at hm
      omega
    have ht : (numbersText r (n :: ns)).take (i + 1 + 1) =
        ' '.toUInt8 :: (decimalInt (r.num n.2)).take (i + 1) := by
      rw [numbersText_cons, Record.number, List.cons_append, List.take_succ_cons,
        List.take_append_of_le_length (by omega)]
    have hd := digitsAt_number ns hi
    rw [ht, List.flatMap_cons]
    rcases scan_cut_number hn (ns.flatMap conversion) hk hi s with ⟨hno, ho⟩ | ⟨hyes, u, hu, ho⟩
    · refine ⟨0, s, by rw [ho]; rfl, .none ?_⟩
      rintro j hj hdj
      obtain rfl : j = i + 1 := by omega
      exact hno (hd.mp hdj)
    · refine ⟨1, put n.2 u s, ?_, fun hno => absurd (hd.mpr hyes) (hno _ rfl), fun _ => ?_⟩
      · rw [ho, scan_blanks ns (Nat.succ_ne_zero k) (by simp)]
      · refine ⟨n.2, by simp, ?_⟩
        rw [num_put_self]
        exact hu

/-- The numbers of a line that is cut. -/
theorem scan_cut {ns : List (Spec × Field)} (hns : ∀ n ∈ ns, n.1.type = n.2.type) {k : Nat}
    (hk : k ≠ 0) (m : Nat) (s : ProcStat) :
    ∃ j s', (scan (ns.flatMap conversion) k ((numbersText r ns).take m) s).result =
      some (((k + j : Nat) : Int), s') ∧ CutRead r ns m ((ns.map Prod.snd).take j) s s' := by
  induction ns generalizing k m s with
  | nil =>
    refine ⟨0, s, rfl, .none ?_⟩
    rintro i - ⟨a, b, -, hb, -⟩
    cases hb
  | cons n ns ih =>
    have hn := hns n List.mem_cons_self
    rcases le_or_gt (r.number n.2).length m with hm | hm
    · -- the cut is past this number
      obtain ⟨m, rfl⟩ := Nat.exists_eq_add_of_le hm
      obtain ⟨j, s', hr, hc⟩ := ih (fun n hn => hns n (List.mem_cons_of_mem _ hn))
        (Nat.succ_ne_zero k) m (put n.2 (r.num n.2) s)
      refine ⟨j + 1, s', ?_, hc.cons⟩
      rw [numbersText_cons, List.take_length_add_append, List.flatMap_cons,
        scan_number hn _ k ((stops_numbersText ns).of_isPrefix (List.take_prefix m _)), hr, Nat.succ_add]
      rfl
    · exact scan_cut_first hn ns hk hm s

/-! ## The line -/

theorem length_decimalInt_le {v : Int} (h0 : CType.int.lo ≤ v) (h1 : v ≤ CType.int.hi) :
    (decimalInt v).length ≤ 11 := by
  simp only [CType.lo, CType.hi] at h0 h1
  have := length_decimal_le (n := v.natAbs) (k := 10) (by omega) (by omega)
  unfold decimalInt
  split
  · rw [List.length_cons]
    omega
  · omega

/-- The first three members are before the cut. -/
theorem length_head_le (r : Record) : r.head.length ≤ 271 := by
  have h1 := length_decimalInt_le (r.num_mem .pid).1 (r.num_mem .pid).2
  have h2 : r.name.length < 256 := r.name_length
  have h3 : (utf8 " (").length = 2 ∧ (utf8 ") ").length = 2 := by decide
  simp only [Record.head, List.length_append, List.length_singleton, h3]
  omega

theorem line_eq (r : Record) : r.line ++ [nl] = r.head ++ numbersText r numbers := by
  rw [Record.line, flatMap_fields, numbersText, List.append_assoc]

/-- The newline is not part of a number. -/
theorem digitsAt_newline {l : List UInt8} {i : Nat} : DigitsAt i (l ++ [nl]) ↔ DigitsAt i l := by
  constructor
  · rintro ⟨a, b, ha, hb, hda, hdb⟩
    rcases lt_trichotomy (i + 1) l.length with h | h | h
    · rw [List.getElem?_append_left (by omega)] at ha hb
      exact ⟨a, b, ha, hb, hda, hdb⟩
    · exact absurd ⟨a, b, ha, hb, hda, hdb⟩
        (not_digitsAt_boundary (p := l) (L := [nl]) (by rw [stops_cons]; decide) h)
    · rw [List.getElem?_eq_none (by rw [List.length_append, List.length_singleton]; omega)] at hb
      cases hb
  · rintro ⟨a, b, ha, hb, hda, hdb⟩
    obtain ⟨hi, -⟩ := List.getElem?_eq_some_iff.mp hb
    exact ⟨a, b, by rwa [List.getElem?_append_left (by omega)],
      by rwa [List.getElem?_append_left hi], hda, hdb⟩

/-- The cut of the line is one of its numbers. -/
theorem digitsAt_line (r : Record) : DigitsAt 510 r.line ↔
    ∃ i, 511 - r.head.length = i + 1 ∧ DigitsAt i (numbersText r numbers) := by
  have hl := length_head_le r
  obtain ⟨i, hi⟩ : ∃ i, 510 = r.head.length + i := ⟨510 - r.head.length, by omega⟩
  rw [← digitsAt_newline, line_eq, hi, digitsAt_append]
  constructor
  · exact fun h => ⟨i, by omega, h⟩
  · rintro ⟨i', hi', h⟩
    obtain rfl : i' = i := by omega
    exact h

/-- The scan of a line of any length. -/
theorem info_record (r : Record) (hn : r.name ≠ []) (hp : ')'.toUInt8 ∉ r.name) (s : ProcStat)
    (pid : List UInt8) :
    ∃ j s', getProcInfo s pid r.file = some ⟨((3 + j : Nat) : Int), s', []⟩ ∧
      CutRead r numbers (511 - r.head.length) (fields.take j)
        (putState r.state (putComm r.name (put .pid (r.num .pid) s))) s' := by
  obtain ⟨j, s', hs, hc⟩ := scan_cut (r := r) numbers_type (Nat.succ_ne_zero 2)
    (511 - r.head.length) (putState r.state (putComm r.name (put .pid (r.num .pid) s)))
  have htext : (r.line ++ [nl]).take 511 =
      r.head ++ (numbersText r numbers).take (511 - r.head.length) := by
    rw [line_eq, List.take_append, List.take_of_length_le (by have := length_head_le r; omega)]
  refine ⟨j, s', ?_, hc⟩
  rw [getProcInfo_record, htext, sscanf, scan_head r s hn hp, hs]
  rfl

/-- The members counted by a scan that has read the numbers up to the `j`-th. -/
theorem take_members (j : Nat) :
    members.take (3 + j) = [.num .pid, .comm, .state] ++ (fields.take j).map .num := by
  rw [members, List.map_take, Nat.add_comm 3 j]
  rfl

/-- A cut between two digits has a wrong number counted. -/
theorem not_countTrusted {r : Record} (hn : r.name ≠ []) (hp : ')'.toUInt8 ∉ r.name)
    (hcut : DigitsAt 510 r.line) (s : ProcStat) (pid : List UInt8) : ¬ r.CountTrusted s pid := by
  obtain ⟨j, s', hi, hc⟩ := info_record r hn hp s pid
  rintro ⟨i, hi', ha⟩
  cases hi.symm.trans hi'
  obtain ⟨f, hf, hw⟩ := hc.wrong ((digitsAt_line r).mp hcut)
  refine hw (ha (Int.natCast_nonneg _) (.num f) ?_)
  rw [Int.toNat_natCast, take_members]
  exact List.mem_append_right _ (List.mem_map_of_mem hf)

/-- Any other cut has none. -/
theorem countTrusted {r : Record} (hn : r.name ≠ []) (hp : ')'.toUInt8 ∉ r.name)
    (hcut : ¬ DigitsAt 510 r.line) (s : ProcStat) (pid : List UInt8) : r.CountTrusted s pid := by
  obtain ⟨j, s', hi, hc⟩ := info_record r hn hp s pid
  refine ⟨_, hi, fun _ => ?_⟩
  rw [Int.toNat_natCast, take_members]
  refine (hc.right fun i hi hd => hcut ((digitsAt_line r).mpr ⟨i, hi, hd⟩)).agrees fun h => ?_
  exact absurd (List.mem_of_mem_take h) (by decide)

/-- For a record with a proper name, the members that the value returned counts
have the record's values just if the bytes before and after the cut are not both
digits. -/
theorem count_trusted_iff (r : Record) (hn : r.name ≠ []) (hp : ')'.toUInt8 ∉ r.name)
    (s : ProcStat) (pid : List UInt8) : r.CountTrusted s pid ↔ ¬ DigitsAt 510 r.line :=
  ⟨fun h hcut => not_countTrusted hn hp hcut s pid h, fun hcut => countTrusted hn hp hcut s pid⟩

/-- A record with the greatest value in every member. -/
def greatest : Record where
  num f := f.type.hi
  state := 'R'.toUInt8
  name := utf8 "a"
  num_mem f := by cases f.type <;> decide
  state_graphic := by decide
  name_length := by decide
  name_line := by decide
  name_noNul := by decide

/-- Under a longer name, it has its line cut after a number. -/
def greatestWorker : Record :=
  { greatest with
    name := utf8 "kworker/u16:3-evt"
    name_length := by decide
    name_line := by decide
    name_noNul := by decide }

theorem count_trusted_worker :
    greatestWorker.CountTrusted ⟨fun _ => 0, .ofBytes [], 0⟩ (utf8 "2147483647") := by
  refine (count_trusted_iff greatestWorker (by decide) (by decide) _ _).mpr ?_
  rintro ⟨a, b, -, hb, -, hd⟩
  have hblank : greatestWorker.line[511]? = some ' '.toUInt8 := by decide +kernel
  rw [hblank] at hb
  cases hb
  exact absurd hd (by decide)

/-- The line of `greatest` is cut inside a number, which is counted. -/
theorem greatest_miscounted :
    ¬ greatest.CountTrusted ⟨fun _ => 0, .ofBytes [], 0⟩ (utf8 "2147483647") := by
  have hcut : DigitsAt 510 greatest.line :=
    ⟨'5'.toUInt8, '5'.toUInt8, by decide +kernel, by decide +kernel, by decide, by decide⟩
  exact not_countTrusted (by decide) (by decide) hcut _ _

end SO.Proof.Stat
