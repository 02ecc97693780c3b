import Proyectos.Proof.Stat.Scan

/-!
# `get_proc_info` on a record's line

A line that fits the buffer is read member by member (`scan_head` for the three
first, `scan_fields` for the numbers after them, by induction on these), so
`get_proc_info` gives back the record, unless its name is empty or holds a `)`:
the first one ends the name (`inverts_iff`).
-/

namespace SO.Proof.Stat

open SO.Impl.Stat SO.Impl.Stat.ProcStat SO.Spec.Procfs

variable (r : Record) (s : ProcStat)

/-! ## The line -/

/-- A byte that a line of text can hold. -/
def InLine (c : UInt8) : Prop := c ≠ nl ∧ c ≠ 0

instance (c : UInt8) : Decidable (InLine c) := inferInstanceAs (Decidable (_ ∧ _))

/-- A text without a newline or a NUL. -/
theorem inLine_of_mem {l : List UInt8} {c : UInt8} (hn : nl ∉ l) (h0 : 0 ∉ l) (h : c ∈ l) : InLine c :=
  ⟨fun e => hn (e ▸ h), fun e => h0 (e ▸ h)⟩

theorem inLine_of_graphic {c : UInt8} (h : Graphic c) : InLine c := by
  refine ⟨?_, h.2⟩
  rintro rfl
  exact absurd h.1 (by decide)

theorem inLine_of_isdigit {c : UInt8} (h : isdigit c) : InLine c := by
  constructor <;> rintro rfl <;> exact absurd h (by decide)

theorem inLine_of_mem_decimalInt {v : Int} {c : UInt8} (h : c ∈ decimalInt v) : InLine c := by
  unfold decimalInt at h
  split at h
  · rcases List.mem_cons.mp h with rfl | h
    · decide
    · exact inLine_of_isdigit (isdigit_of_mem_decimal h)
  · exact inLine_of_isdigit (isdigit_of_mem_decimal h)

theorem inLine_of_mem_number {f : Field} {c : UInt8} (h : c ∈ r.number f) : InLine c := by
  rcases List.mem_cons.mp h with rfl | h
  · decide
  · exact inLine_of_mem_decimalInt h

theorem inLine_of_mem_line {c : UInt8} (h : c ∈ r.line) : InLine c := by
  simp only [Record.line, Record.head, List.mem_append, List.mem_flatMap, List.mem_singleton] at h
  rcases h with ((((h | h) | h) | h) | rfl) | ⟨f, -, h⟩
  · exact inLine_of_mem_decimalInt h
  · exact inLine_of_mem (l := utf8 " (") (by decide) (by decide) h
  · exact inLine_of_mem r.name_line r.name_noNul h
  · exact inLine_of_mem (l := utf8 ") ") (by decide) (by decide) h
  · exact inLine_of_graphic r.state_graphic
  · exact inLine_of_mem_number r h

/-- What is read of the record's file. -/
theorem firstRead_line : firstRead (r.line ++ [nl]) = (r.line ++ [nl]).take 511 := by
  have hl : nl ∉ r.line := fun h => (inLine_of_mem_line r h).1 rfl
  rw [firstRead, firstLine_append hl []]
  refine cstring_of_noNul fun h0 => ?_
  rcases List.mem_append.mp (List.mem_of_mem_take h0) with h | h
  · exact (inLine_of_mem_line r h).2 rfl
  · exact absurd (List.mem_singleton.mp h) (by decide)

theorem getProcInfo_record (pid : List UInt8) : getProcInfo s pid r.file =
    (sscanf ((r.line ++ [nl]).take 511) format s).map fun i => { ret := i.1, stat := i.2 } := by
  have ht : r.line ++ [nl] ≠ [] := by simp
  simp only [getProcInfo, Record.file, File.opened, fgets, if_neg ht, ← firstRead_line]
  rfl

/-! ## The first three members -/

theorem head_append (R : List UInt8) : r.head ++ R = decimalInt (r.num .pid) ++
    (utf8 " " ++ '('.toUInt8 :: (r.name ++ ')'.toUInt8 :: (utf8 " " ++ r.state :: R))) := by
  simp only [Record.head, List.append_assoc]
  rfl

theorem number_head {w R : List UInt8} {v : Int} (hw : ∀ b ∈ w, isspace b) :
    Number (decimalInt v ++ (w ++ '('.toUInt8 :: R)) v (w ++ '('.toUInt8 :: R) := by
  refine number_decimalInt (w := []) (by simp) v ?_
  rcases w with _ | ⟨b, w⟩
  · rw [List.nil_append, stops_cons]
    decide
  · rw [List.cons_append, stops_cons, Bool.eq_false_iff]
    intro h
    exact absurd (hw b List.mem_cons_self) (by rw [not_isspace_of_isdigit h]; decide)

/-- A number of the record is stored as it is. -/
theorem conv_num {k : Spec} {f : Field} (h : k.type = f.type) : k.conv (r.num f) = r.num f :=
  k.conv_of_mem (h ▸ (r.num_mem f).1) (h ▸ (r.num_mem f).2)

theorem scan_head (hn : r.name ≠ []) (hp : ')'.toUInt8 ∉ r.name) (R : List UInt8) :
    scan format 0 (r.head ++ R) s = scan (numbers.flatMap conversion) 3 R
      (putState r.state (putComm r.name (put .pid (r.num .pid) s))) := by
  have hw : ∀ b ∈ utf8 " ", isspace b := List.all_eq_true.mp rfl
  rw [head_append, scan_name s (number_head hw) hw hn hp r.name_length, conv_num r rfl, tailFormat,
    scan_passed apply_space, dropWhile_of_stops hw (by simpa using r.state_graphic.1),
    scan_stored (apply_chr _)]

theorem scan_head_state :
    let s' := putState r.state (putComm r.name (put .pid (r.num .pid) s))
    ∀ m ∈ [Member.num .pid, .comm, .state], r.Agrees s' m := by
  intro s' m hm
  simp only [List.mem_cons, List.not_mem_nil, or_false] at hm
  rcases hm with rfl | rfl | rfl
  · exact num_put_self s .pid _
  · exact Buf.cstr_putStr _ r.name_noNul r.name_length
  · rfl

/-! ## The numbers -/

/-- The members of `fs` have been read, and no other. -/
structure Took (fs : List Field) (s s' : ProcStat) : Prop where
  num : ∀ f ∈ fs, s'.num f = r.num f
  rest : ∀ f ∉ fs, s'.num f = s.num f
  comm : s'.comm = s.comm
  state : s'.state = s.state

variable {r s}

theorem Took.nil : Took r [] s s := ⟨by simp, fun _ _ => rfl, rfl, rfl⟩

theorem Took.cons {f : Field} {fs : List Field} {s' : ProcStat}
    (h : Took r fs (put f (r.num f) s) s') : Took r (f :: fs) s s' := by
  have hf : s'.num f = r.num f := by
    by_cases hm : f ∈ fs
    · exact h.num f hm
    · rw [h.rest f hm, num_put_self]
  refine ⟨?_, ?_, h.comm, h.state⟩
  · intro g hg
    rcases List.mem_cons.mp hg with rfl | hg
    · exact hf
    · exact h.num g hg
  · intro g hg
    rw [List.mem_cons, not_or] at hg
    rw [h.rest g hg.2, num_put_of_ne _ _ (Ne.symm hg.1)]

/-- Nothing but a digit goes on with a number. -/
theorem stops_numbers (ns : List (Spec × Field)) {R : List UInt8} (hR : Stops isdigit R) :
    Stops isdigit ((ns.flatMap fun n => r.number n.2) ++ R) := by
  rcases ns with _ | ⟨n, ns⟩
  · exact hR
  · simp only [List.flatMap_cons, Record.number, List.cons_append, stops_cons]
    decide

/-- A number of the record, read. -/
theorem scan_number {n : Spec × Field} (hn : n.1.type = n.2.type) (ds : List (Directive ProcStat))
    (k : Nat) {R : List UInt8} (hR : Stops isdigit R) (s : ProcStat) :
    scan (conversion n ++ ds) k (r.number n.2 ++ R) s = scan ds (k + 1) R (put n.2 (r.num n.2) s) := by
  have h : Number (r.number n.2 ++ R) (r.num n.2) R :=
    number_decimalInt (w := [' '.toUInt8]) (List.all_eq_true.mp rfl) _ hR
  rw [conversion, List.cons_append, List.cons_append, List.nil_append, scan_passed apply_space,
    scan_stored (apply_int h.skip), conv_num r hn]

/-- The numbers of the record, read one after another. -/
theorem scan_fields {ns : List (Spec × Field)} (hns : ∀ n ∈ ns, n.1.type = n.2.type) (k : Nat)
    {R : List UInt8} (hR : Stops isdigit R) (s : ProcStat) :
    ∃ s', scan (ns.flatMap conversion) k ((ns.flatMap fun n => r.number n.2) ++ R) s =
      .more (k + ns.length) R s' ∧ Took r (ns.map Prod.snd) s s' := by
  induction ns generalizing k s with
  | nil => exact ⟨s, rfl, .nil⟩
  | cons n ns ih =>
    obtain ⟨s', hs, ht⟩ := ih (fun n hn => hns n (List.mem_cons_of_mem _ hn)) (k + 1)
      (put n.2 (r.num n.2) s)
    refine ⟨s', ?_, ht.cons⟩
    rw [List.flatMap_cons, List.flatMap_cons, List.append_assoc,
      scan_number (hns n List.mem_cons_self) _ k (stops_numbers ns hR), hs, List.length_cons,
      Nat.add_right_comm, Nat.add_assoc]

/-- The format's conversions are those of the struct's members, in its order. -/
theorem numbers_type : ∀ n ∈ numbers, n.1.type = n.2.type := by decide

theorem numbers_fields : numbers.map Prod.snd = fields := rfl

/-- What a scan has read, member by member. -/
theorem Took.agrees {fs : List Field} {s' : ProcStat} (hf : .pid ∉ fs)
    (h : Took r fs (putState r.state (putComm r.name (put .pid (r.num .pid) s))) s') :
    ∀ m ∈ [Member.num .pid, .comm, .state] ++ fs.map .num, r.Agrees s' m := by
  have h₀ := scan_head_state r s
  intro m hm
  rcases List.mem_append.mp hm with hm | hm
  · have hm' := h₀ m hm
    simp only [List.mem_cons, List.not_mem_nil, or_false] at hm
    rcases hm with rfl | rfl | rfl
    · exact (h.rest .pid hf).trans hm'
    · exact (congrArg Buf.cstr h.comm).trans hm'
    · exact h.state.trans hm'
  · obtain ⟨f, hf, rfl⟩ := List.mem_map.mp hm
    exact h.num f hf

theorem mem_members (m : Member) : m ∈ members := by
  rcases m with f | _ | _
  · cases f <;> decide
  · decide
  · decide

theorem flatMap_fields : fields.flatMap r.number = numbers.flatMap fun n => r.number n.2 := by
  rw [← numbers_fields, List.flatMap_map]

/-! ## The whole line -/

/-- A scan that counts past the name has stored what comes before the first `)`. -/
theorem scan_comm (R : List UInt8) {i : Int × ProcStat} (h : i ∈ sscanf (r.head ++ R) format s)
    (hi : 1 < i.1) : r.name.takeWhile (· ≠ ')'.toUInt8) ≠ [] ∧
      i.2.comm.cstr = some (r.name.takeWhile (· ≠ ')'.toUInt8)) := by
  rw [head_append] at h
  have hw : ∀ b ∈ utf8 " ", isspace b := List.all_eq_true.mp rfl
  obtain ⟨hnil, hne⟩ := scan_named s (X := utf8 " " ++ r.state :: R) r.name_length r.name_noNul
    (fun _ => number_head hw) hw
  rcases eq_or_ne (r.name.takeWhile (· ≠ ')'.toUInt8)) [] with ha | ha
  · rw [hnil ha] at h
    cases h
    exact absurd hi (show ¬ (1 : Int) < 1 by decide)
  · obtain ⟨k, s', hs, -, hc⟩ := hne ha
    rw [hs] at h
    cases h
    exact ⟨ha, hc⟩

/-- `get_proc_info` gives back a record whose line fits the buffer just if its
name is not empty and has no `)`. -/
theorem inverts_iff (r : Record) (h : r.line.length ≤ 511) (s : ProcStat) (pid : List UInt8) :
    r.Inverts s pid ↔ r.name ≠ [] ∧ ')'.toUInt8 ∉ r.name := by
  obtain ⟨R, hR, htext⟩ : ∃ R, Stops isdigit R ∧
      (r.line ++ [nl]).take 511 = r.head ++ ((numbers.flatMap fun n => r.number n.2) ++ R) := by
    refine ⟨[nl].take (511 - r.line.length), ?_, ?_⟩
    · rcases 511 - r.line.length with _ | n
      · exact stops_nil
      · rw [List.take_succ_cons, stops_cons]
        decide
    · rw [List.take_append, List.take_of_length_le h, ← flatMap_fields, ← List.append_assoc]
      rfl
  rw [Record.Inverts, getProcInfo_record, htext]
  constructor
  · rintro ⟨i, hi, hret, hm⟩
    obtain ⟨j, hj, rfl⟩ := Option.map_eq_some_iff.mp hi
    have hret : j.1 = 52 := hret
    obtain ⟨hn, hc⟩ := scan_comm _ hj (by omega)
    have he : r.name.takeWhile (· ≠ ')'.toUInt8) = r.name :=
      Option.some.inj (hc.symm.trans (hm .comm))
    rw [he] at hn
    exact ⟨hn, takeWhile_ne_eq_self.mp he⟩
  · rintro ⟨hn, hp⟩
    obtain ⟨s', hs, ht⟩ := scan_fields (r := r) numbers_type 3 hR
      (putState r.state (putComm r.name (put .pid (r.num .pid) s)))
    refine ⟨⟨52, s', []⟩, ?_, rfl, fun m => ht.agrees (by decide) m (mem_members m)⟩
    rw [sscanf, scan_head r s hn hp, hs]
    rfl

/-- A record of small numbers. -/
def sample : Record where
  num f := if f = .ppid then 2 else -(if f.type.lo < 0 then 1 else 0)
  state := 'S'.toUInt8
  name := utf8 "kworker/0:1 ev"
  num_mem f := by cases f <;> decide
  state_graphic := by decide
  name_length := by decide
  name_line := by decide
  name_noNul := by decide

theorem inverts_sample : sample.Inverts ⟨fun _ => 0, .ofBytes [], 0⟩ (utf8 "1") :=
  (inverts_iff sample (by decide +kernel) _ _).mpr ⟨by decide, by decide⟩

end SO.Proof.Stat
