import Proyectos.Spec.Procfs

/-!
# `get_proc_info`: what the scan of a line does

What `sscanf` makes of a text, told by the way the text starts:

* `scan_legible`: one that starts as a line of `stat` does has its first four
  members read.
* `scan_illegible`: no other text has its `ppid` read. A blank one makes
  `sscanf` return -1 (`scan_blank`).
-/

namespace SO.Proof.Stat

open SO.Impl.Stat SO.Impl.Stat.ProcStat SO.Spec.Procfs

/-- The format after `)`. -/
def tailFormat : List (Directive ProcStat) := .space :: .chr putState :: numbers.flatMap conversion

theorem format_eq : format = .int .d (put .pid) :: .space :: .lit '('.toUInt8 ::
    .upto ')'.toUInt8 COMM_SIZE putComm :: .lit ')'.toUInt8 :: tailFormat := rfl

theorem tailFormat_eq : tailFormat = .space :: .chr putState :: .space :: .int .d (put .ppid) ::
    numbers.tail.flatMap conversion := rfl

variable {t : List UInt8} {u v : Int} {a : List UInt8} (s : ProcStat)

/-- Numbers are stored each to a member of its own. -/
theorem leaves_conversions {α : Type} {get : ProcStat → α} {ns : List (Spec × Field)}
    (h : ∀ n ∈ ns, ∀ v s, get (put n.2 v s) = get s) : ∀ d ∈ ns.flatMap conversion, d.Leaves get := by
  intro d hd
  obtain ⟨n, hn, hd⟩ := List.mem_flatMap.mp hd
  simp only [conversion, List.mem_cons, List.not_mem_nil, or_false] at hd
  rcases hd with rfl | rfl
  · trivial
  · exact h n hn

theorem leaves_tail {α : Type} {get : ProcStat → α} (hc : ∀ c s, get (putState c s) = get s)
    (hn : ∀ n ∈ numbers, ∀ v s, get (put n.2 v s) = get s) : ∀ d ∈ tailFormat, d.Leaves get := by
  intro d hd
  rcases List.mem_cons.mp hd with rfl | hd
  · trivial
  · rcases List.mem_cons.mp hd with rfl | hd
    · exact hc
    · exact leaves_conversions hn d hd

/-- The process's number and its name, read. -/
theorem scan_name {w R : List UInt8}
    (hu : Number t u (w ++ '('.toUInt8 :: (a ++ ')'.toUInt8 :: R))) (hw : ∀ b ∈ w, isspace b)
    (ha : a ≠ []) (hp : ')'.toUInt8 ∉ a) (hl : a.length < COMM_SIZE) :
    scan format 0 t s = scan tailFormat 2 R (putComm a (put .pid (Spec.d.conv u) s)) := by
  have hs : Stops isspace ('('.toUInt8 :: (a ++ ')'.toUInt8 :: R)) := by simp; decide
  rw [format_eq, scan_stored (apply_int hu), scan_passed apply_space, dropWhile_of_stops hw hs,
    scan_passed (apply_lit _), scan_stored (apply_upto ha hp hl), scan_passed (apply_lit _)]

/-- The text after `(`, up to the first `)`. -/
theorem name_split (n X : List UInt8) : ∃ R, n ++ ')'.toUInt8 :: X =
    n.takeWhile (· ≠ ')'.toUInt8) ++ ')'.toUInt8 :: R := by
  have hs := stops_dropWhile (p := fun c => decide (c ≠ ')'.toUInt8)) n
  have hn := List.takeWhile_append_dropWhile (p := fun c => decide (c ≠ ')'.toUInt8)) (l := n)
  rcases hd : n.dropWhile (· ≠ ')'.toUInt8) with _ | ⟨c, R⟩
  · refine ⟨X, ?_⟩
    rw [hd, List.append_nil] at hn
    rw [hn]
  · rw [hd] at hs hn
    obtain rfl : c = ')'.toUInt8 := by simpa using hs
    refine ⟨R ++ ')'.toUInt8 :: X, ?_⟩
    nth_rewrite 1 [← hn]
    rw [List.append_assoc, List.cons_append]

/-- `state` and `ppid`, read. -/
theorem scan_ppid {w t₃ t₄ : List UInt8} {c : UInt8} (k : Nat) (hw : ∀ b ∈ w, isspace b)
    (hc : isspace c = false) (hv : Number t₃ v t₄) :
    scan tailFormat k (w ++ c :: t₃) s =
      scan (numbers.tail.flatMap conversion) (k + 2) t₄
        (put .ppid (Spec.d.conv v) (putState c s)) := by
  rw [tailFormat_eq, scan_passed apply_space, dropWhile_of_stops hw (by simpa using hc),
    scan_stored (apply_chr c), scan_passed apply_space, scan_stored (apply_int hv.skip)]

theorem scan_of_legible (h : Legible t u a v) :
    ∃ c r, scan format 0 t s = scan (numbers.tail.flatMap conversion) 4 r
      (put .ppid (Spec.d.conv v) (putState c (putComm a (put .pid (Spec.d.conv u) s)))) := by
  obtain ⟨w, w', c, t₃, t₄, hu, hw, ha, hp, hl, hw', hc, hv⟩ := h
  exact ⟨c, t₄, by rw [scan_name s hu hw ha hp hl, scan_ppid _ 2 hw' hc hv]⟩

theorem bounded_conversions (ns : List (Spec × Field)) : ∀ d ∈ ns.flatMap conversion, d.Bounded := by
  intro d hd
  obtain ⟨n, -, hd⟩ := List.mem_flatMap.mp hd
  simp only [conversion, List.mem_cons, List.not_mem_nil, or_false] at hd
  rcases hd with rfl | rfl
  · exact Directive.bounded_space
  · exact Directive.bounded_int n.1 _

theorem bounded_tail : ∀ d ∈ tailFormat, d.Bounded := by
  intro d hd
  rcases List.mem_cons.mp hd with rfl | hd
  · exact Directive.bounded_space
  · rcases List.mem_cons.mp hd with rfl | hd
    · exact Directive.bounded_chr _
    · exact bounded_conversions numbers d hd

/-- The members read from a text that starts as a line of `stat` does. -/
theorem scan_legible (h : Legible t u a v) (h0 : 0 ∉ t) :
    ∃ k s', sscanf t format s = some (k, s') ∧ 4 ≤ k ∧ s'.num .pid = Spec.d.conv u ∧
      s'.comm.cstr = some a ∧ s'.num .ppid = Spec.d.conv v := by
  obtain ⟨c, r, hr⟩ := scan_of_legible s h
  have ha : 0 ∉ a := fun hm => h0 (h.name_subset hm)
  generalize hs : put .ppid (Spec.d.conv v) (putState c (putComm a (put .pid (Spec.d.conv u) s))) =
    s₁ at hr
  obtain ⟨⟨k, s'⟩, hk⟩ := scan_bounded (bounded_conversions numbers.tail) 4 r s₁
  have hkeep {α : Type} (get : ProcStat → α) (hg : ∀ n ∈ numbers.tail, ∀ v s, get (put n.2 v s) = get s) :
      get s' = get s₁ :=
    (scan_keep (fun d hd => (leaves_conversions hg d hd).keeps) 4 r s₁).result _ hk
  have hnum (f : Field) (hf : ∀ n ∈ numbers.tail, n.2 ≠ f) : s'.num f = s₁.num f :=
    hkeep (·.num f) fun n hn v s => num_put_of_ne s v (hf n hn)
  refine ⟨k, s', ?_, scan_count _ (by decide) r s₁ _ hk, ?_, ?_, ?_⟩
  · rw [sscanf, hr, hk]
  · rw [hnum .pid (by decide), ← hs]
    rfl
  · rw [hkeep (·.comm) fun n _ v s => rfl, ← hs]
    exact Buf.cstr_putStr _ ha h.name_length
  · rw [hnum .ppid (by decide), ← hs]
    exact num_put_self ..

/-- Whatever the name `n` between the parentheses: what comes before the first `)`
is stored, unless that is nothing, which ends the scan. -/
theorem scan_named {n w X : List UInt8} (hn : n.length < COMM_SIZE) (h0 : 0 ∉ n)
    (hu : ∀ R, Number (t ++ (w ++ '('.toUInt8 :: R)) u (w ++ '('.toUInt8 :: R))
    (hw : ∀ b ∈ w, isspace b) :
    let a := n.takeWhile (· ≠ ')'.toUInt8)
    let t' := t ++ (w ++ '('.toUInt8 :: (n ++ ')'.toUInt8 :: X))
    (a = [] → sscanf t' format s = some (1, put .pid (Spec.d.conv u) s)) ∧
      (a ≠ [] → ∃ k s', sscanf t' format s = some (k, s') ∧ 2 ≤ k ∧ s'.comm.cstr = some a) := by
  intro a t'
  obtain ⟨R, hR⟩ := name_split n X
  have ha : n.takeWhile (· ≠ ')'.toUInt8) = a := rfl
  have ht : t' = t ++ (w ++ '('.toUInt8 :: (n ++ ')'.toUInt8 :: X)) := rfl
  have hp : ')'.toUInt8 ∉ a := fun hc => by simpa using List.mem_takeWhile_imp hc
  have hpre : a <+: n := List.takeWhile_prefix _
  have hl : a.length < COMM_SIZE := lt_of_le_of_lt hpre.length_le hn
  have hs (R : List UInt8) : Stops isspace ('('.toUInt8 :: R) := by rw [stops_cons]; decide
  rw [hR, ha] at ht
  rw [ht, sscanf]
  constructor
  · intro hnil
    rw [hnil, format_eq, scan_stored (apply_int (hu _)), scan_passed apply_space,
      dropWhile_of_stops hw (hs _), scan_passed (apply_lit _),
      scan_mismatch (by simp [Directive.apply])]
    rfl
  · intro hne
    rw [scan_name s (hu _) hw hne hp hl]
    obtain ⟨⟨k, s'⟩, hk⟩ := scan_bounded bounded_tail 2 R (putComm a (put .pid (Spec.d.conv u) s))
    have hleaves : ∀ d ∈ tailFormat, d.Leaves ProcStat.comm :=
      leaves_tail (fun _ _ => rfl) fun _ _ _ _ => rfl
    have hc := (scan_keep (fun d hd => (hleaves d hd).keeps) 2 R _).result _ hk
    refine ⟨k, s', hk, scan_count _ (by decide) R _ _ hk, ?_⟩
    rw [hc]
    exact Buf.cstr_putStr _ (fun hz => h0 (hpre.subset hz)) hl

/-- The scan of a blank text. -/
theorem scan_blank (h : ∀ b ∈ t, isspace b) : sscanf t format s = some (-1, s) := by
  rw [sscanf, format_eq, scan_ended]
  · rfl
  · simp only [Directive.apply, if_pos (List.dropWhile_eq_nil_iff.mpr h)]

/-- No other text has its `ppid` read. -/
theorem scan_illegible (h : ∀ u a v, ¬ Legible t u a v) (hb : ¬ ∀ b ∈ t, isspace b) :
    ∀ r ∈ sscanf t format s, 0 ≤ r.1 ∧ r.2.num .ppid = s.num .ppid := by
  have hstop {k : Nat} {s₁ : ProcStat} {o : Scan ProcStat} (ho : o = .stop k s₁)
      (he : s₁.num .ppid = s.num .ppid) : ∀ r ∈ o.result, 0 ≤ r.1 ∧ r.2.num .ppid = s.num .ppid := by
    subst ho
    rintro r hr
    cases hr
    exact ⟨Int.natCast_nonneg k, he⟩
  rw [sscanf, format_eq]
  rcases scan_int_or .d (put .pid) _ (.inr hb) s with ⟨u, r₁, hu⟩ | ho
  swap
  · exact hstop ho rfl
  rw [scan_stored (apply_int hu)]
  rcases scan_lit_or '('.toUInt8 _ (Nat.succ_ne_zero 0) r₁ _ with ⟨w, r₂, rfl, hw⟩ | ho
  swap
  · exact hstop ho rfl
  have hs : Stops isspace ('('.toUInt8 :: r₂) := by simp; decide
  rw [scan_passed apply_space, dropWhile_of_stops hw hs, scan_passed (apply_lit _)]
  rcases scan_upto_or ')'.toUInt8 COMM_SIZE putComm tailFormat (Nat.succ_ne_zero 0) r₂ _ with
    ⟨a, r₃, rfl, ha, hp, hl⟩ | ho | ho | ⟨a, ho⟩
  · rw [scan_stored (apply_upto ha hp hl), scan_passed (apply_lit _), tailFormat_eq]
    rcases scan_chr_or putState _ (Nat.succ_ne_zero 1) r₃ _ with ⟨w', c, r₄, rfl, hw', hc⟩ | ho
    swap
    · exact hstop ho rfl
    rw [scan_passed apply_space, dropWhile_of_stops hw' (by simpa using hc), scan_stored (apply_chr c),
      scan_passed apply_space]
    rcases scan_int_or .d (put .ppid) _ (.inl (Nat.succ_ne_zero 2)) _ with ⟨v, r₅, hv⟩ | ho
    · exact absurd ⟨w, w', c, r₄, r₅, hu, hw, ha, hp, hl, hw', hc, hv.unskip⟩ (h u a v)
    · exact hstop ho rfl
  · erw [ho]
    intro r hr
    cases hr
  · exact hstop ho rfl
  · exact hstop ho rfl

/-- The process's number is read from a text that starts with one. -/
theorem scan_pid {r : List UInt8} (h : Number t u r) :
    ∀ i ∈ sscanf t format s, i.2.num .pid = Spec.d.conv u := by
  have hk : ∀ d ∈ format.tail, d.Leaves fun s : ProcStat => s.num .pid := by
    have hn : ∀ n ∈ numbers, n.2 ≠ .pid := by decide
    intro d hd
    simp only [format_eq, List.tail_cons, List.mem_cons] at hd
    rcases hd with rfl | rfl | rfl | rfl | hd
    · trivial
    · trivial
    · exact fun w s => rfl
    · trivial
    · exact leaves_tail (fun c s => rfl) (fun n hm v s => num_put_of_ne s v (hn n hm)) d hd
  rw [sscanf, format_eq, scan_stored (apply_int h)]
  exact (scan_keep (fun d hd => (hk d hd).keeps) _ _ _).result

end SO.Proof.Stat
