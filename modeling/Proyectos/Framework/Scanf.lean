import Proyectos.Framework.Decimal
import Mathlib.Algebra.Ring.Int.Defs

/-!
# `sscanf`

A format is a list of directives, each with what it stores into a memory `σ`.
`Directive.apply` carries one out; `scan` carries out one after another and
counts those that store, until one fails.

An integer that does not fit is what the C library makes of it: `strtol` and
`strtoul` clip it to 64 bits, and it is then converted to the type stored to.
A string that does not fit the array it is stored into is an overrun.

* `scan_keep`: what no directive of a format stores to stays as it was.
* `number_decimalInt`, `Spec.conv_of_mem`: a conversion reads back the number
  printed.
-/

namespace SO

/-- The integer types the conversions store to, with a `long` of 64 bits. -/
inductive CType
  | int
  | uint
  | long
  | ulong
  | ullong
  deriving DecidableEq, Repr

namespace CType

def lo : CType → Int
  | .int => -2 ^ 31
  | .long => -2 ^ 63
  | .uint | .ulong | .ullong => 0

def hi : CType → Int
  | .int => 2 ^ 31 - 1
  | .uint => 2 ^ 32 - 1
  | .long => 2 ^ 63 - 1
  | .ulong | .ullong => 2 ^ 64 - 1

end CType

/-- The integer conversions, by the letters after `%`. -/
inductive Spec
  | d
  | u
  | ld
  | lu
  | llu
  deriving DecidableEq, Repr

/-- `strtol`'s value for a number. -/
def strtol (v : Int) : Int := max (-2 ^ 63) (min v (2 ^ 63 - 1))

/-- `strtoul`'s value for a number. -/
def strtoul (v : Int) : Int := if v.natAbs < 2 ^ 64 then v % 2 ^ 64 else 2 ^ 64 - 1

namespace Spec

/-- The type of the object a conversion stores to. -/
def type : Spec → CType
  | .d => .int
  | .u => .uint
  | .ld => .long
  | .lu => .ulong
  | .llu => .ullong

/-- The value stored for a number read. -/
def conv : Spec → Int → Int
  | .d, v => (strtol v).bmod (2 ^ 32)
  | .u, v => strtoul v % 2 ^ 32
  | .ld, v => strtol v
  | .lu, v | .llu, v => strtoul v

/-- A number in the type's range is stored as it is. -/
theorem conv_of_mem (k : Spec) {v : Int} (h0 : k.type.lo ≤ v) (h1 : v ≤ k.type.hi) :
    k.conv v = v := by
  have hl (h0 : -2 ^ 63 ≤ v) (h1 : v ≤ 2 ^ 63 - 1) : strtol v = v := by
    rw [strtol]
    omega
  have hu (h0 : 0 ≤ v) (h1 : v ≤ 2 ^ 64 - 1) : strtoul v = v := by
    rw [strtoul, if_pos (by omega)]
    exact Int.emod_eq_of_lt h0 (by omega)
  cases k <;> simp only [type, CType.lo, CType.hi] at h0 h1
  · rw [conv, hl (by omega) (by omega)]
    exact Int.bmod_eq_of_le (by omega) (by omega)
  · rw [conv, hu h0 (by omega)]
    exact Int.emod_eq_of_lt h0 (by omega)
  · exact hl h0 h1
  · exact hu h0 h1
  · exact hu h0 h1

theorem conv_natCast {n : Nat} (hn : n < 2 ^ 31) : Spec.d.conv n = n := by
  have h0 : Spec.d.type.lo ≤ (n : Int) := le_trans (by decide) (Int.natCast_nonneg n)
  exact conv_of_mem .d h0 (show (n : Int) ≤ 2 ^ 31 - 1 by omega)

end Spec

/-! ## Numbers -/

/-- A sign is optional. -/
def signs : List (List UInt8) := [[], ['-'.toUInt8], ['+'.toUInt8]]

/-- The text after its sign, if it starts with one. -/
def unsigned (t : List UInt8) : List UInt8 :=
  if t.head? = some '-'.toUInt8 ∨ t.head? = some '+'.toUInt8 then t.tail else t

/-- The number a text starts with (an optional sign and digits), and the rest. -/
def integer (t : List UInt8) : Option (Int × List UInt8) :=
  let ds := (unsigned t).takeWhile isdigit
  if ds = [] then none
  else some (if t.head? = some '-'.toUInt8 then -(value ds : Int) else value ds,
    (unsigned t).dropWhile isdigit)

theorem not_sign_of_isdigit {c : UInt8} (h : isdigit c) : c ≠ '-'.toUInt8 ∧ c ≠ '+'.toUInt8 := by
  constructor <;> rintro rfl <;> exact absurd h (by decide)

theorem unsigned_digits {ds r : List UInt8} (hn : ds ≠ []) (hd : ∀ c ∈ ds, isdigit c) :
    unsigned (ds ++ r) = ds ++ r ∧ (ds ++ r).head? ≠ some '-'.toUInt8 := by
  rcases ds with _ | ⟨c, ds⟩
  · exact absurd rfl hn
  · have := not_sign_of_isdigit (hd c List.mem_cons_self)
    simp [unsigned, this]

/-- The digits of a number are read up to what follows them. -/
theorem integer_digits {ds r : List UInt8} (hn : ds ≠ []) (hd : ∀ c ∈ ds, isdigit c)
    (hr : Stops isdigit r) : integer (ds ++ r) = some ((value ds : Int), r) := by
  obtain ⟨hu, hh⟩ := unsigned_digits (r := r) hn hd
  simp only [integer, hu, takeWhile_of_stops hd hr, dropWhile_of_stops hd hr, if_neg hn, if_neg hh]

theorem integer_minus {ds r : List UInt8} (hn : ds ≠ []) (hd : ∀ c ∈ ds, isdigit c)
    (hr : Stops isdigit r) : integer ('-'.toUInt8 :: (ds ++ r)) = some (-(value ds : Int), r) := by
  have hu : unsigned ('-'.toUInt8 :: (ds ++ r)) = ds ++ r := by simp [unsigned]
  simp only [integer, hu, takeWhile_of_stops hd hr, dropWhile_of_stops hd hr, if_neg hn,
    List.head?_cons, if_true]

theorem integer_plus {ds r : List UInt8} (hn : ds ≠ []) (hd : ∀ c ∈ ds, isdigit c)
    (hr : Stops isdigit r) : integer ('+'.toUInt8 :: (ds ++ r)) = some ((value ds : Int), r) := by
  have hu : unsigned ('+'.toUInt8 :: (ds ++ r)) = ds ++ r := by simp [unsigned]
  simp only [integer, hu, takeWhile_of_stops hd hr, dropWhile_of_stops hd hr, if_neg hn,
    List.head?_cons, Option.some.injEq, show ¬ '+'.toUInt8 = '-'.toUInt8 by decide, if_false]

/-- The number printed is the number read. -/
theorem integer_decimalInt (v : Int) {r : List UInt8} (hr : Stops isdigit r) :
    integer (decimalInt v ++ r) = some (v, r) := by
  have hd : ∀ c ∈ decimal v.natAbs, isdigit c := fun c => isdigit_of_mem_decimal
  rw [decimalInt]
  split
  · rw [List.cons_append, integer_minus (decimal_ne_nil _) hd hr, value_decimal,
      show -(v.natAbs : Int) = v by omega]
  · rw [integer_digits (decimal_ne_nil _) hd hr, value_decimal, show (v.natAbs : Int) = v by omega]

theorem decimalInt_injective : Function.Injective decimalInt := by
  intro v v' h
  have hv := integer_decimalInt v (stops_nil (p := isdigit))
  rw [h, integer_decimalInt v' stops_nil] at hv
  cases hv
  rfl

/-- The bytes `i` and `i + 1` are digits: a cut between them is inside a number. -/
def DigitsAt (i : Nat) (l : List UInt8) : Prop :=
  ∃ a b, l[i]? = some a ∧ l[i + 1]? = some b ∧ isdigit a ∧ isdigit b

theorem digitsAt_append {p l : List UInt8} {i : Nat} :
    DigitsAt (p.length + i) (p ++ l) ↔ DigitsAt i l := by
  simp only [DigitsAt, Nat.add_assoc, List.getElem?_append_right (Nat.le_add_right p.length _),
    Nat.add_sub_cancel_left]

/-- Digits cut in two. -/
theorem digitsAt_digits {ds : List UInt8} (hd : ∀ c ∈ ds, isdigit c) {i : Nat}
    (h : i + 1 < ds.length) : DigitsAt i ds :=
  ⟨ds[i], ds[i + 1], List.getElem?_eq_getElem (by omega), List.getElem?_eq_getElem h,
    hd _ (List.getElem_mem _), hd _ (List.getElem_mem _)⟩

/-- The front of a number's digits: the digits of a smaller one. -/
theorem decimal_cut {m i : Nat} (h : i + 1 < (decimal m).length) :
    (decimal m).take (i + 1) ≠ [] ∧ (∀ c ∈ (decimal m).take (i + 1), isdigit c) ∧
      value ((decimal m).take (i + 1)) < m := by
  have hn : (decimal m).take (i + 1) ≠ [] := by
    apply List.ne_nil_of_length_pos
    rw [List.length_take]
    omega
  refine ⟨hn, fun c hc => isdigit_of_mem_decimal (List.mem_of_mem_take hc), ?_⟩
  apply value_lt_of_cut (List.take_append_drop (i + 1) _) hn
  apply List.ne_nil_of_length_pos
  rw [List.length_drop]
  omega

/-- The front of a number, cut: no number is left of it (a sign alone), or a
different one of the same sign, which is cut between digits. -/
theorem integer_cut {v : Int} {i : Nat} (hl : i + 1 < (decimalInt v).length) :
    (integer ((decimalInt v).take (i + 1)) = none ∧ ¬ DigitsAt i (decimalInt v)) ∨
      ∃ u, integer ((decimalInt v).take (i + 1)) = some (u, []) ∧ u ≠ v ∧ min v 0 ≤ u ∧ u ≤ max v 0 ∧
        DigitsAt i (decimalInt v) := by
  have hd : ∀ c ∈ decimal v.natAbs, isdigit c := fun c => isdigit_of_mem_decimal
  rw [decimalInt] at hl ⊢
  split
  · rename_i hv
    rw [if_pos hv, List.length_cons] at hl
    rcases i with _ | j
    · -- the sign alone
      refine .inl ⟨rfl, ?_⟩
      rintro ⟨a, b, ha, -, hda, -⟩
      cases ha
      exact absurd hda (by decide)
    · have hj : j + 1 < (decimal v.natAbs).length := by omega
      obtain ⟨hn, hdj, hlt⟩ := decimal_cut hj
      have hi := integer_minus hn hdj (stops_nil (p := isdigit))
      rw [List.append_nil] at hi
      refine .inr ⟨_, hi, by omega, by omega, by omega, ?_⟩
      have hs := digitsAt_append (p := ['-'.toUInt8]) (l := decimal v.natAbs) (i := j)
      rw [List.length_singleton, Nat.add_comm] at hs
      exact hs.mpr (digitsAt_digits hd hj)
  · rename_i hv
    rw [if_neg hv] at hl
    obtain ⟨hn, hdi, hlt⟩ := decimal_cut hl
    have hi := integer_digits hn hdi (stops_nil (p := isdigit))
    rw [List.append_nil] at hi
    exact .inr ⟨_, hi, by omega, by omega, by omega, digitsAt_digits hd hl⟩

/-- `t` is white space, the number `v` (an optional sign and digits), and then `r`. -/
def Number (t : List UInt8) (v : Int) (r : List UInt8) : Prop :=
  ∃ w sg ds, t = w ++ (sg ++ (ds ++ r)) ∧ (∀ c ∈ w, isspace c) ∧ sg ∈ signs ∧ ds ≠ [] ∧
    (∀ c ∈ ds, isdigit c) ∧ v = (if sg = ['-'.toUInt8] then -(value ds : Int) else value ds) ∧
    Stops isdigit r

/-- What starts with a number is a sign, digits and the rest. -/
theorem number_of_integer {t r : List UInt8} {v : Int} (h : integer t = some (v, r)) :
    Number t v r := by
  simp only [integer] at h
  split at h
  · cases h
  · rename_i hds
    simp only [Option.some.injEq, Prod.mk.injEq] at h
    obtain ⟨hv, rfl⟩ := h
    have ht : ∃ sg ∈ signs, t = sg ++ unsigned t ∧
        (t.head? = some '-'.toUInt8 ↔ sg = ['-'.toUInt8]) := by
      unfold unsigned
      split
      · rename_i hs
        rcases t with _ | ⟨c, t⟩
        · simp at hs
        · exact ⟨[c], by simpa [signs] using hs, rfl, by simp⟩
      · rename_i hs
        exact ⟨[], by simp [signs], rfl, by simp [not_or.mp hs]⟩
    obtain ⟨sg, hsg, ht, hm⟩ := ht
    refine ⟨[], sg, (unsigned t).takeWhile isdigit, ?_, by simp, hsg, hds,
      fun c => List.mem_takeWhile_imp, ?_, stops_dropWhile _⟩
    · rw [List.takeWhile_append_dropWhile]
      exact ht
    · rw [← hv]
      exact if_congr hm rfl rfl

/-- A number after white space is read. -/
theorem integer_of_number {t r : List UInt8} {v : Int} (h : Number t v r) :
    integer (t.dropWhile isspace) = some (v, r) := by
  obtain ⟨w, sg, ds, rfl, hw, hsg, hn, hd, rfl, hr⟩ := h
  have hs : Stops isspace (sg ++ (ds ++ r)) := by
    rcases ds with _ | ⟨c, ds⟩
    · exact absurd rfl hn
    · have hc := not_isspace_of_isdigit (hd c List.mem_cons_self)
      simp only [signs, List.mem_cons, List.not_mem_nil, or_false] at hsg
      rcases hsg with rfl | rfl | rfl
      · simpa using hc
      · simp [show isspace '-'.toUInt8 = false by decide]
      · simp [show isspace '+'.toUInt8 = false by decide]
  rw [dropWhile_of_stops hw hs]
  simp only [signs, List.mem_cons, List.not_mem_nil, or_false] at hsg
  rcases hsg with rfl | rfl | rfl
  · exact integer_digits hn hd hr
  · exact integer_minus hn hd hr
  · exact integer_plus hn hd hr

/-- White space before it makes no difference. -/
theorem Number.unskip {t r : List UInt8} {v : Int} (h : Number (t.dropWhile isspace) v r) :
    Number t v r := by
  obtain ⟨w, sg, ds, ht, hw, h⟩ := h
  refine ⟨t.takeWhile isspace ++ w, sg, ds, ?_, ?_, h⟩
  · rw [List.append_assoc, ← ht, List.takeWhile_append_dropWhile]
  · intro c hc
    rcases List.mem_append.mp hc with hc | hc
    · exact List.mem_takeWhile_imp hc
    · exact hw c hc

theorem Number.skip {t r : List UInt8} {v : Int} (h : Number t v r) :
    Number (t.dropWhile isspace) v r := number_of_integer (integer_of_number h)

theorem number_decimalInt {w : List UInt8} (hw : ∀ c ∈ w, isspace c) (v : Int) {r : List UInt8}
    (hr : Stops isdigit r) : Number (w ++ (decimalInt v ++ r)) v r := by
  obtain ⟨w', sg, ds, ht, hw', h⟩ := number_of_integer (integer_decimalInt v hr)
  refine ⟨w ++ w', sg, ds, ?_, ?_, h⟩
  · rw [ht, List.append_assoc]
  · intro c hc
    rcases List.mem_append.mp hc with hc | hc
    · exact hw c hc
    · exact hw' c hc

/-! ## Directives -/

/-- A directive of a format. -/
inductive Directive (σ : Type)
  /-- White space. -/
  | space
  /-- A character that stands for itself. -/
  | lit (c : UInt8)
  /-- `%d`, `%u`, … -/
  | int (k : Spec) (put : Int → σ → σ)
  /-- `%c`. -/
  | chr (put : UInt8 → σ → σ)
  /-- `%s`, into an array of `size` bytes. -/
  | str (size : Nat) (put : List UInt8 → σ → σ)
  /-- `%[^c]`, into an array of `size` bytes. -/
  | upto (c : UInt8) (size : Nat) (put : List UInt8 → σ → σ)

/-- The characters of `l`, each standing for itself. -/
def literal {σ : Type} (l : List UInt8) : List (Directive σ) := l.map .lit

/-- What comes of a directive. -/
inductive Found (σ : Type)
  /-- Carried out, with nothing to store. -/
  | passed (rest : List UInt8)
  /-- Carried out, and the value stored. -/
  | stored (rest : List UInt8) (s : σ)
  /-- The text is not what the directive asks for. -/
  | mismatch
  /-- The text has ended. -/
  | ended
  /-- The value does not fit its array. -/
  | overrun

/-- A string `w` found before `r`, stored if it fits. -/
def Found.fits {σ : Type} (size : Nat) (w r : List UInt8) (s : σ) : Found σ :=
  if w.length < size then .stored r s else .overrun

/-- A directive, carried out on the text `t`. -/
def Directive.apply {σ : Type} (d : Directive σ) (t : List UInt8) (s : σ) : Found σ :=
  match d with
  | .space => .passed (t.dropWhile isspace)
  | .lit c =>
    match t with
    | [] => .ended
    | b :: r => if b = c then .passed r else .mismatch
  | .int k put =>
    let t := t.dropWhile isspace
    if t = [] then .ended
    else
      match integer t with
      | none => .mismatch
      | some (v, r) => .stored r (put (k.conv v) s)
  | .chr put =>
    match t with
    | [] => .ended
    | b :: r => .stored r (put b s)
  | .str size put =>
    let t := t.dropWhile isspace
    if t = [] then .ended
    else
      let w := t.takeWhile fun c => !isspace c
      .fits size w (t.dropWhile fun c => !isspace c) (put w s)
  | .upto c size put =>
    if t = [] then .ended
    else if t.head? = some c then .mismatch
    else
      let w := t.takeWhile (· ≠ c)
      .fits size w (t.dropWhile (· ≠ c)) (put w s)

section Apply

variable {σ : Type} {t r w : List UInt8} {s s' : σ}

@[simp] theorem apply_space : (Directive.space : Directive σ).apply t s = .passed (t.dropWhile isspace) := rfl

@[simp] theorem apply_lit (c : UInt8) : (Directive.lit c).apply (c :: r) s = .passed r := by
  simp [Directive.apply]

theorem apply_int {k : Spec} {put : Int → σ → σ} {v : Int} (h : Number t v r) :
    (Directive.int k put).apply t s = .stored r (put (k.conv v) s) := by
  have hi := integer_of_number h
  have hn : t.dropWhile isspace ≠ [] := by
    intro e
    rw [e] at hi
    cases hi
  simp only [Directive.apply, if_neg hn, hi]

/-- A conversion that stores has read a number. -/
theorem number_of_apply_int {k : Spec} {put : Int → σ → σ}
    (h : (Directive.int k put).apply t s = .stored r s') :
    ∃ v, Number t v r ∧ s' = put (k.conv v) s := by
  simp only [Directive.apply] at h
  split at h
  · cases h
  · split at h
    · cases h
    · rename_i v r' hi
      cases h
      exact ⟨v, (number_of_integer hi).unskip, rfl⟩

@[simp] theorem apply_chr {put : UInt8 → σ → σ} (b : UInt8) :
    (Directive.chr put).apply (b :: r) s = .stored r (put b s) := rfl

theorem apply_upto {c : UInt8} {size : Nat} {put : List UInt8 → σ → σ} (hn : w ≠ []) (hc : c ∉ w)
    (hl : w.length < size) :
    (Directive.upto c size put).apply (w ++ c :: r) s = .stored (c :: r) (put w s) := by
  have hw : ∀ b ∈ w, decide (b ≠ c) = true := forall_ne_iff.mpr hc
  have hh : (w ++ c :: r).head? ≠ some c := by
    rcases w with _ | ⟨b, w⟩
    · exact absurd rfl hn
    · simpa using fun e : b = c => hc (e ▸ List.mem_cons_self)
  have hr : Stops (fun b => decide (b ≠ c)) (c :: r) := by simp
  simp only [Directive.apply, if_neg (show w ++ c :: r ≠ [] by simp), if_neg hh,
    takeWhile_of_stops hw hr, dropWhile_of_stops hw hr, Found.fits, if_pos hl]

theorem apply_str {size : Nat} {put : List UInt8 → σ → σ} {b : List UInt8} (hb : ∀ c ∈ b, isspace c)
    (hn : w ≠ []) (hw : ∀ c ∈ w, isspace c = false) (hr : Stops (fun c => !isspace c) r)
    (hl : w.length < size) :
    (Directive.str size put).apply (b ++ (w ++ r)) s = .stored r (put w s) := by
  have hs : Stops isspace (w ++ r) := by
    rcases w with _ | ⟨c, w⟩
    · exact absurd rfl hn
    · simpa using hw c List.mem_cons_self
  have hw' : ∀ c ∈ w, (!isspace c) = true := by simpa using hw
  simp only [Directive.apply, dropWhile_of_stops hb hs, if_neg (show w ++ r ≠ [] by simp [hn]),
    takeWhile_of_stops hw' hr, dropWhile_of_stops hw' hr, Found.fits, if_pos hl]

end Apply

/-- How far a format has been carried out. -/
inductive Scan (σ : Type)
  /-- To its end, with `k` values stored. -/
  | more (k : Nat) (rest : List UInt8) (s : σ)
  /-- It has stopped, with what `sscanf` returns. -/
  | stop (ret : Int) (s : σ)
  | overrun

/-- The directives of a format, carried out on the text `t` after `k` values
have been stored. -/
def scan {σ : Type} : List (Directive σ) → Nat → List UInt8 → σ → Scan σ
  | [], k, t, s => .more k t s
  | d :: ds, k, t, s =>
    match d.apply t s with
    | .passed r => scan ds k r s
    | .stored r s' => scan ds (k + 1) r s'
    | .mismatch => .stop k s
    | .ended => .stop (if k = 0 then -1 else k) s
    | .overrun => .overrun

/-- What `sscanf` returns and the memory it leaves; nothing is said of it if it
writes past the end of an array. -/
def Scan.result {σ : Type} : Scan σ → Option (Int × σ)
  | .more k _ s => some (k, s)
  | .stop ret s => some (ret, s)
  | .overrun => none

/-- `sscanf(t, ds)`. -/
def sscanf {σ : Type} (t : List UInt8) (ds : List (Directive σ)) (s : σ) : Option (Int × σ) :=
  (scan ds 0 t s).result

section Scan

variable {σ : Type} {d : Directive σ} {ds : List (Directive σ)} {k : Nat} {t r : List UInt8} {s s' : σ}

@[simp] theorem scan_nil : scan ([] : List (Directive σ)) k t s = .more k t s := rfl

theorem scan_passed (h : d.apply t s = .passed r) : scan (d :: ds) k t s = scan ds k r s := by
  simp only [scan, h]

theorem scan_stored (h : d.apply t s = .stored r s') :
    scan (d :: ds) k t s = scan ds (k + 1) r s' := by
  simp only [scan, h]

theorem scan_mismatch (h : d.apply t s = .mismatch) : scan (d :: ds) k t s = .stop k s := by
  simp only [scan, h]

theorem scan_ended (h : d.apply t s = .ended) :
    scan (d :: ds) k t s = .stop (if k = 0 then -1 else k) s := by
  simp only [scan, h]

theorem scan_overrun (h : d.apply t s = .overrun) : scan (d :: ds) k t s = .overrun := by
  simp only [scan, h]

/-- Characters that stand for themselves. -/
theorem scan_literal (l : List UInt8) (ds : List (Directive σ)) (k : Nat) (t : List UInt8) (s : σ) :
    scan (literal l ++ ds) k (l ++ t) s = scan ds k t s := by
  induction l with
  | nil => rfl
  | cons c l ih =>
    rw [literal, List.map_cons, List.cons_append, List.cons_append, scan_passed (apply_lit c)]
    exact ih

/-! ### Where a scan stops -/

/-- A literal after white space is found, or the scan stops there. -/
theorem scan_lit_or (c : UInt8) (ds : List (Directive σ)) (hk : k ≠ 0) (t : List UInt8) (s : σ) :
    (∃ w r, t = w ++ c :: r ∧ ∀ b ∈ w, isspace b) ∨
      scan (.space :: .lit c :: ds) k t s = .stop k s := by
  rw [scan_passed apply_space]
  rcases h : t.dropWhile isspace with _ | ⟨b, r⟩
  · right
    rw [scan_ended rfl, if_neg hk]
  · rcases eq_or_ne b c with rfl | hb
    · refine .inl ⟨t.takeWhile isspace, r, ?_, fun b => List.mem_takeWhile_imp⟩
      rw [← h, List.takeWhile_append_dropWhile]
    · right
      exact scan_mismatch (if_neg hb)

/-- A character after white space is found, or the scan stops there. -/
theorem scan_chr_or (put : UInt8 → σ → σ) (ds : List (Directive σ)) (hk : k ≠ 0) (t : List UInt8)
    (s : σ) : (∃ w c r, t = w ++ c :: r ∧ (∀ b ∈ w, isspace b) ∧ isspace c = false) ∨
      scan (.space :: .chr put :: ds) k t s = .stop k s := by
  rw [scan_passed apply_space]
  rcases h : t.dropWhile isspace with _ | ⟨c, r⟩
  · right
    rw [scan_ended rfl, if_neg hk]
  · have hs : Stops isspace (c :: r) := by
      rw [← h]
      exact stops_dropWhile t
    refine .inl ⟨t.takeWhile isspace, c, r, ?_, fun b => List.mem_takeWhile_imp, by simpa using hs⟩
    rw [← h, List.takeWhile_append_dropWhile]

/-- A number is found, or the scan stops there. -/
theorem scan_int_or (sp : Spec) (put : Int → σ → σ) (ds : List (Directive σ)) {t : List UInt8}
    (hk : k ≠ 0 ∨ ¬ ∀ b ∈ t, isspace b) (s : σ) :
    (∃ v r, Number t v r) ∨ scan (.int sp put :: ds) k t s = .stop k s := by
  rcases eq_or_ne (t.dropWhile isspace) [] with hb | hb
  · have hk := hk.resolve_right (not_not.mpr (List.dropWhile_eq_nil_iff.mp hb))
    right
    rw [scan_ended (by simp only [Directive.apply, if_pos hb]), if_neg hk]
  · rcases h : integer (t.dropWhile isspace) with _ | ⟨v, r⟩
    · exact .inr (scan_mismatch (by simp only [Directive.apply, if_neg hb, h]))
    · exact .inl ⟨v, r, (number_of_integer h).unskip⟩

/-- A string up to the character `c` is found and fits, or the scan stops or
overruns there. -/
theorem scan_upto_or (c : UInt8) (size : Nat) (put : List UInt8 → σ → σ) (ds : List (Directive σ))
    (hk : k ≠ 0) (t : List UInt8) (s : σ) :
    (∃ a r, t = a ++ c :: r ∧ a ≠ [] ∧ c ∉ a ∧ a.length < size) ∨
      scan (.upto c size put :: .lit c :: ds) k t s = .overrun ∨
      scan (.upto c size put :: .lit c :: ds) k t s = .stop k s ∨
      ∃ a, scan (.upto c size put :: .lit c :: ds) k t s = .stop ↑(k + 1) (put a s) := by
  rcases t with _ | ⟨b, t⟩
  · refine .inr (.inr (.inl ?_))
    rw [scan_ended rfl, if_neg hk]
  · rcases eq_or_ne b c with rfl | hb
    · refine .inr (.inr (.inl (scan_mismatch ?_)))
      simp [Directive.apply]
    · generalize ha : (b :: t).takeWhile (· ≠ c) = a
      generalize hr : (b :: t).dropWhile (· ≠ c) = r
      have happ : (Directive.upto c size put).apply (b :: t) s = .fits size a r (put a s) := by
        simp only [Directive.apply, ← ha, ← hr]
        rw [if_neg (by simp), if_neg (by simpa using hb)]
      have hat : b :: t = a ++ r := by rw [← ha, ← hr, List.takeWhile_append_dropWhile]
      have hca : c ∉ a := by
        rw [← ha]
        exact notMem_takeWhile_ne (b :: t)
      rw [Found.fits] at happ
      split at happ
      · rename_i hl
        rcases r with _ | ⟨d, r⟩
        · refine .inr (.inr (.inr ⟨a, ?_⟩))
          rw [scan_stored happ, scan_ended rfl, if_neg (Nat.succ_ne_zero k)]
        · have hd : Stops (fun b => decide (b ≠ c)) (d :: r) := by
            rw [← hr]
            exact stops_dropWhile _
          obtain rfl : d = c := by simpa using hd
          refine .inl ⟨a, r, hat, ?_, hca, hl⟩
          rintro rfl
          simp only [List.nil_append, List.cons.injEq] at hat
          exact hb hat.1
      · exact .inr (.inl (scan_overrun happ))

/-! ### What a scan leaves alone -/

/-- The directive stores nothing that `get` reads. -/
def Directive.Keeps {α : Type} (get : σ → α) (d : Directive σ) : Prop :=
  ∀ t s r s', d.apply t s = .stored r s' → get s' = get s

/-- The same, of what the directive may store. -/
def Directive.Leaves {α : Type} (get : σ → α) : Directive σ → Prop
  | .space | .lit _ => True
  | .int _ put => ∀ v s, get (put v s) = get s
  | .chr put => ∀ c s, get (put c s) = get s
  | .str _ put | .upto _ _ put => ∀ w s, get (put w s) = get s

theorem Directive.Leaves.keeps {α : Type} {get : σ → α} {d : Directive σ} (h : d.Leaves get) :
    d.Keeps get := by
  have hf {size : Nat} {w u : List UInt8} {s₁ : σ} {r : List UInt8} {s' : σ}
      (hs : Found.fits size w u s₁ = .stored r s') : s' = s₁ := by
    unfold Found.fits at hs
    split at hs <;> cases hs
    rfl
  intro t s r s' hs
  rcases d with _ | c | ⟨sp, put⟩ | put | ⟨size, put⟩ | ⟨c, size, put⟩
  · cases hs
  · rcases t with _ | ⟨b, t⟩
    · cases hs
    · simp only [apply] at hs
      split at hs <;> cases hs
  · obtain ⟨v, -, rfl⟩ := number_of_apply_int hs
    exact h _ s
  · rcases t with _ | ⟨b, t⟩ <;> cases hs
    exact h b s
  · simp only [apply] at hs
    split at hs
    · cases hs
    · rw [hf hs]
      exact h _ s
  · simp only [apply] at hs
    split at hs
    · cases hs
    · split at hs
      · cases hs
      · rw [hf hs]
        exact h _ s

/-- What holds of `get` in the memory a scan leaves. -/
def Scan.Has {α : Type} (get : σ → α) (a : α) : Scan σ → Prop
  | .more _ _ s => get s = a
  | .stop _ s => get s = a
  | .overrun => True

theorem Scan.Has.result {α : Type} {get : σ → α} {a : α} {o : Scan σ} (h : o.Has get a) :
    ∀ r ∈ o.result, get r.2 = a := by
  intro r hr
  cases o with
  | more k t s =>
    cases hr
    exact h
  | stop ret s =>
    cases hr
    exact h
  | overrun => cases hr

/-- What no directive stores to stays as it was. -/
theorem scan_keep {α : Type} {get : σ → α} (h : ∀ d ∈ ds, d.Keeps get) (k : Nat)
    (t : List UInt8) (s : σ) : (scan ds k t s).Has get (get s) := by
  induction ds generalizing k t s with
  | nil => rfl
  | cons d ds ih =>
    have hds := fun d hd => h d (List.mem_cons_of_mem _ hd)
    rw [scan]
    split
    · exact ih hds _ _ _
    · rename_i r s' hs
      rw [← h d List.mem_cons_self _ _ _ _ hs]
      exact ih hds _ _ _
    · rfl
    · rfl
    · trivial

/-- The value returned counts the values stored so far. -/
theorem scan_count (ds : List (Directive σ)) (hk : k ≠ 0) (t : List UInt8) (s : σ) :
    ∀ r ∈ (scan ds k t s).result, (k : Int) ≤ r.1 := by
  induction ds generalizing k t s with
  | nil => simp [Scan.result]
  | cons d ds ih =>
    rw [scan]
    split
    · exact ih hk _ _
    · intro r hr
      have := ih (Nat.succ_ne_zero k) _ _ r hr
      omega
    · simp [Scan.result]
    · simp [Scan.result, hk]
    · simp [Scan.result]

/-- A directive that stores no string. -/
def Directive.Bounded (d : Directive σ) : Prop := ∀ t s, d.apply t s ≠ .overrun

theorem Directive.bounded_space : (Directive.space : Directive σ).Bounded := by
  intro t s h
  cases h

theorem Directive.bounded_chr (put : UInt8 → σ → σ) : (Directive.chr put).Bounded := by
  intro t s h
  rcases t with _ | ⟨b, t⟩ <;> cases h

theorem Directive.bounded_int (sp : Spec) (put : Int → σ → σ) : (Directive.int sp put).Bounded := by
  intro t s h
  simp only [Directive.apply] at h
  split at h
  · cases h
  · split at h <;> cases h

theorem Directive.bounded_lit (c : UInt8) : (Directive.lit c : Directive σ).Bounded := by
  intro t s h
  rcases t with _ | ⟨b, t⟩
  · cases h
  · simp only [Directive.apply] at h
    split at h <;> cases h

/-- A directive that does not overrun, and a format that ends after it. -/
theorem scan_cons_some (h : d.apply t s ≠ .overrun)
    (hds : ∀ k t s, ∃ r, (scan ds k t s).result = some r) : ∃ r, (scan (d :: ds) k t s).result = some r := by
  rw [scan]
  split
  · exact hds _ _ _
  · exact hds _ _ _
  · exact ⟨_, rfl⟩
  · exact ⟨_, rfl⟩
  · rename_i ho
    exact absurd ho h

/-- A scan that stores no string ends. -/
theorem scan_bounded (h : ∀ d ∈ ds, d.Bounded) (k : Nat) (t : List UInt8) (s : σ) :
    ∃ r, (scan ds k t s).result = some r := by
  induction ds generalizing k t s with
  | nil => exact ⟨_, rfl⟩
  | cons d ds ih =>
    exact scan_cons_some (h d List.mem_cons_self t s) (ih fun d hd => h d (List.mem_cons_of_mem _ hd))

/-- A string up to the character `c` overruns just if what is there before the
character does not fit. -/
theorem apply_upto_overrun {c : UInt8} {size : Nat} (hsize : 0 < size) {put : List UInt8 → σ → σ} :
    (Directive.upto c size put).apply t s = .overrun ↔ size ≤ (t.takeWhile (· ≠ c)).length := by
  simp only [Directive.apply]
  split
  · rename_i ht
    rw [ht]
    exact iff_of_false (by simp) (by simpa using hsize.ne')
  split
  · rename_i ht hc
    rcases t with _ | ⟨b, t⟩
    · exact absurd rfl ht
    · obtain rfl : b = c := by simpa using hc
      exact iff_of_false (by simp) (by simpa using hsize.ne')
  · rw [Found.fits]
    split
    · rename_i hl
      exact iff_of_false (by simp) (by omega)
    · rename_i hl
      exact iff_of_true rfl (by omega)

/-- A word overruns just if it does not fit. -/
theorem apply_str_overrun {size : Nat} (hsize : 0 < size) {put : List UInt8 → σ → σ} :
    (Directive.str size put).apply t s = .overrun ↔
      size ≤ ((t.dropWhile isspace).takeWhile fun c => !isspace c).length := by
  simp only [Directive.apply]
  split
  · rename_i ht
    rw [ht]
    exact iff_of_false (by simp) (by simpa using hsize.ne')
  · rw [Found.fits]
    split
    · rename_i hl
      exact iff_of_false (by simp) (by omega)
    · rename_i hl
      exact iff_of_true rfl (by omega)

end Scan

end SO
