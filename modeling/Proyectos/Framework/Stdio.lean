import Proyectos.Framework.Spans

/-!
# Reading a text

The parts of the C and C++ libraries that take a text apart, over lists of
bytes: `isspace` and `isdigit` (in the C locale), `fgetc`, `fgets` and
`getline`. A `Reader` takes one item after another from the front of a text, as
a loop on `fgets` or `getline` does, and `Reader.all` lists what the loop is
handed; `Reader.induct` is induction along it.

* `Reader.exists_rest`: what it is handed and what it leaves make up the text.
* `getline_lines`: `getline` gives back the lines a text was made of.
* `fgets_lines`: `fgets` gives, line by line, the pieces of each (`pieces`);
  a line that fits is one piece.
* `flatten_fgets`: put together, what `fgets` gives of any text is the text.
-/

namespace SO

/-- `isspace`. -/
def isspace (c : UInt8) : Bool := c == ' '.toUInt8 || ('\t'.toUInt8 ≤ c && c ≤ '\r'.toUInt8)

/-- `isdigit`. -/
def isdigit (c : UInt8) : Bool := '0'.toUInt8 ≤ c && c ≤ '9'.toUInt8

/-- The newline. -/
abbrev nl : UInt8 := '\n'.toUInt8

/-- The C string at the start of some bytes. -/
def cstring (t : List UInt8) : List UInt8 := t.takeWhile (· ≠ 0)

/-- A file, as an open of its path finds it: there may be none, or one whose
first read fails. -/
inductive File
  | absent
  | unreadable
  | text (bytes : List UInt8)
  deriving DecidableEq, Repr

/-- The text a stream opened on the file yields, if it opens. A read that fails
yields none, as the end of the file does. -/
def File.opened : File → Option (List UInt8)
  | .absent => none
  | .unreadable => some []
  | .text t => some t

theorem cstring_of_noNul {q : List UInt8} (h : 0 ∉ q) : cstring q = q := takeWhile_ne_eq_self.mpr h

theorem nul_notMem_cstring (t : List UInt8) : 0 ∉ cstring t := notMem_takeWhile_ne t

theorem not_isspace_of_isdigit {c : UInt8} (h : isdigit c) : isspace c = false := by
  simp only [isdigit, isspace, UInt8.le_iff_toNat_le, Bool.and_eq_true, decide_eq_true_eq,
    Bool.or_eq_false_iff, beq_eq_false_iff_ne, ne_eq, Bool.and_eq_false_iff,
    decide_eq_false_iff_not] at h ⊢
  have h0 : '0'.toUInt8.toNat = 48 := rfl
  have h1 : '\r'.toUInt8.toNat = 13 := rfl
  refine ⟨?_, .inr (by omega)⟩
  rintro rfl
  exact absurd h.1 (by decide)

/-! ## Readers -/

/-- Takes an item from the front of a text, until there is none left. -/
structure Reader (α : Type) where
  next : List UInt8 → Option (α × List UInt8)
  shrinks {t r : List UInt8} {a : α} : next t = some (a, r) → r.length < t.length

namespace Reader

variable {α : Type}

/-- Everything a loop on the reader is handed. -/
def all (R : Reader α) (t : List UInt8) : List α :=
  match h : R.next t with
  | none => []
  | some (a, r) =>
    have := R.shrinks h
    a :: R.all r
termination_by t.length

variable {R : Reader α}

theorem all_of_none {t : List UInt8} (h : R.next t = none) : R.all t = [] := by
  rw [all]
  split <;> simp_all

theorem all_of_some {t r : List UInt8} {a : α} (h : R.next t = some (a, r)) :
    R.all t = a :: R.all r := by
  rw [all]
  split <;> simp_all

/-- Induction along the loop. -/
@[elab_as_elim]
theorem induct {P : List UInt8 → Prop} (stop : ∀ t, R.next t = none → P t)
    (item : ∀ t a r, R.next t = some (a, r) → P r → P t) (t : List UInt8) : P t :=
  match h : R.next t with
  | none => stop t h
  | some (a, r) =>
    have := R.shrinks h
    item t a r h (induct stop item r)
termination_by t.length

/-- What is true of whatever can be read is true of what is. -/
theorem forall_mem_all {P : α → Prop} (h : ∀ {t r a}, R.next t = some (a, r) → P a)
    (t : List UInt8) : ∀ a ∈ R.all t, P a := by
  induction t using R.induct with
  | stop t hn => simp [all_of_none hn]
  | item t a r hn ih =>
    rw [all_of_some hn, List.forall_mem_cons]
    exact ⟨h hn, ih⟩

/-- The items of a reader whose items are the bytes it takes: with what is left
when the loop ends, they make up the text. -/
theorem exists_rest {f : α → List UInt8} (h : ∀ {t r a}, R.next t = some (a, r) → t = f a ++ r)
    (t : List UInt8) : ∃ r, R.next r = none ∧ t = (R.all t).flatMap f ++ r := by
  induction t using R.induct with
  | stop t hn => exact ⟨t, hn, by rw [all_of_none hn]; rfl⟩
  | item t a r hn ih =>
    obtain ⟨r', hn', hr⟩ := ih
    refine ⟨r', hn', ?_⟩
    rw [all_of_some hn, List.flatMap_cons, List.append_assoc, ← hr]
    exact h hn

end Reader

/-! ## Characters -/

/-- `EOF`. -/
abbrev EOF : Int := -1

/-- `fgetc(f)` on what is left of the file: a byte, as an `int` that is not
negative, or `EOF`. -/
def fgetc : List UInt8 → Int × List UInt8
  | [] => (EOF, [])
  | c :: t => (c.toNat, t)

/-! ## Lines -/

/-- The bytes up to the first newline, which is kept. -/
def firstLine (t : List UInt8) : List UInt8 :=
  t.takeWhile (· ≠ nl) ++ (t.dropWhile (· ≠ nl)).take 1

/-- `fgets(buffer, n, f)` on what is left of the file. -/
def fgets (n : Nat) (t : List UInt8) : Option (List UInt8 × List UInt8) :=
  if t = [] then none else some ((firstLine t).take (n - 1), t.drop ((firstLine t).take (n - 1)).length)

/-- `getline(f, s)` on what is left of the file. -/
def getline (t : List UInt8) : Option (List UInt8 × List UInt8) :=
  if t = [] then none else some (t.takeWhile (· ≠ nl), (t.dropWhile (· ≠ nl)).drop 1)

theorem firstLine_ne_nil {t : List UInt8} (h : t ≠ []) : firstLine t ≠ [] := by
  rcases t with _ | ⟨c, t⟩
  · exact absurd rfl h
  · by_cases hc : c = nl <;> simp [firstLine, hc]

theorem isPrefix_firstLine (t : List UInt8) : firstLine t <+: t := by
  have h : t.takeWhile (· ≠ nl) ++ (t.dropWhile (· ≠ nl)).take 1 <+:
      t.takeWhile (· ≠ nl) ++ t.dropWhile (· ≠ nl) :=
    (List.prefix_append_right_inj _).mpr (List.take_prefix _ _)
  rwa [List.takeWhile_append_dropWhile] at h

theorem firstLine_append {l : List UInt8} (hl : nl ∉ l) (r : List UInt8) :
    firstLine (l ++ nl :: r) = l ++ [nl] := by
  have hp : ∀ c ∈ l, decide (c ≠ nl) = true := forall_ne_iff.mpr hl
  rw [firstLine, List.takeWhile_append_of_pos hp, List.dropWhile_append_of_pos hp]
  simp

/-- The reader of `getline`. -/
def lines : Reader (List UInt8) where
  next := getline
  shrinks {t r a} h := by
    unfold getline at h
    split at h
    · cases h
    · rename_i ht
      cases h
      have hl := congrArg List.length (List.takeWhile_append_dropWhile (p := (· ≠ nl)) (l := t))
      have h0 := List.length_pos_iff.mpr ht
      simp only [List.length_append, List.length_drop] at hl ⊢
      omega

theorem fgets_eq_none {n : Nat} {t : List UInt8} : fgets n t = none ↔ t = [] := by
  unfold fgets
  split <;> simp [*]

/-- What `fgets` reads comes off the front of the file. -/
theorem append_of_fgets {n : Nat} {t r a : List UInt8} (h : fgets n t = some (a, r)) : t = a ++ r := by
  unfold fgets at h
  split at h
  · cases h
  · cases h
    have hp : (firstLine t).take (n - 1) <+: t := (List.take_prefix _ _).trans (isPrefix_firstLine t)
    exact (List.prefix_iff_eq_append.mp hp).symm

/-- It leaves room for the terminator. -/
theorem length_of_fgets {n : Nat} (hn : 1 < n) {t r a : List UInt8} (h : fgets n t = some (a, r)) :
    a.length < n := by
  unfold fgets at h
  split at h
  · cases h
  · cases h
    rw [List.length_take]
    omega

/-- The reader of `fgets`; it makes progress with room for one byte. -/
def fgetsOf (n : Nat) (hn : 1 < n) : Reader (List UInt8) where
  next := fgets n
  shrinks {t r a} h := by
    unfold fgets at h
    split at h
    · cases h
    · rename_i ht
      cases h
      have h0 := List.length_pos_iff.mpr ht
      have h1 := List.length_pos_iff.mpr (firstLine_ne_nil ht)
      simp only [List.length_drop, List.length_take]
      omega

/-- A text of these lines. -/
def unlines (ls : List (List UInt8)) : List UInt8 := ls.flatMap (· ++ [nl])

@[simp] theorem unlines_nil : unlines [] = [] := rfl

@[simp] theorem unlines_cons (l : List UInt8) (ls : List (List UInt8)) :
    unlines (l :: ls) = l ++ nl :: unlines ls := by simp [unlines]

/-- `getline` gives back the lines a text was made of. -/
theorem getline_lines {ls : List (List UInt8)} (h : ∀ l ∈ ls, nl ∉ l) :
    lines.all (unlines ls) = ls := by
  induction ls with
  | nil => exact Reader.all_of_none rfl
  | cons l ls ih =>
    have hp : ∀ c ∈ l, decide (c ≠ nl) = true := forall_ne_iff.mpr (h l List.mem_cons_self)
    have hn : lines.next (unlines (l :: ls)) = some (l, unlines ls) := by
      rw [unlines_cons]
      show getline _ = _
      rw [getline, if_neg (by simp), List.takeWhile_append_of_pos hp, List.dropWhile_append_of_pos hp]
      simp
    rw [Reader.all_of_some hn, ih fun l' hl' => h l' (List.mem_cons_of_mem _ hl')]

section fgets

variable {n : Nat} {hn : 1 < n}

/-- What a loop on `fgets` is handed of a line. -/
def pieces (n : Nat) (hn : 1 < n) (l : List UInt8) : List (List UInt8) := (fgetsOf n hn).all (l ++ [nl])

/-- A line that fits is one piece. -/
theorem fgets_of_fits {l : List UInt8} (hl : nl ∉ l) (hf : l.length + 1 < n) (r : List UInt8) :
    (fgetsOf n hn).next (l ++ nl :: r) = some (l ++ [nl], r) := by
  show fgets n _ = _
  rw [fgets, if_neg (by simp), firstLine_append hl, List.take_of_length_le (by simp; omega)]
  simp

theorem pieces_of_fits {l : List UInt8} (hl : nl ∉ l) (hf : l.length + 1 < n) :
    pieces n hn l = [l ++ [nl]] := by
  rw [pieces, Reader.all_of_some (fgets_of_fits hl hf []), Reader.all_of_none rfl]

/-- The first piece of a longer one. -/
theorem fgets_of_long {l : List UInt8} (hl : nl ∉ l) (hf : n ≤ l.length + 1) (r : List UInt8) :
    (fgetsOf n hn).next (l ++ nl :: r) = some (l.take (n - 1), l.drop (n - 1) ++ nl :: r) := by
  have ht : (l ++ [nl]).take (n - 1) = l.take (n - 1) := List.take_append_of_le_length (by omega)
  show fgets n _ = _
  rw [fgets, if_neg (by simp), firstLine_append hl, ht, List.length_take,
    List.drop_append_of_le_length (by omega), Nat.min_eq_left (by omega)]

theorem pieces_of_long {l : List UInt8} (hl : nl ∉ l) (hf : n ≤ l.length + 1) :
    pieces n hn l = l.take (n - 1) :: pieces n hn (l.drop (n - 1)) := by
  rw [pieces, Reader.all_of_some (fgets_of_long hl hf []), pieces]

theorem all_fgets_append {l : List UInt8} (hl : nl ∉ l) (r : List UInt8) :
    (fgetsOf n hn).all (l ++ nl :: r) = pieces n hn l ++ (fgetsOf n hn).all r := by
  by_cases hf : l.length + 1 < n
  · rw [Reader.all_of_some (fgets_of_fits hl hf r), pieces_of_fits hl hf]
    rfl
  · have hd : nl ∉ l.drop (n - 1) := fun h => hl (List.mem_of_mem_drop h)
    rw [Reader.all_of_some (fgets_of_long hl (by omega) r), all_fgets_append hd r,
      pieces_of_long hl (by omega), List.cons_append]
termination_by l.length
decreasing_by
  rw [List.length_drop]
  omega

/-- Put together, what `fgets` gives is the text. -/
theorem flatten_fgets (t : List UInt8) : ((fgetsOf n hn).all t).flatMap id = t := by
  obtain ⟨r, hr, ht⟩ := (fgetsOf n hn).exists_rest (f := id) append_of_fgets t
  rw [fgets_eq_none.mp hr, List.append_nil] at ht
  exact ht.symm

/-- A piece that leaves room is a whole line, or the end of the file: a loop with
less room that it fits into is handed it as well. -/
theorem fgets_of_shorter {k : Nat} {t r a : List UInt8} (h : fgets n t = some (a, r))
    (hk : a.length < k) (hkn : k < n) : fgets k t = some (a, r) := by
  unfold fgets at h ⊢
  split at h
  · cases h
  · rename_i ht
    cases h
    rw [List.length_take] at hk
    have hn : (firstLine t).take (n - 1) = firstLine t := List.take_of_length_le (by omega)
    have hk : (firstLine t).take (k - 1) = firstLine t := List.take_of_length_le (by omega)
    rw [if_neg ht, hn, hk]

/-- Two loops on `fgets` are handed the same just if every piece of the one with
more room fits into the other's. -/
theorem all_fgets_eq_iff {k : Nat} (hk : 1 < k) (hn : 1 < n) (hkn : k < n) (t : List UInt8) :
    (fgetsOf k hk).all t = (fgetsOf n hn).all t ↔ ∀ l ∈ (fgetsOf n hn).all t, l.length < k := by
  constructor
  · intro h
    rw [← h]
    exact (fgetsOf k hk).forall_mem_all (length_of_fgets hk) t
  · intro h
    induction t using (fgetsOf n hn).induct with
    | stop t hn =>
      have hk : (fgetsOf k hk).next t = none := fgets_eq_none.mpr (fgets_eq_none.mp hn)
      rw [Reader.all_of_none hk, Reader.all_of_none hn]
    | item t a r hn ih =>
      rw [Reader.all_of_some hn, List.forall_mem_cons] at h
      have hk : (fgetsOf k hk).next t = some (a, r) := fgets_of_shorter hn h.1 hkn
      rw [Reader.all_of_some hk, Reader.all_of_some hn, ih h.2]

/-- `fgets` gives the pieces of the lines a text was made of. -/
theorem fgets_lines {ls : List (List UInt8)} (h : ∀ l ∈ ls, nl ∉ l) :
    (fgetsOf n hn).all (unlines ls) = ls.flatMap (pieces n hn) := by
  induction ls with
  | nil => exact Reader.all_of_none rfl
  | cons l ls ih =>
    rw [unlines_cons, all_fgets_append (h l List.mem_cons_self),
      ih fun l' hl' => h l' (List.mem_cons_of_mem _ hl'), List.flatMap_cons]

end fgets

end SO
