import Proyectos.Framework.Spans
import Mathlib.Data.List.OfFn

/-!
# Byte arrays of a fixed size

`Buf n` is a C `char[n]`. A store names any index, and one outside the array
changes no byte of it, so the list of stores a program makes is what tells
whether it stayed inside. `copyTo` lists the stores of a
copy that may leave some bytes as they were (a copy that fails half-way), and
`get_stores_copyTo` reads the array after it. `cstr` is what `%s` prints:
nothing, where no byte of the array is the terminator.
-/

namespace SO

/-- A `char[n]`. -/
structure Buf (n : Nat) where
  get : Fin n → UInt8

/-- A store: its index, counted from the array's first byte, and the byte. -/
abbrev Store := Int × UInt8

namespace Buf

variable {n : Nat}

/-- One store; the array has no byte at an index outside it. -/
def store (b : Buf n) (w : Store) : Buf n := ⟨fun j => if (j : Int) = w.1 then w.2 else b.get j⟩

/-- The stores `ws`, in order. -/
def stores (b : Buf n) (ws : List Store) : Buf n := ws.foldl store b

/-- The stores of a copy of `k` bytes to the index `off`, of those bytes `img`
gives. -/
def copyTo (off : Int) (k : Nat) (img : Nat → Option UInt8) : List Store :=
  (List.range k).filterMap fun i => (img i).map fun v => (off + (i : Int), v)

/-- The array's bytes. -/
def bytes (b : Buf n) : List UInt8 := List.ofFn b.get

/-- `strlen` (the array's size, where it holds no terminator). -/
def strlen (b : Buf n) : Nat := (b.bytes.takeWhile (· ≠ 0)).length

/-- The string `%s` prints, if its terminator is inside the array. -/
def cstr (b : Buf n) : Option (List UInt8) :=
  if 0 ∈ b.bytes then some (b.bytes.takeWhile (· ≠ 0)) else none

/-- The string `l` and its terminator, put at the array's start. -/
def putStr (b : Buf n) (l : List UInt8) : Buf n := ⟨fun j => (l ++ [0]).getD j (b.get j)⟩

/-- `static char b[n] = "…"`: the string, then zeros. -/
def ofBytes (l : List UInt8) : Buf n := ⟨fun j => l.getD j 0⟩

/-! ## Stores -/

@[simp] theorem get_store (b : Buf n) (w : Store) (j : Fin n) :
    (b.store w).get j = if (j : Int) = w.1 then w.2 else b.get j := rfl

@[simp] theorem stores_nil (b : Buf n) : b.stores [] = b := rfl

@[simp] theorem stores_cons (b : Buf n) (w : Store) (ws : List Store) :
    b.stores (w :: ws) = (b.store w).stores ws := rfl

theorem stores_append (b : Buf n) (ws ws' : List Store) :
    b.stores (ws ++ ws') = (b.stores ws).stores ws' := List.foldl_append

/-- A byte no store names keeps its value. -/
theorem get_stores_of_ne (b : Buf n) {ws : List Store} {j : Fin n} (h : ∀ w ∈ ws, w.1 ≠ j) :
    (b.stores ws).get j = b.get j := by
  induction ws generalizing b with
  | nil => rfl
  | cons w ws ih =>
    rw [stores_cons, ih _ fun v hv => h v (List.mem_cons_of_mem _ hv), get_store,
      if_neg fun e => h w List.mem_cons_self e.symm]

theorem mem_copyTo {off : Int} {k : Nat} {img : Nat → Option UInt8} {w : Store} :
    w ∈ copyTo off k img ↔ ∃ i < k, img i = some w.2 ∧ w.1 = off + i := by
  obtain ⟨x, v⟩ := w
  simp only [copyTo, List.mem_filterMap, List.mem_range, Option.map_eq_some_iff, Prod.mk.injEq]
  constructor
  · rintro ⟨i, hi, u, hu, rfl, rfl⟩
    exact ⟨i, hi, hu, rfl⟩
  · rintro ⟨i, hi, hv, rfl⟩
    exact ⟨i, hi, v, hv, rfl, rfl⟩

/-- The stores of a copy are between its first index and its end. -/
theorem copyTo_between {off : Int} {k : Nat} {img : Nat → Option UInt8} :
    ∀ w ∈ copyTo off k img, off ≤ w.1 ∧ w.1 < off + k := by
  intro w hw
  obtain ⟨i, hi, -, e⟩ := mem_copyTo.mp hw
  omega

theorem copyTo_succ (off : Int) (k : Nat) (img : Nat → Option UInt8) :
    copyTo off (k + 1) img = copyTo off k img ++ ((img k).map fun v => (off + (k : Int), v)).toList := by
  rw [copyTo, List.range_succ, List.filterMap_append]
  cases h : img k <;> simp [copyTo, h]

/-- The stores of a copy are in the order of their indices. -/
theorem copyTo_split {off : Int} {k : Nat} {img : Nat → Option UInt8} {w : Store}
    (h : w ∈ copyTo off k img) : ∃ l r, copyTo off k img = l ++ w :: r ∧ ∀ v ∈ l, v.1 < w.1 := by
  induction k with
  | zero => cases h
  | succ k ih =>
    rw [copyTo_succ] at h ⊢
    rcases List.mem_append.mp h with h | h
    · obtain ⟨l, r, e, hl⟩ := ih h
      exact ⟨l, r ++ _, by rw [e, List.append_assoc, List.cons_append], hl⟩
    · rw [Option.mem_toList] at h
      rw [h]
      obtain ⟨u, -, rfl⟩ := Option.map_eq_some_iff.mp h
      exact ⟨_, [], rfl, fun v hv => (copyTo_between v hv).2⟩

/-- The array after a copy: the bytes copied, the others as they were. -/
theorem get_stores_copyTo (b : Buf n) (off : Int) (k : Nat) (img : Nat → Option UInt8) (j : Fin n) :
    (b.stores (copyTo off k img)).get j =
      if off ≤ j ∧ (j : Int) < off + k then (img ((j : Int) - off).toNat).getD (b.get j)
      else b.get j := by
  induction k with
  | zero => rw [if_neg (by omega)]; rfl
  | succ k ih =>
    rw [copyTo_succ, stores_append]
    by_cases hj : (j : Int) = off + k
    · have hk : ((j : Int) - off).toNat = k := by omega
      rw [if_neg (by omega)] at ih
      rw [if_pos (by omega), hk]
      cases h : img k with
      | none => simpa using ih
      | some v => simp [hj]
    · have hk : ((b.stores (copyTo off k img)).stores
          ((img k).map fun v => (off + (k : Int), v)).toList).get j =
          (b.stores (copyTo off k img)).get j := by
        refine get_stores_of_ne _ fun w hw => ?_
        simp only [Option.mem_toList, Option.map_eq_some_iff] at hw
        obtain ⟨v, -, rfl⟩ := hw
        exact fun e => hj e.symm
      rw [hk, ih]
      by_cases h : off ≤ j ∧ (j : Int) < off + k
      · rw [if_pos h, if_pos (by omega)]
      · rw [if_neg h, if_neg (by omega)]

/-! ## Strings -/

theorem mem_bytes {b : Buf n} {v : UInt8} : v ∈ b.bytes ↔ ∃ j, b.get j = v := by
  simp only [bytes, List.mem_ofFn]

theorem getElem_bytes {b : Buf n} {i : Nat} (h : i < b.bytes.length) :
    b.bytes[i] = b.get ⟨i, by simpa [bytes] using h⟩ := by
  simp [bytes]

@[simp] theorem length_bytes (b : Buf n) : b.bytes.length = n := by simp [bytes]

/-- The bytes after a store. -/
theorem bytes_store (b : Buf n) (i : Nat) (v : UInt8) :
    (b.store (i, v)).bytes = b.bytes.set i v := by
  apply List.ext_getElem
  · simp only [List.length_set, length_bytes]
  · intro j _ _
    rw [List.getElem_set, getElem_bytes, getElem_bytes, get_store]
    simp only [Int.natCast_inj, eq_comm]

/-- A store leaves the bytes before it. -/
theorem take_store (b : Buf n) (i : Nat) (v : UInt8) :
    (b.store (i, v)).bytes.take i = b.bytes.take i := by
  apply List.ext_getElem
  · simp only [List.length_take, length_bytes]
  · intro j hj _
    simp only [List.length_take, length_bytes] at hj
    rw [List.getElem_take, List.getElem_take, getElem_bytes, getElem_bytes, get_store, if_neg]
    simp only
    omega

/-- The string `%s` prints, where byte `i` is 0: the bytes before it, cut at the
first 0 among them. -/
theorem cstr_of_take {b : Buf n} {i : Fin n} (h0 : b.get i = 0) :
    b.cstr = some ((b.bytes.take i).takeWhile (· ≠ 0)) := by
  have hi : (i : Nat) < b.bytes.length := by rw [length_bytes]; exact i.isLt
  have hb : b.bytes = b.bytes.take i ++ 0 :: b.bytes.drop (i + 1) := by
    rw [← h0, ← getElem_bytes hi, List.getElem_cons_drop, List.take_append_drop]
  rw [cstr, if_pos (mem_bytes.mpr ⟨i, h0⟩)]
  generalize b.bytes.take i = l at hb ⊢
  rw [hb, List.takeWhile_append]
  split
  · rename_i hl
    rw [List.takeWhile_cons_of_neg (by simp), List.append_nil]
    exact congrArg some (((List.takeWhile_prefix _).eq_of_length hl)).symm
  · rfl

/-- What `%s` prints of an array that starts with `l` is `l`, cut at its first 0,
just if it has one or one comes right after it. -/
theorem cstr_eq_iff {b : Buf n} {l : List UInt8} (h : l.length < n)
    (ht : b.bytes.take l.length = l) :
    b.cstr = some (l.takeWhile (· ≠ 0)) ↔ 0 ∈ l ∨ b.get ⟨l.length, h⟩ = 0 := by
  have hi : l.length < b.bytes.length := by rwa [length_bytes]
  have hb : b.bytes = l ++ b.get ⟨l.length, h⟩ :: b.bytes.drop (l.length + 1) := by
    rw [← getElem_bytes hi, List.getElem_cons_drop]
    exact (List.take_append_drop _ _).symm.trans (congrArg (· ++ _) ht)
  by_cases h0 : 0 ∈ l
  · -- the first 0 of the array is the first of `l`
    refine iff_of_true ?_ (.inl h0)
    have hne : (l.takeWhile (· ≠ 0)).length ≠ l.length := fun e =>
      takeWhile_ne_eq_self.mp ((List.takeWhile_prefix _).eq_of_length e) h0
    have hm : 0 ∈ b.bytes := by
      rw [hb]
      exact List.mem_append_left _ h0
    rw [cstr, if_pos hm, hb, List.takeWhile_append, if_neg hne]
  · have hall : ∀ v ∈ l, decide (v ≠ 0) = true := forall_ne_iff.mpr h0
    rw [or_iff_right h0, takeWhile_ne_eq_self.mpr h0]
    constructor
    · intro hc
      rw [cstr] at hc
      split at hc <;> [skip; cases hc]
      rw [hb, List.takeWhile_append_of_pos hall, Option.some.injEq, List.append_right_eq_self] at hc
      by_contra h1
      rw [List.takeWhile_cons_of_pos (by simpa using h1)] at hc
      cases hc
    · intro h1
      rw [cstr_of_take h1]
      simp only [ht, takeWhile_ne_eq_self.mpr h0]

/-- What `%s` prints of bytes put there with a terminator: the string they start
with. -/
theorem cstr_putStr_cut (b : Buf n) {l : List UInt8} (h : l.length < n) :
    (b.putStr l).cstr = some (l.takeWhile (· ≠ 0)) := by
  have hz : (b.putStr l).get ⟨l.length, h⟩ = 0 := by simp [putStr]
  have ht : (b.putStr l).bytes.take l.length = l := by
    apply List.ext_getElem
    · simp only [List.length_take, length_bytes]
      omega
    · intro i hi hi'
      rw [List.getElem_take, getElem_bytes]
      simp [putStr, List.getElem?_append_left hi', List.getElem?_eq_getElem hi']
  rw [cstr_of_take hz]
  simp only [ht]

/-- All of them, if there is no 0 among them. -/
theorem cstr_putStr (b : Buf n) {l : List UInt8} (h0 : 0 ∉ l) (h : l.length < n) :
    (b.putStr l).cstr = some l := by
  rw [cstr_putStr_cut b h, takeWhile_ne_eq_self.mpr h0]

/-- `%s` finds a terminator just if some byte of the array is 0. -/
theorem cstr_ne_none {b : Buf n} : b.cstr ≠ none ↔ ∃ j, b.get j = 0 := by
  rw [cstr, ← mem_bytes]
  split <;> simp [*]

theorem bytes_ofBytes {l : List UInt8} (h : l.length ≤ n) :
    (ofBytes l : Buf n).bytes = l ++ List.replicate (n - l.length) 0 := by
  apply List.ext_getElem
  · simp [bytes, h]
  · intro i h₁ _
    simp only [bytes, List.length_ofFn] at h₁
    simp only [bytes, ofBytes, List.getElem_ofFn, List.getD_eq_getElem?_getD, List.getElem_append,
      List.getElem_replicate]
    split
    · rename_i hi; simp [hi]
    · rename_i hi; simp [Nat.not_lt.mp hi]

/-- The length of the string an array was initialised with. -/
theorem strlen_ofBytes {l : List UInt8} (h0 : 0 ∉ l) (h : l.length ≤ n) :
    (ofBytes l : Buf n).strlen = l.length := by
  rw [strlen, bytes_ofBytes h, List.takeWhile_append_of_pos (forall_ne_iff.mpr h0)]
  cases n - l.length <;> simp [List.replicate_succ]

/-- Its first bytes. -/
theorem take_bytes_ofBytes {l : List UInt8} (h : l.length ≤ n) {k : Nat} (hk : k ≤ l.length) :
    (ofBytes l : Buf n).bytes.take k = l.take k := by
  rw [bytes_ofBytes h, List.take_append_of_le_length hk]

end Buf

end SO
