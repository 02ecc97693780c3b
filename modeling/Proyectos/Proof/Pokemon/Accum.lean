import Proyectos.Proof.Apart
import Proyectos.Proof.Pokemon.Bounds

/-!
# `pokemon`: accumulated writes

`poke_write` appends its payload at the file offset, and then stores the
terminator at the index the payload's length alone gives. After the first bytes
that index is before the new offset. So what a session has written is kept, with
a terminator at its end, just if each terminator falls on a byte that is 0 anyway
and the array has a 0 where the new payload ends (`accumulates_iff`).
-/

namespace SO.Proof.Pokemon

open SO.Impl.Pokemon

/-- The bytes a call writes. -/
def payload : Call → List UInt8
  | .write _ _ buf => buf.bytes
  | _ => []

/-- The bytes the calls write, in order. -/
def written (cs : List Call) : List UInt8 := cs.flatMap payload

theorem written_snoc (cs : List Call) (c : Call) : written (cs ++ [c]) = written cs ++ payload c := by
  simp [written]

/-- The calls while session `k` writes: its own are writes at its file offset, from
valid buffers, and the others' are no writes. -/
def WritesOnly (k : Nat) : Call → Prop
  | .opn m | .close m => m ≠ k
  | .read m at? _ _ => m ≠ k ∨ at? ≠ none
  | .write m at? buf => m = k ∧ at? = none ∧ buf.missed = 0

/-- `write_buffer` holds `w` up to the offset of session `k`, and a terminator
there. -/
def HoldsText (k : Nat) (w : List UInt8) (s : Sys Vars) : Prop :=
  s.dev.writeBuffer.bytes.take (s.pos k).toNat = w ∧
    s.dev.writeBuffer.bytes[(s.pos k).toNat]? = some 0

/-- The line that is logged of the string `str`. -/
def textLine (str : List UInt8) : Line :=
  ⟨.kernInfo, "Mensaje recibido desde usuario: %s\n", [.s (some str)]⟩

variable (s : Sys Vars) (k : Nat) (js : List Call) (c : Call)

/-- If `c`, called after `js`, is a write: `write_buffer` then holds all that has been
written, and that is what is logged, cut at its first NUL. -/
def Kept : Prop :=
  match c with
  | .write _ _ _ =>
    HoldsText k (written (js ++ [c])) (driver.step (Run.after driver.step s js) c).1 ∧
      textLine ((written (js ++ [c])).takeWhile (· ≠ 0)) ∈
        (driver.step (Run.after driver.step s js) c).2.out.log
  | _ => True

/-- If `c`, called after `js`, is a write and not the first of any bytes: the byte
of all that has been written at the index of its length is 0, and so is the byte
of `write_buffer` where that ends. -/
def Spared : Prop :=
  match c with
  | .write _ _ buf =>
    written js = [] ∨ (written (js ++ [c]))[buf.bytes.length]? = some 0 ∧
      (Run.after driver.step s js).dev.writeBuffer.bytes[(written (js ++ [c])).length]? = some 0
  | _ => True

/-! ## One write -/

theorem set_eq_self_iff {l : List UInt8} {i : Nat} (h : i < l.length) {v : UInt8} :
    l.set i v = l ↔ l[i]? = some v := by
  constructor
  · intro e
    have hi := List.getElem?_set_self (a := v) h
    rwa [e] at hi
  · intro e
    obtain ⟨_, rfl⟩ := List.getElem?_eq_some_iff.mp e
    exact List.set_getElem_self h

/-- The terminator is stored at the index of the payload's length: it spares the
text `w ++ p` and ends it just if `w` is empty or both bytes are 0 anyway. -/
theorem store_terminator {b : Buf BUFFER_SIZE} {w p : List UInt8}
    (ht : b.bytes.take (w ++ p).length = w ++ p) (hl : (w ++ p).length < BUFFER_SIZE) :
    (b.store (p.length, 0)).bytes.take (w ++ p).length = w ++ p ∧
        (b.store (p.length, 0)).bytes[(w ++ p).length]? = some 0 ↔
      w = [] ∨ (w ++ p)[p.length]? = some 0 ∧ b.bytes[(w ++ p).length]? = some 0 := by
  rw [Buf.bytes_store, List.take_set, ht]
  rw [List.length_append] at hl ⊢
  rcases eq_or_ne w [] with rfl | hne
  · -- the terminator is where the payload ends
    refine iff_of_true ⟨List.set_eq_of_length_le le_rfl, ?_⟩ (.inl rfl)
    rw [List.length_nil, Nat.zero_add] at hl ⊢
    rw [List.getElem?_set_self]
    rw [Buf.length_bytes]
    exact hl
  · have hpos := List.length_pos_iff.mpr hne
    rw [set_eq_self_iff (by rw [List.length_append]; omega), List.getElem?_set_ne (by omega),
      or_iff_right hne]

/-- A write of a session that has written `w`: when `write_buffer` then holds all of
it, with a terminator, and what is logged. -/
theorem pokeWrite_kept {v : Dev Vars} {w : List UInt8} (hw : v.writeBuffer.bytes.take w.length = w)
    {buf : UserSrc} (hb : buf.missed = 0) (hl : (w ++ buf.bytes).length < BUFFER_SIZE)
    {r : (Int × Int) × CallSt Vars}
    (hr : (pokeWrite buf buf.bytes.length w.length).run { dev := v } = r) :
    (r.2.dev.writeBuffer.bytes.take (w ++ buf.bytes).length = w ++ buf.bytes ∧
          r.2.dev.writeBuffer.bytes[(w ++ buf.bytes).length]? = some 0 ↔
        w = [] ∨ (w ++ buf.bytes)[buf.bytes.length]? = some 0 ∧
          v.writeBuffer.bytes[(w ++ buf.bytes).length]? = some 0) ∧
      ∃ l, r.2.out.log = ⟨.kernInfo, "Mensaje recibido desde usuario: %s\n",
        [.s r.2.dev.writeBuffer.cstr]⟩ :: l := by
  generalize hp : buf.bytes = p at hl hr ⊢
  have hl' : w.length + p.length < BUFFER_SIZE := by rwa [List.length_append] at hl
  have hfar : ¬ (w.length : Int) ≥ BUFFER_SIZE := by simp only [BUFFER_SIZE] at hl' ⊢; omega
  have hmax : p.length ≤ MAX_RW_COUNT := by simp only [BUFFER_SIZE, MAX_RW_COUNT] at hl' ⊢; omega
  have hn := clamp_eq (Int.natCast_nonneg w.length) hfar hmax
  rw [Int.toNat_natCast, Nat.min_eq_left (by omega)] at hn
  have hf : min buf.missed p.length = 0 := by rw [hb, Nat.zero_min]
  generalize hc : v.writeBuffer.copied buf p.length w.length = b
  have htake : b.bytes.take (w ++ p).length = w ++ p := by
    rw [List.length_append, ← hc, Buf.take_copied_ok _ hf (by rw [hp]) hl'.le, hw, hp, List.take_length]
  have hend : b.bytes[(w ++ p).length]? = v.writeBuffer.bytes[(w ++ p).length]? := by
    rw [List.getElem?_eq_getElem (by rw [Buf.length_bytes]; exact hl),
      List.getElem?_eq_getElem (by rw [Buf.length_bytes]; exact hl), Buf.getElem_bytes,
      Buf.getElem_bytes, ← hc, Buf.get_copied, if_neg (by simp)]
  rw [pokeWrite_ok v buf p.length w.length hfar hn hf rfl, hc] at hr
  subst hr
  rw [← hend]
  exact ⟨store_terminator htake hl, _, rfl⟩

/-! ## Every run -/

/-- Only writes change the driver's variables. -/
theorem frames_dev (v₀ : Dev Vars) : driver.Frames fun v => v = v₀ where
  opn v h := by
    show (pokeOpen.run { dev := v }).2.dev = v₀
    rw [pokeOpen_run]; exact h
  release v h := by
    show (pokeClose.run { dev := v }).2.dev = v₀
    rw [pokeClose_run]; exact h
  read v buf len off h := (pokeRead_dev v buf len off).trans h

/-- What holds while session `k` writes. -/
structure Writing : Prop where
  opens : k ∈ (Run.after driver.step s js).opens
  pos : (Run.after driver.step s js).pos k = (written js).length
  bytes : (Run.after driver.step s js).dev.writeBuffer.bytes.take (written js).length = written js

variable {s k js c}

/-- A call that is no write leaves the session's place, its offset and the array. -/
theorem writing_keep (h : Writing s k js) (hc : WritesOnly k c)
    (hw : ∀ m at? buf, c ≠ .write m at? buf) : Writing s k (js ++ [c]) := by
  have hwr : written (js ++ [c]) = written js := by
    rw [written_snoc]
    cases c with
    | opn m | close m | read m at? buf len => exact List.append_nil _
    | write m at? buf => exact absurd rfl (hw m at? buf)
  have hdev : (driver.step (Run.after driver.step s js) c).1.dev =
      (Run.after driver.step s js).dev :=
    (frames_dev _).step rfl fun m at? buf e => absurd e (hw m at? buf)
  have hview : k ∈ (driver.step (Run.after driver.step s js) c).1.opens ∧
      (driver.step (Run.after driver.step s js) c).1.pos k = (Run.after driver.step s js).pos k := by
    by_cases hk : c.session = k
    · cases c with
      | opn m | close m => exact absurd hk hc
      | read m at? buf len =>
        obtain rfl : m = k := hk
        have hat : at? ≠ none := hc.resolve_left (fun hne => hne rfl)
        rw [Driver.step_read h.opens rfl]
        exact ⟨h.opens, congrFun (if_neg fun hc => hat hc.1) m⟩
      | write m at? buf => exact absurd rfl (hw m at? buf)
    · exact ⟨(Driver.status_eq_iff.mp (Driver.status_of_ne driver_opens hk)).1.mpr h.opens,
        Driver.pos_of_ne driver_opens hk⟩
  refine ⟨?_, ?_, ?_⟩
  · rw [Run.after_snoc]; exact hview.1
  · rw [Run.after_snoc, hview.2, hwr]; exact h.pos
  · rw [Run.after_snoc, hdev, hwr]; exact h.bytes

/-- The session's own write. -/
theorem writing_write (h : Writing s k js) {buf : UserSrc} (hb : buf.missed = 0)
    (hl : (written (js ++ [.write k none buf])).length < BUFFER_SIZE) :
    (Kept s k js (.write k none buf) ↔ Spared s js (.write k none buf)) ∧
      (Kept s k js (.write k none buf) → Writing s k (js ++ [.write k none buf])) := by
  have hwr : written (js ++ [.write k none buf]) = written js ++ buf.bytes := written_snoc _ _
  have hoff : (Run.after driver.step s js).offset k none = (written js).length := h.pos
  generalize hr : (driver.write buf buf.bytes.length (written js).length).run
    { dev := (Run.after driver.step s js).dev } = r
  obtain ⟨hiff, l, hlog⟩ := pokeWrite_kept h.bytes hb (hwr ▸ hl) hr
  rw [← hoff] at hr
  have hs := Driver.step_write h.opens hr
  have hn : min buf.bytes.length (BUFFER_SIZE - ((Run.after driver.step s js).pos k).toNat) =
      buf.bytes.length := by
    rw [hwr, List.length_append] at hl
    rw [h.pos, Int.toNat_natCast]
    omega
  have hmax : buf.bytes.length ≤ MAX_RW_COUNT := by
    rw [hwr, List.length_append] at hl
    simp only [BUFFER_SIZE, MAX_RW_COUNT] at hl ⊢
    omega
  obtain ⟨-, hopen, hpos⟩ := appends.step h.opens (by rw [h.pos]; exact Int.natCast_nonneg _) hb hmax hn rfl
  rw [h.pos, ← Nat.cast_add, ← List.length_append, ← hwr] at hpos
  have hdev : (driver.step (Run.after driver.step s js) (.write k none buf)).1.dev = r.2.dev := by
    rw [hs]
  have hholds : HoldsText k (written (js ++ [.write k none buf]))
      (driver.step (Run.after driver.step s js) (.write k none buf)).1 ↔
      Spared s js (.write k none buf) := by
    rw [HoldsText, hpos, Int.toNat_natCast, hdev, Spared, hwr]
    exact hiff
  refine ⟨⟨fun hk => hholds.mp hk.1, fun hsp => ⟨hholds.mpr hsp, ?_⟩⟩, fun hk => ⟨?_, ?_, ?_⟩⟩
  · -- the terminator ends what is logged
    obtain ⟨ht, h0⟩ := hholds.mpr hsp
    rw [hpos, Int.toNat_natCast, hdev] at ht h0
    have hz : r.2.dev.writeBuffer.get ⟨_, hl⟩ = 0 := by
      obtain ⟨_, hz⟩ := List.getElem?_eq_some_iff.mp h0
      rw [← hz, Buf.getElem_bytes]
    rw [hs, hlog, Buf.cstr_of_take hz]
    simp only [ht]
    exact List.mem_cons_self
  · rw [Run.after_snoc]; exact hopen
  · rw [Run.after_snoc]; exact hpos
  · have ht := hk.1.1
    rw [hpos, Int.toNat_natCast] at ht
    rw [Run.after_snoc]; exact ht

/-- Every state in which session `k` is at the offset 0, and every sequence of calls
from it in which the session only writes, fewer bytes than the array has, and
nobody else writes: each write keeps all that has been written just if each is
spared. -/
theorem accumulates_iff (s : Sys Vars) (k : Nat) (hk : k ∈ s.opens) (h0 : s.pos k = 0)
    (cs : List Call) (hc : ∀ c ∈ cs, WritesOnly k c) (hl : (written cs).length < BUFFER_SIZE) :
    (∀ js c ks, cs = js ++ c :: ks → Kept s k js c) ↔
      ∀ js c ks, cs = js ++ c :: ks → Spared s js c := by
  refine Run.forall_cuts_iff (I := Writing s k) ⟨hk, h0, rfl⟩ fun js c ks e h => ?_
  have hcc : WritesOnly k c := hc c (by rw [e]; exact List.mem_append_right _ List.mem_cons_self)
  have hlen : (written (js ++ [c])).length < BUFFER_SIZE := by
    have hw : written cs = written (js ++ [c]) ++ written ks := by
      rw [e, List.append_cons]
      exact List.flatMap_append
    rw [hw, List.length_append] at hl
    omega
  cases c with
  | opn m | close m | read m at? buf len =>
    exact ⟨Iff.rfl, fun _ => writing_keep h hcc fun _ _ _ e => by cases e⟩
  | write m at? buf =>
    obtain ⟨rfl, rfl, hb⟩ := hcc
    exact writing_write h hb hlen

/-- A write of one byte, and one of two bytes the second of which is a NUL. -/
theorem accumulates_nul : Kept (driver.after [.opn 0]) 0
    [.write 0 none ⟨[0x41], 0, []⟩] (.write 0 none ⟨[0x42, 0x00], 0, []⟩) := by
  refine (accumulates_iff _ 0 (by decide) (by decide)
    [.write 0 none ⟨[0x41], 0, []⟩, .write 0 none ⟨[0x42, 0x00], 0, []⟩] (by simp [WritesOnly])
    (by decide)).mpr (fun js c ks e => ?_) [.write 0 none ⟨[0x41], 0, []⟩] _ [] rfl
  rcases js with _ | ⟨a, _ | ⟨b, js⟩⟩
  · simp only [List.nil_append, List.cons.injEq] at e
    obtain ⟨rfl, -⟩ := e
    exact .inl rfl
  · simp only [List.cons_append, List.nil_append, List.cons.injEq] at e
    obtain ⟨rfl, rfl, -⟩ := e
    exact .inr ⟨by decide +kernel, by decide +kernel⟩
  · simp at e

/-- Two writes of one byte each. -/
theorem second_write_cut :
    ¬ ∀ (s : Sys Vars) (k : Nat) (cs : List Call), k ∈ s.opens → s.pos k = 0 →
      (∀ c ∈ cs, WritesOnly k c) → (written cs).length < BUFFER_SIZE →
      ∀ js c ks, cs = js ++ c :: ks → Kept s k js c := by
  intro h
  have hc : ∀ c ∈ [Call.write 0 none ⟨[0x41], 0, []⟩, .write 0 none ⟨[0x42], 0, []⟩],
      WritesOnly 0 c := by simp [WritesOnly]
  have hk := h (driver.after [.opn 0]) 0 _ (by decide) (by decide) hc (by decide)
    [.write 0 none ⟨[0x41], 0, []⟩] _ [] rfl
  exact absurd hk.1.1 (by decide +kernel)

end SO.Proof.Pokemon
