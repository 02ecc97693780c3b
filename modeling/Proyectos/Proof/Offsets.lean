import Proyectos.Proof.Sessions

/-!
# File offsets

Three of the drivers, and `pokemon`, write at the file offset. On the calls the
VFS lets through (`VfsCall`), a session's own offset stays within the array
(`Moves.after`), and the length a write is cut to is computed without a wrap
(`clamp_eq`). A valid write accepts as many bytes as it is cut to (`Appends`).
-/

namespace SO

/-- The length a write of `len` bytes at `off` is cut to. -/
theorem clamp_eq {len : Nat} {off : Int} (h0 : 0 ≤ off) (h : ¬ off ≥ BUFFER_SIZE)
    (hl : len ≤ MAX_RW_COUNT) :
    (if sizeT (len + off) > BUFFER_SIZE then sizeT (BUFFER_SIZE - off) else len) =
      min len (BUFFER_SIZE - off.toNat) := by
  simp only [BUFFER_SIZE, MAX_RW_COUNT] at *
  have h1 : (sizeT (len + off) : Int) = len + off := sizeT_of_lt (by omega) (by omega)
  have h2 : (sizeT ((1024 : Nat) - off) : Int) = (1024 : Nat) - off :=
    sizeT_of_lt (by omega) (by omega)
  split <;> omega

namespace Driver

variable {σ : Type} {d : Driver σ} {I : Dev σ → Prop}

/-- An offset within the array, or just past its end. -/
def InArray (off : Int) : Prop := 0 ≤ off ∧ off ≤ BUFFER_SIZE

/-- What the driver does to a session's offset, in states with the invariant. -/
structure Moves (d : Driver σ) (I : Dev σ → Prop) : Prop where
  read : ∀ v buf len off, I v → InArray off → InArray ((d.read buf len off).run { dev := v }).1.2
  write : ∀ v (buf : UserSrc) off, buf.bytes.length ≤ MAX_RW_COUNT → InArray off →
    InArray ((d.write buf buf.bytes.length off).run { dev := v }).1.2

/-- A valid write accepts what fits the array after the offset, and moves the offset
past it. -/
def Appends (d : Driver σ) : Prop :=
  ∀ v (buf : UserSrc) off n, 0 ≤ off → buf.missed = 0 → buf.bytes.length ≤ MAX_RW_COUNT →
    min buf.bytes.length (BUFFER_SIZE - off.toNat) = n →
    ((d.write buf buf.bytes.length off).run { dev := v }).1 = ((n : Int), off + n)

/-- A valid write of a session at its own offset. -/
theorem Appends.step (h : d.Appends) {s : Sys σ} {k : Nat} (hk : k ∈ s.opens) (h0 : 0 ≤ s.pos k)
    {buf : UserSrc} (hb : buf.missed = 0) (hl : buf.bytes.length ≤ MAX_RW_COUNT) {n : Nat}
    (hn : min buf.bytes.length (BUFFER_SIZE - (s.pos k).toNat) = n) {r : Sys σ × Event}
    (hr : d.step s (.write k none buf) = r) :
    r.2.ret = n ∧ k ∈ r.1.opens ∧ r.1.pos k = s.pos k + n := by
  generalize hw : (d.write buf buf.bytes.length (s.offset k none)).run { dev := s.dev } = w
  have hret : w.1 = ((n : Int), s.pos k + n) := by
    rw [← hw]
    exact h s.dev buf (s.pos k) n h0 hb hl hn
  rw [step_write hk hw, hret] at hr
  subst hr
  exact ⟨rfl, hk, s.newPos_own k (Int.natCast_nonneg n) _⟩

theorem zero_inArray : InArray 0 := ⟨le_refl _, by decide⟩

theorem update_inArray {pos : Nat → Int} (hs : ∀ k, InArray (pos k)) (k : Nat) {off : Int}
    (h : InArray off) (m : Nat) : InArray (Function.update pos k off m) := by
  rcases eq_or_ne m k with rfl | hm
  · rw [Function.update_self]; exact h
  · rw [Function.update_of_ne hm]; exact hs m

theorem newPos_inArray {s : Sys σ} (hs : ∀ k, InArray (s.pos k)) {k : Nat} {at? : Option Int}
    {ret off : Int} (h : at? = none → InArray off) : ∀ m, InArray (s.newPos k at? ret off m) := by
  unfold Sys.newPos
  split
  · rename_i hc
    exact update_inArray hs k (h hc.1)
  · exact hs

/-- The sessions' own offsets. -/
theorem Moves.step (h : d.Moves I) {s : Sys σ} (hI : I s.dev) (hs : ∀ k, InArray (s.pos k)) {c : Call}
    (hc : c.Admitted) : ∀ m, InArray ((d.step s c).1.pos m) := by
  have ho := d.step_outcome s c
  generalize d.step s c = r at ho
  cases ho with
  | refused | notOpened | close => exact hs
  | @opn k => exact update_inArray hs k zero_inArray
  | @read k at? buf len _ _ hr =>
    refine newPos_inArray hs fun ha => ?_
    rw [← hr, ha]
    exact h.read _ _ _ _ hI (hs k)
  | @write k at? buf _ _ hr =>
    refine newPos_inArray hs fun ha => ?_
    rw [← hr, ha]
    exact h.write _ _ _ hc.1 (hs k)

/-- The calls as the VFS lets them through. -/
abbrev vfs (cs : List VfsCall) : List Call := cs.map Subtype.val

theorem vfs_admitted (cs : List VfsCall) : ∀ c ∈ vfs cs, c.Admitted := by
  intro c hc
  obtain ⟨v, -, rfl⟩ := List.mem_map.mp hc
  exact v.2

theorem vfs_admitted_of_eq {cs : List VfsCall} {js ks : List Call} {c : Call}
    (e : vfs cs = js ++ c :: ks) : ∀ c' ∈ js ++ [c], c'.Admitted := by
  intro c' hc
  refine vfs_admitted cs c' ?_
  rw [e, ← List.singleton_append, ← List.append_assoc]
  exact List.mem_append_left _ hc

theorem Moves.after (h : d.Moves I) (hI : d.Keeps I) {cs : List Call} (hc : ∀ c ∈ cs, c.Admitted) :
    ∀ k, InArray ((d.after cs).pos k) := by
  have hk : I (d.after cs).dev ∧ ∀ k, InArray ((d.after cs).pos k) :=
    Run.inv_after (I := fun s : Sys σ => I s.dev ∧ ∀ k, InArray (s.pos k)) (P := Call.Admitted)
      (fun _ c hs hc => ⟨hI.step hs.1 c, h.step hs.1 hs.2 hc⟩)
      ⟨hI.init, fun _ => zero_inArray⟩ hc
  exact hk.2

/-- If the call is a write, its offset is not negative and its length is one the
VFS asks for. -/
def InVfs (s : Sys σ) (c : Call) : Prop :=
  ∀ k at? buf, c = .write k at? buf → 0 ≤ s.offset k at? ∧ buf.bytes.length ≤ MAX_RW_COUNT

theorem Moves.inVfs (h : d.Moves I) (hI : d.Keeps I) {cs : List Call} {c : Call}
    (hc : ∀ c' ∈ cs ++ [c], c'.Admitted) : InVfs (d.after cs) c := by
  rintro k at? buf rfl
  have hw : (Call.write k at? buf).Admitted := hc _ (List.mem_append_right _ List.mem_cons_self)
  refine ⟨?_, hw.1⟩
  cases at? with
  | none => exact (h.after hI (fun c hm => hc c (List.mem_append_left _ hm)) k).1
  | some p => exact (hw.2 p rfl).1

/-- As many bytes as the array has, none of them 0. -/
def filler : UserSrc := ⟨List.replicate BUFFER_SIZE 0x41, 0, []⟩

theorem length_filler : filler.bytes.length = BUFFER_SIZE := List.length_replicate

/-- A write that fills the array. -/
def fill : VfsCall := ⟨.write 0 none filler, by rw [length_filler]; decide, fun p hp => by cases hp⟩

end Driver

end SO
