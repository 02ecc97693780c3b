import Proyectos.Proof.Pokemon.Calls
import Proyectos.Proof.Offsets

/-!
# `pokemon`: the stores into `write_buffer`

`poke_write` cuts the length of its copy to what is left of the array after the
offset, and then stores a terminator at the index the cut length alone gives.
So one store leaves the array, where that length is the whole array's
(`storesIn_iff`).
-/

namespace SO.Proof.Pokemon

open SO.Impl.Pokemon
open SO.Driver (vfs vfs_admitted vfs_admitted_of_eq InArray InVfs)

/-! ## What every function keeps -/

/-- `kernel_buffer` holds its message. -/
def Holds (v : Dev Vars) : Prop := v.kernelBuffer = .ofBytes message

theorem length_message : message.length = 41 := by decide

theorem strlen_message {v : Dev Vars} (h : Holds v) : v.kernelBuffer.strlen = 41 := by
  rw [h]
  exact Buf.strlen_ofBytes (by decide) (by decide)

theorem pokeRead_dev (v : Dev Vars) (buf : UserDst) (len : Nat) (off : Int) :
    ((pokeRead buf len off).run { dev := v }).2.dev = v := by
  by_cases h : off ≥ v.kernelBuffer.strlen
  · rw [pokeRead_eof v buf len off rfl h]
  · by_cases hf : min buf.missed v.kernelBuffer.strlen = 0
    · rw [pokeRead_ok v buf len off rfl h hf]
    · rw [pokeRead_fault v buf len off rfl h hf]

theorem pokeRead_stores (v : Dev Vars) (buf : UserDst) (len : Nat) (off : Int) :
    ((pokeRead buf len off).run { dev := v }).2.out.stores = [] := by
  by_cases h : off ≥ v.kernelBuffer.strlen
  · rw [pokeRead_eof v buf len off rfl h]
  · by_cases hf : min buf.missed v.kernelBuffer.strlen = 0
    · rw [pokeRead_ok v buf len off rfl h hf]
    · rw [pokeRead_fault v buf len off rfl h hf]

theorem pokeWrite_kernel (v : Dev Vars) (buf : UserSrc) (len : Nat) (off : Int) :
    ((pokeWrite buf len off).run { dev := v }).2.dev.kernelBuffer = v.kernelBuffer := by
  by_cases h : off ≥ BUFFER_SIZE
  · rw [pokeWrite_far v buf len off h]
  · generalize hn :
      (if sizeT (len + off) > BUFFER_SIZE then sizeT (BUFFER_SIZE - off) else len) = n
    by_cases hf : min buf.missed n = 0
    · rw [pokeWrite_ok v buf len off h hn hf rfl]
    · rw [pokeWrite_fault v buf len off h hn hf]

theorem keeps_holds : driver.Keeps Holds where
  init := rfl
  opn v h := by
    show Holds (pokeOpen.run { dev := v }).2.dev
    rw [pokeOpen_run]; exact h
  release v h := by
    show Holds (pokeClose.run { dev := v }).2.dev
    rw [pokeClose_run]; exact h
  read v buf len off h := by
    show Holds ((pokeRead buf len off).run { dev := v }).2.dev
    rw [pokeRead_dev]; exact h
  write v buf off h := (pokeWrite_kernel v buf _ off).trans h

theorem driver_opens : driver.Opens := fun v => by
  show (pokeOpen.run { dev := v }).1 = 0
  rw [pokeOpen_run]

/-- A session's offset stays within the array: a read advances it past the
message or rewinds it, a write advances it to the end of the array at most. -/
theorem moves : driver.Moves Holds where
  read v buf len off hv ho := by
    show InArray ((pokeRead buf len off).run { dev := v }).1.2
    have hn := strlen_message hv
    by_cases h : off ≥ (41 : Nat)
    · rw [pokeRead_eof v buf len off hn h]; exact Driver.zero_inArray
    · by_cases hf : min buf.missed 41 = 0
      · rw [pokeRead_ok v buf len off hn h hf]
        have h1 := ho.1
        simp only [InArray, BUFFER_SIZE] at h1 ⊢
        rw [loffT_of_lt (by omega) (by omega)]
        omega
      · rw [pokeRead_fault v buf len off hn h hf]; exact ho
  write v buf off hl ho := by
    show InArray ((pokeWrite buf buf.bytes.length off).run { dev := v }).1.2
    by_cases h : off ≥ BUFFER_SIZE
    · rw [pokeWrite_far v buf _ off h]; exact ho
    · have hn := clamp_eq ho.1 h hl
      by_cases hf : min buf.missed (min buf.bytes.length (BUFFER_SIZE - off.toNat)) = 0
      · rw [pokeWrite_ok v buf _ off h hn hf rfl]
        have h1 := ho.1
        simp only [InArray, BUFFER_SIZE] at h h1 ⊢
        rw [loffT_of_lt (by omega) (by omega)]
        omega
      · rw [pokeWrite_fault v buf _ off h hn hf]; exact ho

theorem appends : driver.Appends := by
  intro v buf off n h0 hb hl hn
  show ((pokeWrite buf buf.bytes.length off).run { dev := v }).1 = _
  by_cases h : off ≥ BUFFER_SIZE
  · have hz : n = 0 := by omega
    rw [pokeWrite_far v buf _ off h, hz, Nat.cast_zero, add_zero]
  · have hc := (clamp_eq h0 h hl).trans hn
    have hf : min buf.missed n = 0 := by rw [hb, Nat.zero_min]
    rw [pokeWrite_ok v buf _ off h hc hf rfl]
    simp only [BUFFER_SIZE] at h hn
    exact congrArg₂ _ (int32_of_lt (by omega) (by omega)) (loffT_of_lt (by omega) (by omega))

/-! ## A session's own read -/

section

variable {s : Sys Vars} {k : Nat} {r : Sys Vars × Event}

/-- A valid read before the message's end is given the message. -/
theorem read_message (hs : Holds s.dev) (hk : k ∈ s.opens) (h0 : 0 ≤ s.pos k)
    (h : s.pos k < message.length) {buf : UserDst} (hb : buf.missed = 0) (len : Nat)
    (hr : driver.step s (.read k none buf len) = r) :
    (r.2.ret, r.2.out.user) = ((message.length : Int), message) ∧ k ∈ r.1.opens ∧
      r.1.pos k = s.pos k + message.length := by
  rw [length_message] at h
  have hf : min buf.missed 41 = 0 := by rw [hb, Nat.zero_min]
  have hu : s.dev.kernelBuffer.bytes.take 41 = message := by
    rw [hs, Buf.take_bytes_ofBytes (by decide) length_message.ge, ← length_message, List.take_length]
  have hi : int32 ((41 : Nat) : Int) = (41 : Nat) := by decide
  have ho : loffT (s.pos k + (41 : Nat)) = s.pos k + (41 : Nat) := loffT_of_lt (by omega) (by omega)
  have hst : driver.step s (.read k none buf len) = _ := Driver.step_read hk
    (pokeRead_ok s.dev buf len (s.offset k none) (strlen_message hs) (not_le.mpr h) hf)
  rw [hst, hi, Sys.offset, Option.getD_none, ho, hu] at hr
  subst hr
  rw [length_message]
  exact ⟨rfl, hk, s.newPos_own k (Int.natCast_nonneg 41) _⟩

/-- One at the message's end or past it is told the end of file, and rewinds. -/
theorem read_eof (hs : Holds s.dev) (hk : k ∈ s.opens) (h : (message.length : Int) ≤ s.pos k)
    (buf : UserDst) (len : Nat) (hr : driver.step s (.read k none buf len) = r) :
    (r.2.ret, r.2.out.user) = (0, []) ∧ k ∈ r.1.opens ∧ r.1.pos k = 0 := by
  rw [length_message] at h
  have hst : driver.step s (.read k none buf len) = _ := Driver.step_read hk
    (pokeRead_eof s.dev buf len (s.offset k none) (strlen_message hs) h)
  rw [hst] at hr
  subst hr
  exact ⟨rfl, hk, s.newPos_own k le_rfl _⟩

end

/-! ## The stores -/

/-- The stores are inside `write_buffer`. -/
def StoresIn (o : Out) : Prop := ∀ w ∈ o.stores, 0 ≤ w.1 ∧ w.1 < BUFFER_SIZE

instance (o : Out) : Decidable (StoresIn o) := inferInstanceAs (Decidable (∀ w ∈ o.stores, _))

/-- The call is a write of the whole array, from its start, that does not
fail. -/
def Fills (t : Step (Sys Vars) Call Event) : Prop :=
  match t.inp with
  | .write k at? buf =>
    k ∈ t.pre.opens ∧ t.pre.offset k at? = 0 ∧ BUFFER_SIZE ≤ buf.bytes.length ∧ buf.missed = 0
  | _ => False

theorem storesIn_nil {o : Out} (h : o.stores = []) : StoresIn o := by
  intro w hw
  rw [h] at hw
  cases hw

/-- A copy that is cut to the array stays inside it. -/
theorem copyTo_in {off : Int} (h0 : 0 ≤ off) {len : Nat} {img : Nat → Option UInt8} :
    ∀ w ∈ Buf.copyTo off (min len (BUFFER_SIZE - off.toNat)) img, 0 ≤ w.1 ∧ w.1 < BUFFER_SIZE := by
  intro w hw
  obtain ⟨hle, hlt⟩ := Buf.copyTo_between w hw
  simp only [BUFFER_SIZE] at hlt ⊢
  omega

/-- The stores of a write are inside the array unless it fills the array. -/
theorem pokeWrite_storesIn (v : Dev Vars) (buf : UserSrc) {off : Int} (h0 : 0 ≤ off)
    (hl : buf.bytes.length ≤ MAX_RW_COUNT) :
    StoresIn ((pokeWrite buf buf.bytes.length off).run { dev := v }).2.out ↔
      ¬ (off = 0 ∧ BUFFER_SIZE ≤ buf.bytes.length ∧ buf.missed = 0) := by
  by_cases h : off ≥ BUFFER_SIZE
  · rw [pokeWrite_far v buf _ off h]
    refine iff_of_true (storesIn_nil rfl) fun hc => ?_
    rw [hc.1] at h
    exact absurd h (by decide)
  · have hn := clamp_eq h0 h hl
    by_cases hf : min buf.missed (min buf.bytes.length (BUFFER_SIZE - off.toNat)) = 0
    · rw [pokeWrite_ok v buf _ off h hn hf rfl]
      simp only [StoresIn, List.forall_mem_append, List.forall_mem_singleton]
      rw [and_iff_right (copyTo_in h0)]
      simp only [BUFFER_SIZE] at h hf ⊢
      omega
    · rw [pokeWrite_fault v buf _ off h hn hf]
      refine iff_of_true (copyTo_in h0) fun hc => ?_
      simp only [hc.2.2, Nat.zero_min, not_true_eq_false] at hf

theorem leaves_storesIn : driver.Leaves StoresIn where
  nothing := storesIn_nil rfl
  opn v := by
    show StoresIn (pokeOpen.run { dev := v }).2.out
    rw [pokeOpen_run]; exact storesIn_nil rfl
  release v := by
    show StoresIn (pokeClose.run { dev := v }).2.out
    rw [pokeClose_run]; exact storesIn_nil rfl
  read v buf len off := storesIn_nil (pokeRead_stores v buf len off)

/-- The stores of a call are inside the array unless it fills the array. -/
theorem step_storesIn {s : Sys Vars} {c : Call} (hc : InVfs s c) :
    StoresIn (driver.step s c).2.out ↔ ¬ Fills (Run.stepOf driver.step s c) := by
  by_cases hw : ∃ k at? buf, c = .write k at? buf ∧ k ∈ s.opens
  · obtain ⟨k, at?, buf, rfl, hk⟩ := hw
    obtain ⟨h0, hl⟩ := hc k at? buf rfl
    have hg : Fills (Run.stepOf driver.step s (.write k at? buf)) ↔ s.offset k at? = 0 ∧
        BUFFER_SIZE ≤ buf.bytes.length ∧ buf.missed = 0 := and_iff_right hk
    rw [hg, Driver.step_write hk rfl]
    exact pokeWrite_storesIn s.dev buf h0 hl
  · refine iff_of_true (leaves_storesIn.step fun k at? buf e hk => ?_) fun h => ?_
    · exact absurd ⟨k, at?, buf, e, hk⟩ hw
    · cases c with
      | opn k | close k | read k at? buf len => exact h.elim
      | write k at? buf => exact absurd ⟨k, at?, buf, rfl, h.1⟩ hw

/-- Every run of calls the VFS lets through: every store is inside
`write_buffer` just if no write fills it. -/
theorem stores_in_iff (cs : List VfsCall) :
    (∀ t ∈ driver.steps (vfs cs), StoresIn t.out.out) ↔
      ∀ t ∈ driver.steps (vfs cs), ¬ Fills t := by
  refine forall_congr' fun t => imp_congr_right fun ht => ?_
  obtain ⟨js, c, ks, e, rfl⟩ := Run.mem_steps.mp ht
  exact step_storesIn (moves.inVfs keeps_holds (vfs_admitted_of_eq e))

/-- The terminator of a write that fills the array. -/
theorem store_past_end : ¬ ∀ cs, ∀ t ∈ driver.steps (vfs cs), StoresIn t.out.out := by
  intro h
  have hv : ∀ c ∈ [Call.opn 0] ++ [Driver.fill.1], c.Admitted :=
    vfs_admitted [⟨.opn 0, trivial⟩, Driver.fill]
  have hs := h [⟨.opn 0, trivial⟩, Driver.fill]
    (Run.stepOf driver.step (driver.after [.opn 0]) Driver.fill)
    (List.mem_cons_of_mem _ List.mem_cons_self)
  exact (step_storesIn (moves.inVfs keeps_holds hv)).mp hs
    ⟨by decide, by decide, Driver.length_filler.ge, rfl⟩

end SO.Proof.Pokemon
