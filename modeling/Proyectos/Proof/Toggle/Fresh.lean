import Proyectos.Proof.Toggle.Accum

/-!
# `luffy`, `madre` and `chaleco`: the first write of a session

A session's first write is at the offset 0, whatever the sessions before it have
left in `write_buffer`. It stores its payload there and no terminator, so `%s` goes on
into what they have left: the payload alone is logged just if it holds a NUL
or the byte that comes after it is 0 (`firstWrite_iff`).
-/

namespace SO.Proof.Toggle

open SO.Impl.Toggle
open SO.Driver (vfs vfs_admitted)

/-- The write logs its own payload, cut at its first NUL, as the string received. -/
def LogsOwn (x : Texts) (payload : List UInt8) (e : Event) : Prop :=
  (⟨.kernInfo, x.stringReceived, [.s (some (payload.takeWhile (· ≠ 0)))]⟩ : Line) ∈ e.out.log

/-- Session `k` has not written. -/
def Unwritten (k : Nat) (cs : List Call) : Prop := ∀ at? buf, .write k at? buf ∉ cs

variable {x : Texts}

/-! ## The offset of a session that has not written -/

theorem pos_step_unwritten {s : Sys Vars} {k : Nat} {c : Call}
    (hc : ∀ at? buf, c ≠ .write k at? buf) (h : s.pos k = 0) :
    ((driver x).step s c).1.pos k = 0 := by
  by_cases hk : c.session = k
  · cases c with
    | opn m =>
      obtain rfl : m = k := hk
      by_cases hu : m ∈ s.used
      · rw [Driver.step_opn_of_used hu]; exact h
      · rw [Driver.step_opn (driver_opens x) hu]
        exact Function.update_self _ _ _
    | close m =>
      by_cases ho : m ∈ s.opens
      · rw [Driver.step_close ho]; exact h
      · rw [Driver.step_close_of_closed ho]; exact h
    | read m at? buf len => rw [pos_read]; exact h
    | write m at? buf =>
      obtain rfl : m = k := hk
      exact absurd rfl (hc at? buf)
  · rw [Driver.pos_of_ne (driver_opens x) hk]; exact h

theorem pos_unwritten {k : Nat} {cs : List Call} (h : Unwritten k cs) :
    ((driver x).after cs).pos k = 0 :=
  Run.inv_after (I := fun s : Sys Vars => s.pos k = 0)
    (P := fun c => ∀ at? buf, c ≠ .write k at? buf)
    (fun _ _ hs hc => pos_step_unwritten hc hs) rfl fun _ hm at? buf e => h at? buf (e ▸ hm)

/-! ## The line it logs -/

/-- What a valid write at the offset 0 logs. -/
theorem toggleWrite_own (v : Dev Vars) {payload : List UInt8} (hl : payload.length < BUFFER_SIZE)
    {r : (Int × Int) × CallSt Vars}
    (hr : (toggleWrite x ⟨payload, 0, []⟩ payload.length 0).run { dev := v } = r) :
    (⟨.kernInfo, x.stringReceived, [.s (some (payload.takeWhile (· ≠ 0)))]⟩ : Line) ∈ r.2.out.log ↔
      0 ∈ payload ∨ v.writeBuffer.get ⟨payload.length, hl⟩ = 0 := by
  have hlen : payload.length ≤ MAX_RW_COUNT := hl.le.trans (by decide)
  have hfar : ¬ (0 : Int) ≥ BUFFER_SIZE := by decide
  have hn := (clamp_eq le_rfl hfar hlen).trans (Nat.min_eq_left hl.le)
  have hf : min 0 payload.length = 0 := Nat.zero_min _
  have ht : (v.writeBuffer.copied ⟨payload, 0, []⟩ payload.length 0).bytes.take payload.length =
      payload := by
    have hle : payload.length ≤ (UserSrc.mk payload 0 []).bytes.length := le_rfl
    have ht := v.writeBuffer.take_copied_ok hf hle (le_of_eq_of_le (Nat.zero_add _) hl.le)
    rwa [Nat.cast_zero, Nat.zero_add, List.take_zero, List.nil_append, List.take_length] at ht
  have hg : (v.writeBuffer.copied ⟨payload, 0, []⟩ payload.length 0).get ⟨payload.length, hl⟩ =
      v.writeBuffer.get ⟨payload.length, hl⟩ := by
    rw [Buf.get_copied, if_neg (by simp)]
  rw [← hg, ← Buf.cstr_eq_iff hl ht, ← hr,
    toggleWrite_ok x v ⟨payload, 0, []⟩ payload.length 0 hfar hn hf rfl]
  simp [eq_comm]

theorem firstWrite_log_iff (x : Texts) {cs : List VfsCall} {k : Nat}
    (hk : k ∈ ((driver x).after (vfs cs)).opens) (hw : Unwritten k (vfs cs)) {payload : List UInt8}
    (hl : payload.length < BUFFER_SIZE) :
    LogsOwn x payload
        ((driver x).step ((driver x).after (vfs cs)) (.write k none ⟨payload, 0, []⟩)).2 ↔
      0 ∈ payload ∨ byteAt ((driver x).steps (vfs cs)) ⟨payload.length, hl⟩ = 0 := by
  have hoff : ((driver x).after (vfs cs)).offset k none = 0 := pos_unwritten hw
  rw [← writeBuffer_after (vfs_admitted cs), LogsOwn, Driver.step_write hk rfl, hoff]
  exact toggleWrite_own _ hl rfl

/-- The three drivers, after any calls the VFS lets through: the first write of a
session, if it is valid and shorter than the array, logs its own payload just if that
holds a NUL or the calls before have left a 0 where it ends. -/
theorem firstWrite_iff (cs : List VfsCall) (k : Nat) (hw : Unwritten k (vfs cs))
    (payload : List UInt8) (hl : payload.length < BUFFER_SIZE) :
    (k ∈ (luffy.after (vfs cs)).opens →
        (LogsOwn luffyTexts payload
            (luffy.step (luffy.after (vfs cs)) (.write k none ⟨payload, 0, []⟩)).2 ↔
          0 ∈ payload ∨ byteAt (luffy.steps (vfs cs)) ⟨payload.length, hl⟩ = 0)) ∧
      (k ∈ (madre.after (vfs cs)).opens →
        (LogsOwn madreTexts payload
            (madre.step (madre.after (vfs cs)) (.write k none ⟨payload, 0, []⟩)).2 ↔
          0 ∈ payload ∨ byteAt (madre.steps (vfs cs)) ⟨payload.length, hl⟩ = 0)) ∧
      (k ∈ (chaleco.after (vfs cs)).opens →
        (LogsOwn chalecoTexts payload
            (chaleco.step (chaleco.after (vfs cs)) (.write k none ⟨payload, 0, []⟩)).2 ↔
          0 ∈ payload ∨ byteAt (chaleco.steps (vfs cs)) ⟨payload.length, hl⟩ = 0)) :=
  ⟨fun hk => firstWrite_log_iff luffyTexts hk hw hl, fun hk => firstWrite_log_iff madreTexts hk hw hl,
    fun hk => firstWrite_log_iff chalecoTexts hk hw hl⟩

/-- A session that writes two bytes after another one has written five, the third of
them a NUL. -/
theorem firstWrite_after_nul :
    LogsOwn luffyTexts [0x79, 0x61] (luffy.step (luffy.after [.opn 0,
      .write 0 none ⟨[0x68, 0x6f, 0, 0x6c, 0x61], 0, []⟩, .close 0, .opn 1])
        (.write 1 none ⟨[0x79, 0x61], 0, []⟩)).2 := by
  have hw : (Call.write 0 none ⟨[0x68, 0x6f, 0, 0x6c, 0x61], 0, []⟩).Admitted :=
    ⟨by show 5 ≤ MAX_RW_COUNT; decide, fun p hp => by cases hp⟩
  obtain ⟨cs, hcs⟩ : ∃ cs : List VfsCall, vfs cs = [.opn 0,
      .write 0 none ⟨[0x68, 0x6f, 0, 0x6c, 0x61], 0, []⟩, .close 0, .opn 1] :=
    ⟨[⟨.opn 0, trivial⟩, ⟨_, hw⟩, ⟨.close 0, trivial⟩, ⟨.opn 1, trivial⟩], rfl⟩
  have hu : Unwritten 1 (vfs cs) := by simp [Unwritten, hcs]
  have hk : 1 ∈ (luffy.after (vfs cs)).opens := by
    rw [hcs]
    decide
  have hb : byteAt (luffy.steps (vfs cs)) 2 = 0 := by
    rw [hcs]
    decide
  rw [← hcs]
  exact ((firstWrite_iff cs 1 hu [0x79, 0x61] (by decide)).1 hk).mpr (.inr hb)

/-- A session that writes one byte after another one has written two. -/
theorem firstWrite_leftover :
    ¬ ∀ (cs : List VfsCall) (k : Nat) (payload : List UInt8), Unwritten k (vfs cs) →
      payload.length < BUFFER_SIZE → k ∈ (luffy.after (vfs cs)).opens →
      LogsOwn luffyTexts payload
        (luffy.step (luffy.after (vfs cs)) (.write k none ⟨payload, 0, []⟩)).2 := by
  intro h
  have hw : (Call.write 0 none ⟨[0x68, 0x6f], 0, []⟩).Admitted :=
    ⟨by show 2 ≤ MAX_RW_COUNT; decide, fun p hp => by cases hp⟩
  obtain ⟨cs, hcs⟩ : ∃ cs : List VfsCall,
      vfs cs = [.opn 0, .write 0 none ⟨[0x68, 0x6f], 0, []⟩, .opn 1] :=
    ⟨[⟨.opn 0, trivial⟩, ⟨_, hw⟩, ⟨.opn 1, trivial⟩], rfl⟩
  have hu : Unwritten 1 (vfs cs) := by simp [Unwritten, hcs]
  have hk : 1 ∈ (luffy.after (vfs cs)).opens := by
    rw [hcs]
    decide
  have hl : [(0x79 : UInt8)].length < BUFFER_SIZE := by decide
  have hb := (firstWrite_log_iff luffyTexts hk hu hl).mp (h cs 1 _ hu hl hk)
  rw [hcs] at hb
  exact absurd hb (show ¬ (0 ∈ [(0x79 : UInt8)] ∨ byteAt (luffy.steps [.opn 0,
    .write 0 none ⟨[0x68, 0x6f], 0, []⟩, .opn 1]) 1 = 0) by decide)

end SO.Proof.Toggle
