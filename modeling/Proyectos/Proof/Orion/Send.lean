import Proyectos.Kernel.Client
import Proyectos.Proof.Orion.Mode

/-!
# `orion`: long messages

`orion_write` accepts at most `BUFFER_SIZE - 1` bytes and ignores the file
offset, so a program that writes a longer message (`Proyectos.Kernel.Client`)
starts a new message with each chunk: the first byte of every chunk is obeyed.
The program always ends, with all of the message accepted (`send_writes`), but
the mode it leaves is the one the message's first byte asks for just if the
chunks after the first do not ask for another (`sent_iff`).
-/

namespace SO.Proof.Orion

open SO.Impl.Orion
open SO.Driver (writeAll Written Aside)
open SO.Spec.Mode (asks)

/-- The bytes a message has at the start of its chunks, after the first one. -/
def heads (payload : List UInt8) : List UInt8 :=
  (List.range ((payload.length - 1) / (BUFFER_SIZE - 1))).map fun j =>
    payload.getD ((BUFFER_SIZE - 1) * (j + 1)) 0

/-- The last of them that asks for a mode, if any, asks for the one the message's
first byte asks for, or for the mode `m` where that asks for none. -/
def HeadsAgree (m : Int) (payload : List UInt8) : Prop :=
  ∀ m' ∈ ((heads payload).filterMap asks).getLast?, m' = (asks (payload.getD 0 0)).getD m

/-- The program ends, with all of the message accepted, and leaves the mode its
first byte asks for. -/
def Sent (s : Sys Vars) (k : Nat) (others : Nat → List Call) (payload : List UInt8) : Prop :=
  ∃ w, (∃ n, ∀ fuel ≥ n, writeAll driver k others fuel 0 s payload = some w) ∧ w.error = none ∧
    w.chunks.flatten = payload ∧
    w.sys.dev.vars.stream = (asks (payload.getD 0 0)).getD s.dev.vars.stream

/-! ## One chunk -/

theorem obey_stream (b : UInt8) (v : Vars) : (obey b v).stream = (asks b).getD v.stream :=
  Spec.Mode.stream_asks Vars.stream rfl rfl b

/-- The others' calls keep the mode. -/
theorem frames_stream (m : Int) : driver.Frames fun v => v.vars.stream = m where
  opn v h := by
    show (orionOpen.run { dev := v }).2.dev.vars.stream = m
    rw [orionOpen_run]; exact h
  release v h := by
    show (orionClose.run { dev := v }).2.dev.vars.stream = m
    rw [orionClose_run]; exact h
  read v buf len off h := by
    obtain ⟨e, he⟩ := orionRead_dev v buf len off
    show ((orionRead buf len off).run { dev := v }).2.dev.vars.stream = m
    rw [he]; exact h

theorem stream_aside {s : Sys Vars} {k : Nat} {cs : List Call} (hc : Aside k cs) :
    (Run.after driver.step s cs).dev.vars.stream = s.dev.vars.stream :=
  Run.inv_after (I := fun s' : Sys Vars => s'.dev.vars.stream = s.dev.vars.stream)
    (P := fun c => ∀ m at? buf, c ≠ .write m at? buf)
    (fun _ _ hs hn => (frames_stream _).step hs fun m at? buf e => absurd e (hn m at? buf)) rfl
    fun c hm => (hc c hm).2

/-- A write that is not cut accepts the payload's first bytes and obeys its first. -/
theorem step_chunk {s : Sys Vars} {k : Nat} (hk : k ∈ s.opens) {payload : List UInt8}
    {r : Sys Vars × Event}
    (hr : driver.step s (.write k none ⟨payload.take MAX_RW_COUNT, 0, []⟩) = r) :
    r.2.ret = (min payload.length (BUFFER_SIZE - 1) : Nat) ∧ k ∈ r.1.opens ∧
      r.1.dev.vars.stream = (asks (payload.getD 0 0)).getD s.dev.vars.stream := by
  have hn : min (payload.take MAX_RW_COUNT).length (BUFFER_SIZE - 1) =
      min payload.length (BUFFER_SIZE - 1) := by
    rw [List.length_take]
    simp only [MAX_RW_COUNT, BUFFER_SIZE]
    omega
  have h0 : (payload.take MAX_RW_COUNT).getD 0 0 = payload.getD 0 0 := by
    cases payload with
    | nil => rfl
    | cons b l => rfl
  have hf : min 0 (min payload.length (BUFFER_SIZE - 1)) = 0 := Nat.zero_min _
  have hs := Driver.step_write (d := driver) hk
    (orionWrite_ok s.dev ⟨payload.take MAX_RW_COUNT, 0, []⟩ _ (s.offset k none) hn hf rfl)
  have ht := tested_byte s.dev.writeBuffer ⟨payload.take MAX_RW_COUNT, 0, []⟩ hn hf
  subst hr
  rw [hs]
  refine ⟨rfl, hk, ?_⟩
  show (obey _ _).stream = _
  rw [obey_stream, ht, h0]

/-! ## The whole message -/

theorem heads_short {payload : List UInt8} (h : payload.length ≤ BUFFER_SIZE - 1) :
    heads payload = [] := by
  have hz : (payload.length - 1) / (BUFFER_SIZE - 1) = 0 := by
    simp only [BUFFER_SIZE] at h ⊢
    omega
  rw [heads, hz]; rfl

theorem heads_long {payload : List UInt8} (h : BUFFER_SIZE - 1 < payload.length) :
    heads payload = (payload.drop (BUFFER_SIZE - 1)).getD 0 0 ::
      heads (payload.drop (BUFFER_SIZE - 1)) := by
  have hd : ∀ j, (payload.drop (BUFFER_SIZE - 1)).getD j 0 = payload.getD (BUFFER_SIZE - 1 + j) 0 := by
    intro j
    rw [List.getD_eq_getElem?_getD, List.getD_eq_getElem?_getD, List.getElem?_drop]
  have hl : (payload.length - 1) / (BUFFER_SIZE - 1) =
      ((payload.drop (BUFFER_SIZE - 1)).length - 1) / (BUFFER_SIZE - 1) + 1 := by
    rw [List.length_drop]
    simp only [BUFFER_SIZE] at h ⊢
    omega
  rw [heads, hl, List.range_succ_eq_map, List.map_cons, List.map_map, hd, heads]
  refine congrArg₂ _ rfl (List.map_congr_left fun j _ => ?_)
  have hj : (BUFFER_SIZE - 1) * (j + 1 + 1) = BUFFER_SIZE - 1 + (BUFFER_SIZE - 1) * (j + 1) := by
    rw [Nat.mul_add_one, Nat.add_comm]
  rw [hd, ← hj]
  rfl

/-- The mode asked for last, over the chunks after the first. -/
theorem asks_long {payload : List UInt8} (h : BUFFER_SIZE - 1 < payload.length) (m : Int) :
    (((heads payload).filterMap asks).getLast?).getD m =
      (((heads (payload.drop (BUFFER_SIZE - 1))).filterMap asks).getLast?).getD
        ((asks ((payload.drop (BUFFER_SIZE - 1)).getD 0 0)).getD m) := by
  rw [heads_long h, List.filterMap_cons]
  cases asks ((payload.drop (BUFFER_SIZE - 1)).getD 0 0) with
  | none => rfl
  | some b => rw [List.getLast?_cons, Option.getD_some, Option.getD_some]

/-- The program ends, with all of the message accepted, in the mode the last of
the chunks' first bytes that asks for one asks for. -/
theorem send_writes {k : Nat} {others : Nat → List Call} (ho : ∀ i, Aside k (others i))
    {payload : List UInt8} (hp : payload ≠ []) (i : Nat) {s : Sys Vars} (hk : k ∈ s.opens) :
    ∃ w, (∀ fuel ≥ payload.length, writeAll driver k others fuel i s payload = some w) ∧
      w.error = none ∧ w.chunks.flatten = payload ∧
      w.sys.dev.vars.stream = (((heads payload).filterMap asks).getLast?).getD
        ((asks (payload.getD 0 0)).getD s.dev.vars.stream) := by
  induction hl : payload.length using Nat.strong_induction_on generalizing payload i s with
  | _ n ih =>
    subst hl
    have hpos : 0 < payload.length := List.length_pos_iff.mpr hp
    generalize hr : driver.step (Run.after driver.step s (others i))
      (.write k none ⟨payload.take MAX_RW_COUNT, 0, []⟩) = r
    obtain ⟨hret, hk', hst⟩ := step_chunk (Driver.mem_opens_aside hk (ho i)) hr
    rw [stream_aside (ho i)] at hst
    have hstep : ∀ fuel, writeAll driver k others (fuel + 1) i s payload = _ := fun fuel =>
      Driver.writeAll_step hp hr hret
    rcases Nat.lt_or_ge (BUFFER_SIZE - 1) payload.length with hlong | hshort
    · -- there is another chunk
      rw [Nat.min_eq_right hlong.le] at hstep
      have hrest : payload.drop (BUFFER_SIZE - 1) ≠ [] := by
        rw [← List.length_pos_iff, List.length_drop]
        omega
      have hlt : (payload.drop (BUFFER_SIZE - 1)).length < payload.length := by
        rw [List.length_drop]
        simp only [BUFFER_SIZE] at hlong ⊢
        omega
      obtain ⟨w, hw, he, hc, hm⟩ := ih _ hlt hrest (i + 1) hk' rfl
      refine ⟨{ w with chunks := payload.take (BUFFER_SIZE - 1) :: w.chunks }, ?_, he, ?_, ?_⟩
      · intro fuel hfuel
        obtain ⟨f, rfl⟩ : ∃ f, fuel = f + 1 := ⟨fuel - 1, by omega⟩
        rw [hstep, hw f (by omega)]; rfl
      · rw [List.flatten_cons, hc, List.take_append_drop]
      · rw [asks_long hlong, ← hst]
        exact hm
    · rw [Nat.min_eq_left hshort] at hstep
      refine ⟨⟨[payload], none, r.1⟩, fun fuel hfuel => ?_, rfl, by simp, ?_⟩
      · obtain ⟨f, rfl⟩ : ∃ f, fuel = f + 1 := ⟨fuel - 1, by omega⟩
        rw [hstep, List.drop_length, Driver.writeAll_nil, List.take_length]; rfl
      · rw [heads_short hshort]
        exact hst

/-- The mode a message leaves is the one its first byte asks for just if the first
bytes of the other chunks agree. -/
theorem sent_headsAgree {s : Sys Vars} {k : Nat} (hk : k ∈ s.opens) {others : Nat → List Call}
    (ho : ∀ i, Aside k (others i)) {payload : List UInt8} (hp : payload ≠ []) :
    Sent s k others payload ↔ HeadsAgree s.dev.vars.stream payload := by
  obtain ⟨w, hw, he, hc, hm⟩ := send_writes ho hp 0 hk
  have hsent : Sent s k others payload ↔
      w.sys.dev.vars.stream = (asks (payload.getD 0 0)).getD s.dev.vars.stream := by
    constructor
    · rintro ⟨w', ⟨n, hn⟩, -, -, hm'⟩
      have hww := (hn (max n payload.length) (le_max_left _ _)).symm.trans
        (hw (max n payload.length) (le_max_right _ _))
      rw [← Option.some.inj hww]
      exact hm'
    · exact fun h => ⟨w, ⟨_, hw⟩, he, hc, h⟩
  rw [hsent, hm, HeadsAgree]
  cases ((heads payload).filterMap asks).getLast? with
  | none => simp
  | some m => simp

/-- Every message, from every state, with no other writer: the program ends with
all of the message accepted, and the mode is the one its first byte asks for just
if the first bytes of the other chunks agree. -/
theorem sent_iff (s : Sys Vars) (k : Nat) (hk : k ∈ s.opens) (others : Nat → List Call)
    (ho : ∀ i, Aside k (others i)) (payload : List UInt8) (hp : payload ≠ []) :
    (∃ w, (∀ fuel ≥ payload.length, writeAll driver k others fuel 0 s payload = some w) ∧
        w.error = none ∧ w.chunks.flatten = payload) ∧
      (Sent s k others payload ↔ HeadsAgree s.dev.vars.stream payload) := by
  obtain ⟨w, hw, he, hc, -⟩ := send_writes ho hp 0 hk
  exact ⟨⟨w, hw, he, hc⟩, sent_headsAgree hk ho hp⟩

/-- A payload that fills a chunk. -/
def chunk (b : UInt8) : List UInt8 := b :: List.replicate (BUFFER_SIZE - 2) 0x41

theorem length_chunk (b : UInt8) : (chunk b).length = BUFFER_SIZE - 1 :=
  congrArg (· + 1) List.length_replicate

theorem heads_chunk (b : UInt8) {rest : List UInt8} (h : rest ≠ []) :
    heads (chunk b ++ rest) = rest.getD 0 0 :: heads rest := by
  have hlong : BUFFER_SIZE - 1 < (chunk b ++ rest).length := by
    rw [List.length_append, length_chunk]
    exact Nat.lt_add_of_pos_right (List.length_pos_iff.mpr h)
  rw [heads_long hlong, List.drop_left' (length_chunk b)]

/-- A message in three chunks, of which the second turns the mode off and the third on
again. -/
theorem sent_three :
    Sent (driver.after [.opn 0]) 0 (fun _ => []) (chunk 0x31 ++ (chunk 0x30 ++ [0x31])) := by
  have hne : chunk 0x30 ++ [0x31] ≠ [] := List.append_ne_nil_of_right_ne_nil _ (List.cons_ne_nil _ _)
  refine (sent_iff _ 0 (by decide) _ (fun _ c hc => by cases hc) _
    (List.append_ne_nil_of_right_ne_nil _ hne)).2.mpr ?_
  rw [HeadsAgree, heads_chunk _ hne, heads_chunk _ (List.cons_ne_nil _ _), heads_short (by decide)]
  decide

/-- A message of which the first byte that does not fit the first chunk is `'1'`. -/
theorem sent_long_directive :
    ¬ ∀ (s : Sys Vars) (k : Nat) (others : Nat → List Call) (payload : List UInt8), k ∈ s.opens →
      (∀ i, Aside k (others i)) → payload ≠ [] → Sent s k others payload := by
  intro h
  have hp : chunk 0x41 ++ [0x31] ≠ [] := List.append_ne_nil_of_right_ne_nil _ (List.cons_ne_nil _ _)
  have hk : 0 ∈ (driver.after [.opn 0]).opens := by decide
  have ho : ∀ i : Nat, Aside 0 ((fun _ => []) i) := fun _ c hc => by cases hc
  have ha := (sent_headsAgree hk ho hp).mp (h _ 0 _ _ hk ho hp)
  rw [HeadsAgree, heads_chunk _ (List.cons_ne_nil _ _), heads_short (by decide)] at ha
  exact absurd (ha 1 (by decide)) (by decide)

end SO.Proof.Orion
