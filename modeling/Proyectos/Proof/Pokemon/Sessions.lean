import Proyectos.Proof.Apart
import Proyectos.Proof.Pokemon.Bounds
import Proyectos.Proof.Serves

/-!
# `pokemon`: sessions

`poke_read` marks the end of file in the file offset, which is each session's
own, and neither function answers with anything a write can change. So the
sessions do not meet (`apart`), and one that only reads is given the message and
the end of file in turn, whatever the others do (`sessions_apart`).
-/

namespace SO.Proof.Pokemon

open SO.Impl.Pokemon
open SO.Driver (Apart own observed replies shown)
open Serves (turn)

/-! ## What the functions give -/

theorem pokeRead_shown {v v' : Dev Vars} (h : Holds v) (h' : Holds v') (buf : UserDst) (len : Nat)
    (off : Int) : shown ((pokeRead buf len off).run { dev := v }) =
      shown ((pokeRead buf len off).run { dev := v' }) := by
  have hb : v.kernelBuffer = v'.kernelBuffer := h.trans h'.symm
  have hn := strlen_message h
  have hn' := strlen_message h'
  by_cases ho : off ≥ (41 : Nat)
  · rw [pokeRead_eof v buf len off hn ho, pokeRead_eof v' buf len off hn' ho]
    simp only [shown]
  · by_cases hf : min buf.missed 41 = 0
    · rw [pokeRead_ok v buf len off hn ho hf, pokeRead_ok v' buf len off hn' ho hf]
      simp only [shown, hb]
    · rw [pokeRead_fault v buf len off hn ho hf, pokeRead_fault v' buf len off hn' ho hf]
      simp only [shown, hb]

theorem pokeWrite_shown (v v' : Dev Vars) (buf : UserSrc) (len : Nat) (off : Int) :
    shown ((pokeWrite buf len off).run { dev := v }) =
      shown ((pokeWrite buf len off).run { dev := v' }) := by
  by_cases h : off ≥ BUFFER_SIZE
  · rw [pokeWrite_far v buf len off h, pokeWrite_far v' buf len off h]
    simp only [shown]
  · generalize hn :
      (if sizeT (len + off) > BUFFER_SIZE then sizeT (BUFFER_SIZE - off) else len) = n
    by_cases hf : min buf.missed n = 0
    · rw [pokeWrite_ok v buf len off h hn hf rfl, pokeWrite_ok v' buf len off h hn hf rfl]
      simp only [shown]
    · rw [pokeWrite_fault v buf len off h hn hf, pokeWrite_fault v' buf len off h hn hf]
      simp only [shown]

/-- Nothing the sessions share reaches what a function gives. -/
theorem apart : driver.Apart Holds where
  keeps := keeps_holds
  opens := driver_opens
  opn v v' _ _ := by
    show shown (pokeOpen.run { dev := v }) = shown (pokeOpen.run { dev := v' })
    rw [pokeOpen_run, pokeOpen_run]
    simp only [shown]
  release v v' _ _ := by
    show shown (pokeClose.run { dev := v }) = shown (pokeClose.run { dev := v' })
    rw [pokeClose_run, pokeClose_run]
    simp only [shown]
  read _ _ buf len off h h' := pokeRead_shown h h' buf len off
  write v v' buf off _ _ := pokeWrite_shown v v' buf _ off

/-! ## A session that only reads -/

/-- The calls of a session that opens, reads through its own offset with valid
buffers, and closes. -/
def Reads : Call → Prop
  | .opn _ | .close _ => True
  | .read _ at? buf _ => at? = none ∧ buf.missed = 0
  | .write _ _ _ => False

/-- The offset of such a session after `i` reads. -/
def turnPos (i : Nat) : Int := if Even i then 0 else 41

/-- Its next read. -/
theorem read_turn {s : Sys Vars} (hs : Holds s.dev) {k i : Nat} (hk : k ∈ s.opens)
    (hp : s.pos k = turnPos i) {buf : UserDst} (hb : buf.missed = 0) (len : Nat)
    {r : Sys Vars × Event} (hr : driver.step s (.read k none buf len) = r) :
    (r.2.ret, r.2.out.user) = turn message i ∧ r.1.pos k = turnPos (i + 1) := by
  by_cases hi : Even i
  · have hi' : ¬ Even (i + 1) := by rwa [Nat.even_add_one, not_not]
    rw [turnPos, if_pos hi] at hp
    obtain ⟨hg, -, hpos⟩ := read_message hs hk hp.ge (by rw [hp]; decide) hb len hr
    rw [turn, if_pos hi, turnPos, if_neg hi', hpos, hp, length_message]
    exact ⟨hg, rfl⟩
  · have hi' : Even (i + 1) := Nat.even_add_one.mpr hi
    rw [turnPos, if_neg hi] at hp
    obtain ⟨hg, -, hpos⟩ := read_eof hs hk (by rw [hp]; decide) buf len hr
    rw [turn, if_neg hi, turnPos, if_pos hi']
    exact ⟨hg, hpos⟩

/-- What holds of a session `k` that only reads, after any calls. -/
structure InTurn (k : Nat) (cs : List Call) : Prop where
  pos : (driver.after cs).pos k = turnPos (replies driver k cs).length
  fresh : k ∉ (driver.after cs).used → replies driver k cs = []
  turn : replies driver k cs = Spec.Shared.alone (turn message) (replies driver k cs).length

/-- A call that is no read of the session's, and leaves its offset and its name
alone. -/
theorem inTurn_keep {k : Nat} {cs : List Call} (h : InTurn k cs) {c : Call}
    (hr : Driver.reader (Run.stepOf driver.step (driver.after cs) c) ≠ some k)
    (hp : (driver.step (driver.after cs) c).1.pos k = (driver.after cs).pos k)
    (hu : k ∈ (driver.step (driver.after cs) c).1.used ↔ k ∈ (driver.after cs).used) :
    InTurn k (cs ++ [c]) := by
  have ha : driver.after (cs ++ [c]) = (driver.step (driver.after cs) c).1 := Run.after_snoc _ _ _
  have hrep : replies driver k (cs ++ [c]) = replies driver k cs := by
    rw [Driver.replies_snoc, if_neg hr, List.append_nil]
  refine ⟨?_, fun hf => ?_, ?_⟩
  · rw [hrep, ha, hp]; exact h.pos
  · rw [ha, hu] at hf
    rw [hrep]; exact h.fresh hf
  · rw [hrep]; exact h.turn

/-- The session's own open. -/
theorem inTurn_opn {k : Nat} {cs : List Call} (h : InTurn k cs) : InTurn k (cs ++ [.opn k]) := by
  have hr : Driver.reader (Run.stepOf driver.step (driver.after cs) (.opn k)) ≠ some k := by
    simp [Driver.reader, Run.stepOf]
  by_cases hu : k ∈ (driver.after cs).used
  · refine inTurn_keep h hr ?_ ?_
    · rw [Driver.step_opn_of_used hu]
    · rw [Driver.step_opn_of_used hu]
  · have ha : driver.after (cs ++ [.opn k]) = (driver.step (driver.after cs) (.opn k)).1 :=
      Run.after_snoc _ _ _
    have hrep : replies driver k (cs ++ [.opn k]) = [] := by
      rw [Driver.replies_snoc, if_neg hr, h.fresh hu]; rfl
    rw [Driver.step_opn driver_opens hu] at ha
    refine ⟨?_, fun _ => hrep, by rw [hrep]; rfl⟩
    rw [hrep, ha]
    exact Function.update_self _ _ _

/-- The session's own read. -/
theorem inTurn_read {k : Nat} {cs : List Call} (h : InTurn k cs) (ho : k ∈ (driver.after cs).opens)
    {buf : UserDst} (hb : buf.missed = 0) (len : Nat) :
    InTurn k (cs ++ [.read k none buf len]) := by
  generalize hs : driver.step (driver.after cs) (.read k none buf len) = r
  obtain ⟨ht, hp⟩ := read_turn (keeps_holds.after cs) ho h.pos hb len hs
  have ha : driver.after (cs ++ [.read k none buf len]) = r.1 := by
    rw [← hs]
    exact Run.after_snoc _ _ _
  have hrd : Driver.reader (Run.stepOf driver.step (driver.after cs) (.read k none buf len)) =
      some k := if_pos ho
  have hrep := Driver.replies_snoc (d := driver) k cs (.read k none buf len)
  rw [if_pos hrd, hs, ht] at hrep
  refine ⟨?_, fun hf => ?_, ?_⟩
  · rw [hrep, List.length_append, List.length_singleton, ha]
    exact hp
  · rw [ha, ← hs, Driver.step_read ho rfl] at hf
    exact absurd (Driver.opens_subset_used driver_opens cs ho) hf
  · rw [hrep, List.length_append, List.length_singleton, Spec.Shared.alone_succ, ← h.turn]

theorem inTurn_snoc {k : Nat} {cs : List Call} (h : InTurn k cs) {c : Call}
    (hc : c.session = k → Reads c) : InTurn k (cs ++ [c]) := by
  by_cases hk : c.session = k
  · specialize hc hk
    cases c with
    | opn m =>
      obtain rfl : m = k := hk
      exact inTurn_opn h
    | close m =>
      have hr : Driver.reader (Run.stepOf driver.step (driver.after cs) (.close m)) ≠ some k := by
        simp [Driver.reader, Run.stepOf]
      by_cases ho : m ∈ (driver.after cs).opens
      · refine inTurn_keep h hr ?_ ?_ <;> rw [Driver.step_close ho]
      · refine inTurn_keep h hr ?_ ?_ <;> rw [Driver.step_close_of_closed ho]
    | read m at? buf len =>
      obtain rfl : m = k := hk
      obtain ⟨rfl, hb⟩ := hc
      by_cases ho : m ∈ (driver.after cs).opens
      · exact inTurn_read h ho hb len
      · refine inTurn_keep h (by simp [Driver.reader, Run.stepOf, ho]) ?_ ?_ <;>
          rw [Driver.step_read_of_closed ho]
    | write m at? buf => exact hc.elim
  · -- the call of another session
    exact inTurn_keep h (fun e => hk (Driver.reader_session e)) (Driver.pos_of_ne driver_opens hk)
      (Driver.status_eq_iff.mp (Driver.status_of_ne driver_opens hk)).2

theorem inTurn_after {k : Nat} {cs : List Call} (h : ∀ c ∈ own k cs, Reads c) : InTurn k cs := by
  induction cs using List.reverseRecOn with
  | nil => exact ⟨rfl, fun _ => rfl, rfl⟩
  | append_singleton cs c ih =>
    rw [Driver.own_snoc] at h
    refine inTurn_snoc (ih fun c' hc' => h c' (List.mem_append_left _ hc')) fun hk => ?_
    rw [if_pos hk] at h
    exact h c (List.mem_append_right _ List.mem_cons_self)

/-- Every run: each session hears what it would hear making its own calls alone;
and if it only reads, with valid buffers, its replies are the whole message and
the end of file in turn, whatever the others do. -/
theorem sessions_apart (cs : List Call) (k : Nat) :
    observed driver k cs = observed driver k (own k cs) ∧
      ((∀ c ∈ own k cs, Reads c) →
        replies driver k cs = Spec.Shared.alone (turn message) (replies driver k cs).length) :=
  ⟨apart.observed_own k cs, fun h => (inTurn_after h).turn⟩

/-- A session that reads three times, another one writing in between. -/
theorem sessions_apart_between_writes :
    replies driver 1 [.opn 0, .opn 1, .read 1 none {} 99, .write 0 none ⟨[0x31], 0, []⟩,
      .read 1 none {} 99, .read 1 none {} 99] = Spec.Shared.alone (turn message) 3 := by
  refine ((sessions_apart _ 1).2 ?_).trans (congrArg _ (by decide))
  simp [own, Call.session, Reads]

end SO.Proof.Pokemon
