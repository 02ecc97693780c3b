import Proyectos.Kernel.Client
import Proyectos.Proof.Pokemon.Accum
import Proyectos.Proof.Pokemon.Sessions

/-!
# `pokemon`: a session that reads and writes

To `poke_read` the file offset tells whether the message has been given, to
`poke_write` it is a place in `write_buffer`. A read that has given the message
leaves an offset past it, and writes only advance it, so the next one is told the
end of file in any case. But a read that is due the message is given it just if
the writes since the last read have not taken the offset past it. So a session's
replies are those it would get without its writes just if these are that short
(`undisturbed_iff`).
-/

namespace SO.Proof.Pokemon

open SO.Impl.Pokemon
open Serves (turn)

/-- A read or a write of session `k` through its own offset, valid, and of a length
the VFS asks for. -/
def Own (k : Nat) : Call → Prop
  | .read m at? buf _ => m = k ∧ at? = none ∧ buf.missed = 0
  | .write m at? buf => m = k ∧ at? = none ∧ buf.missed = 0 ∧ buf.bytes.length ≤ MAX_RW_COUNT
  | _ => False

def isRead : Call → Bool
  | .read _ _ _ _ => true
  | _ => false

/-- How many bytes the calls write after the last read among them. -/
def sinceRead (cs : List Call) : Nat := (written (cs.reverse.takeWhile fun c => !isRead c)).length

/-- The replies session `k` gets to its reads, from state `s` on. -/
def repliesFrom (s : Sys Vars) (k : Nat) (cs : List Call) : List (Int × List UInt8) :=
  (Run.steps driver.step s cs).filterMap (Driver.replyTo k)

/-- With the writes left out, the replies to the reads are the same. -/
def Undisturbed (s : Sys Vars) (k : Nat) (cs : List Call) : Prop :=
  repliesFrom s k (cs.filter isRead) = repliesFrom s k cs

/-- Before each read that comes after an even number of them, the session has
written fewer bytes since the last one than the message has. -/
def ShortWrites (cs : List Call) : Prop :=
  ∀ js c ks, cs = js ++ c :: ks → isRead c = true → Even (js.countP isRead) →
    sinceRead js < message.length

theorem sinceRead_read {c : Call} (h : isRead c = true) (cs : List Call) :
    sinceRead (cs ++ [c]) = 0 := by
  simp [sinceRead, h, written]

theorem sinceRead_write {c : Call} (h : isRead c = false) (cs : List Call) :
    sinceRead (cs ++ [c]) = sinceRead cs + (payload c).length := by
  simp [sinceRead, h, written, Nat.add_comm]

/-! ## One call -/

variable {s : Sys Vars} {k : Nat} {js : List Call}

/-- What holds of the session while its replies are those due. -/
structure InPlace (s : Sys Vars) (k : Nat) (js : List Call) : Prop where
  opens : k ∈ (Run.after driver.step s js).opens
  holds : Holds (Run.after driver.step s js).dev
  even : Even (js.countP isRead) →
    (Run.after driver.step s js).pos k = (min BUFFER_SIZE (sinceRead js) : Nat)
  odd : ¬ Even (js.countP isRead) →
    (message.length : Int) ≤ (Run.after driver.step s js).pos k ∧
      (Run.after driver.step s js).pos k ≤ BUFFER_SIZE

theorem InPlace.nonneg (h : InPlace s k js) : 0 ≤ (Run.after driver.step s js).pos k := by
  by_cases he : Even (js.countP isRead)
  · rw [h.even he]; exact Int.natCast_nonneg _
  · exact le_trans (Int.natCast_nonneg _) (h.odd he).1

/-- The reply to `c`, called after `js`, if it is a read, is the one due. -/
def Due (s : Sys Vars) (js : List Call) (c : Call) : Prop :=
  isRead c = true → ((driver.step (Run.after driver.step s js) c).2.ret,
    (driver.step (Run.after driver.step s js) c).2.out.user) = turn message (js.countP isRead)

theorem InPlace.holds_snoc (h : InPlace s k js) (c : Call) :
    Holds (Run.after driver.step s (js ++ [c])).dev := by
  rw [Run.after_snoc]; exact keeps_holds.step h.holds c

/-- A write advances the offset, within the array. -/
theorem inPlace_write (h : InPlace s k js) {buf : UserSrc} (hb : buf.missed = 0)
    (hl : buf.bytes.length ≤ MAX_RW_COUNT) : InPlace s k (js ++ [.write k none buf]) := by
  have hlen := length_message
  have hc : (js ++ [Call.write k none buf]).countP isRead = js.countP isRead := by
    rw [List.countP_append]; rfl
  generalize hn : min buf.bytes.length
    (BUFFER_SIZE - ((Run.after driver.step s js).pos k).toNat) = n
  obtain ⟨-, hopen, hpos⟩ := appends.step h.opens h.nonneg hb hl hn rfl
  rw [← Run.after_snoc] at hopen hpos
  refine ⟨hopen, h.holds_snoc _, fun he => ?_, fun ho => ?_⟩
  · rw [hc] at he
    have hp := h.even he
    rw [hpos, sinceRead_write rfl]
    simp only [payload, BUFFER_SIZE] at hn hp ⊢
    omega
  · rw [hc] at ho
    have hp := h.odd ho
    rw [hpos]
    simp only [BUFFER_SIZE] at hn hp ⊢
    omega

section

variable {buf : UserDst} {len : Nat}

theorem even_snoc_read : Even ((js ++ [Call.read k none buf len]).countP isRead) ↔
    ¬ Even (js.countP isRead) := by
  rw [List.countP_append]
  exact Nat.even_add_one

/-- A read that is due the message is given it just if the writes since the last
read are short, and then it leaves the session in its place. -/
theorem inPlace_due (h : InPlace s k js) (he : Even (js.countP isRead)) (hb : buf.missed = 0) :
    (Due s js (.read k none buf len) ↔ sinceRead js < message.length) ∧
      (Due s js (.read k none buf len) → InPlace s k (js ++ [.read k none buf len])) := by
  have hlen := length_message
  have hp := h.even he
  have ho : ¬ Even ((js ++ [Call.read k none buf len]).countP isRead) := fun he' =>
    even_snoc_read.mp he' he
  rw [Due, forall_prop_of_true (show isRead (.read k none buf len) = true from rfl), turn, if_pos he]
  by_cases hlt : (Run.after driver.step s js).pos k < message.length
  · obtain ⟨hg, hopen, hpos⟩ := read_message h.holds h.opens h.nonneg hlt hb len rfl
    rw [← Run.after_snoc] at hopen hpos
    refine ⟨iff_of_true hg ?_, fun _ => ⟨hopen, h.holds_snoc _, fun he' => absurd he' ho, fun _ => ?_⟩⟩
    · simp only [BUFFER_SIZE] at hp
      omega
    · rw [hpos]
      simp only [BUFFER_SIZE] at hp ⊢
      omega
  · obtain ⟨hg, -⟩ := read_eof h.holds h.opens (not_lt.mp hlt) buf len rfl
    have hd : ((driver.step (Run.after driver.step s js) (.read k none buf len)).2.ret,
        (driver.step (Run.after driver.step s js) (.read k none buf len)).2.out.user) ≠
        ((message.length : Int), message) := by
      rw [hg]
      decide
    refine ⟨iff_of_false hd ?_, fun e => absurd e hd⟩
    simp only [BUFFER_SIZE] at hp
    omega

/-- Any other read is told the end of file, as is due. -/
theorem inPlace_rest (h : InPlace s k js) (ho : ¬ Even (js.countP isRead)) :
    Due s js (.read k none buf len) ∧ InPlace s k (js ++ [.read k none buf len]) := by
  have he : Even ((js ++ [Call.read k none buf len]).countP isRead) := even_snoc_read.mpr ho
  have hz : sinceRead (js ++ [.read k none buf len]) = 0 := sinceRead_read rfl js
  obtain ⟨hg, hopen, hpos⟩ := read_eof h.holds h.opens (h.odd ho).1 buf len rfl
  rw [← Run.after_snoc] at hopen hpos
  refine ⟨fun _ => ?_, hopen, h.holds_snoc _, fun _ => ?_, fun ho' => absurd he ho'⟩
  · rw [turn, if_neg ho]
    exact hg
  · rw [hpos, hz]
    rfl

/-- A read is answered as is due just if it is not due the message or the writes
since the last one are short, and then it leaves the session in its place. -/
theorem inPlace_read (h : InPlace s k js) (hb : buf.missed = 0) :
    (Due s js (.read k none buf len) ↔
        (Even (js.countP isRead) → sinceRead js < message.length)) ∧
      (Due s js (.read k none buf len) → InPlace s k (js ++ [.read k none buf len])) := by
  by_cases he : Even (js.countP isRead)
  · rw [forall_prop_of_true he]
    exact inPlace_due h he hb
  · obtain ⟨hd, hin⟩ := inPlace_rest h he
    exact ⟨iff_of_true hd fun he' => absurd he' he, fun _ => hin⟩

end

/-! ## Every sequence -/

theorem opens_own {c : Call} (hc : Own k c) {s : Sys Vars} (hk : k ∈ s.opens) :
    k ∈ (driver.step s c).1.opens :=
  Driver.mem_opens_step hk fun e => by subst e; exact hc

theorem repliesFrom_snoc {cs : List Call} {c : Call} (hc : Own k c)
    (hk : k ∈ (Run.after driver.step s cs).opens) :
    repliesFrom s k (cs ++ [c]) = repliesFrom s k cs ++ if isRead c then
      [((driver.step (Run.after driver.step s cs) c).2.ret,
        (driver.step (Run.after driver.step s cs) c).2.out.user)] else [] := by
  rw [repliesFrom, Run.steps_snoc, List.filterMap_append, repliesFrom]
  refine congrArg _ ?_
  cases c with
  | opn m | close m => exact hc.elim
  | write m at? buf => rfl
  | read m at? buf len =>
    obtain rfl : m = k := hc.1
    have hr : Driver.replyTo m (Run.stepOf driver.step (Run.after driver.step s cs)
        (.read m at? buf len)) = some _ := if_pos (if_pos hk)
    rw [List.filterMap_cons_some hr]
    rfl

/-- The replies are the message and the end of file in turn just if each is due. -/
theorem repliesFrom_eq_iff {cs : List Call} (hc : ∀ c ∈ cs, Own k c) (hk : k ∈ s.opens) :
    repliesFrom s k cs = Spec.Shared.alone (turn message) (cs.countP isRead) ↔
      ∀ js c ks, cs = js ++ c :: ks → Due s js c := by
  induction cs using List.reverseRecOn with
  | nil => simp [repliesFrom, Spec.Shared.alone]
  | append_singleton cs c ih =>
    have hcs : ∀ c' ∈ cs, Own k c' := fun c' h => hc c' (List.mem_append_left _ h)
    have hcc := hc c (List.mem_append_right _ List.mem_cons_self)
    have hopen : k ∈ (Run.after driver.step s cs).opens :=
      Run.inv_after (I := fun s : Sys Vars => k ∈ s.opens) (P := Own k)
        (fun _ _ hs hc => opens_own hc hs) hk hcs
    rw [Run.forall_cuts_snoc, ← ih hcs, repliesFrom_snoc hcc hopen, List.countP_append,
      List.countP_singleton]
    cases hr : isRead c with
    | true =>
      rw [if_pos rfl, if_pos rfl, Spec.Shared.alone_succ, Due, forall_prop_of_true hr]
      constructor
      · intro e
        obtain ⟨e₁, e₂⟩ := List.append_inj' e rfl
        exact ⟨e₁, (List.cons.inj e₂).1⟩
      · rintro ⟨e₁, e₂⟩
        rw [e₁, e₂]
    | false =>
      rw [if_neg Bool.false_ne_true, if_neg Bool.false_ne_true, List.append_nil, Nat.add_zero,
        Due, hr]
      simp

/-- Each reply is due just if the writes before each read that is due the message
are short. -/
theorem due_iff (h : InPlace s k []) {cs : List Call} (hc : ∀ c ∈ cs, Own k c) :
    (∀ js c ks, cs = js ++ c :: ks → Due s js c) ↔ ShortWrites cs := by
  refine Run.forall_cuts_iff (I := InPlace s k) (B := fun js c => isRead c = true →
    Even (js.countP isRead) → sinceRead js < message.length) h fun js c ks e hj => ?_
  have hcc := hc c (by rw [e]; exact List.mem_append_right _ List.mem_cons_self)
  cases c with
  | opn m | close m => exact hcc.elim
  | read m at? buf len =>
    obtain ⟨rfl, rfl, hb⟩ := hcc
    rw [forall_prop_of_true (show isRead (.read m none buf len) = true from rfl)]
    exact inPlace_read hj hb
  | write m at? buf =>
    obtain ⟨rfl, rfl, hb, hl⟩ := hcc
    exact ⟨iff_of_true (fun h => by cases h) (fun h => by cases h), fun _ => inPlace_write hj hb hl⟩

theorem sinceRead_reads {cs : List Call} (h : ∀ c ∈ cs, isRead c = true) : sinceRead cs = 0 := by
  rcases List.eq_nil_or_concat cs with rfl | ⟨cs, c, rfl⟩
  · rfl
  · rw [List.concat_eq_append] at h ⊢
    exact sinceRead_read (h c (List.mem_append_right _ List.mem_cons_self)) cs

/-- The replies are those without the writes just if the writes are short where the
message is due. -/
theorem undisturbed_shortWrites (h : InPlace s k []) {cs : List Call} (hc : ∀ c ∈ cs, Own k c) :
    Undisturbed s k cs ↔ ShortWrites cs := by
  have hk : k ∈ s.opens := h.opens
  have hcr : ∀ c ∈ cs.filter isRead, Own k c := fun c h => hc c (List.mem_filter.mp h).1
  have hshort : ShortWrites (cs.filter isRead) := by
    intro js c ks e _ _
    have hr : ∀ c ∈ js, isRead c = true := fun c h => by
      have hm : c ∈ cs.filter isRead := by rw [e]; exact List.mem_append_left _ h
      exact (List.mem_filter.mp hm).2
    rw [sinceRead_reads hr]
    decide
  have hreads := (repliesFrom_eq_iff hcr hk).mpr ((due_iff h hcr).mpr hshort)
  have hcount : (cs.filter isRead).countP isRead = cs.countP isRead := by
    rw [List.countP_filter]
    simp
  rw [Undisturbed, hreads, hcount, eq_comm, repliesFrom_eq_iff hc hk, due_iff h hc]

theorem inPlace_start {cs₀ : List Call} (hk : k ∈ (driver.after cs₀).opens)
    (h0 : (driver.after cs₀).pos k = 0) : InPlace (driver.after cs₀) k [] :=
  ⟨hk, keeps_holds.after cs₀, fun _ => h0, fun h => absurd Even.zero h⟩

/-- Every reachable state in which session `k` is at the offset 0, and every sequence
of its valid reads and writes from it: its replies are those it would get without
the writes just if these are short where the message is due. -/
theorem undisturbed_iff (cs₀ : List Call) (k : Nat) (hk : k ∈ (driver.after cs₀).opens)
    (h0 : (driver.after cs₀).pos k = 0) (cs : List Call) (hc : ∀ c ∈ cs, Own k c) :
    Undisturbed (driver.after cs₀) k cs ↔ ShortWrites cs :=
  undisturbed_shortWrites (inPlace_start hk h0) hc

/-- A write of two bytes, then a read. -/
theorem undisturbed_short : Undisturbed (driver.after [.opn 0]) 0
    [.write 0 none ⟨[0x68, 0x6f], 0, []⟩, .read 0 none {} 99] := by
  refine (undisturbed_iff [.opn 0] 0 (by decide) (by decide) _ ?_).mpr fun js c ks e hr _ => ?_
  · simp [Own, MAX_RW_COUNT]
  · rcases js with _ | ⟨a, _ | ⟨b, js⟩⟩
    · decide
    · simp only [List.cons_append, List.nil_append, List.cons.injEq] at e
      obtain ⟨rfl, -⟩ := e
      decide
    · simp at e

/-- A write as long as the message, then a read. -/
theorem read_after_write_eof :
    ¬ ∀ (cs₀ : List Call) (k : Nat) (cs : List Call), k ∈ (driver.after cs₀).opens →
      (driver.after cs₀).pos k = 0 → (∀ c ∈ cs, Own k c) →
      Undisturbed (driver.after cs₀) k cs := by
  intro h
  have hc : ∀ c ∈ [Call.write 0 none ⟨List.replicate 41 0x41, 0, []⟩, .read 0 none {} 99], Own 0 c := by
    simp [Own, MAX_RW_COUNT]
  have hin : InPlace (driver.after [.opn 0]) 0 [] := inPlace_start (by decide) (by decide)
  have hs := (undisturbed_shortWrites hin hc).mp (h [.opn 0] 0 _ (by decide) (by decide) hc)
    [.write 0 none ⟨List.replicate 41 0x41, 0, []⟩] _ [] rfl rfl (by decide)
  exact absurd hs (by decide)

end SO.Proof.Pokemon
