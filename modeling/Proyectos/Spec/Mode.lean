import Proyectos.Framework.Run
import Mathlib.Algebra.Ring.Parity
import Mathlib.Data.List.Induction

/-!
# A device with one message

What the drivers with an end-of-file flag are for: a reader is given the
message, then the end of file, so that a program that reads to the end stops;
in stream mode the message never ends. The device is the two flags `Flags`; the
drivers differ in how they set `stream` (`on` and `off`, or `toggle`) and in
whether a failed read leaves the flag it had set (`keep`).

* `stream_after`: with `on` and `off` only, the mode is what the latest of them
  asked for.
* `endless_step`, `reply_of_endless`: with these, no end of file is pending in
  stream mode, and a read is given the message.
* `eof_after`: without them and without `keep`, an end of file is pending just
  if the latest reads that were valid and not in stream mode (`ended`) are odd
  in number.

`orion` and `pokemon` are told the mode by a byte (`asks`).
-/

namespace SO.Spec.Mode

/-- The mode, and whether the next read is told the end of file. -/
@[ext] structure Flags where
  stream : Bool := false
  eof : Bool := false
  deriving DecidableEq, Repr

/-- What can happen to the device. -/
inductive Act
  | read (fault : Bool)
  | on
  | off
  | toggle
  | idle
  deriving DecidableEq, Repr

/-- What a read is answered. -/
inductive Reply
  | none
  | message
  | fault
  | eof
  deriving DecidableEq, Repr

def step (keep : Bool) (s : Flags) : Act → Flags × Reply
  | .read fault =>
    if s.eof then ({ s with eof := false }, .eof)
    else if fault then ({ s with eof := keep && !s.stream }, .fault)
    else ({ s with eof := !s.stream }, .message)
  | .on => ({ stream := true, eof := false }, .none)
  | .off => ({ s with stream := false }, .none)
  | .toggle => ({ s with stream := !s.stream }, .none)
  | .idle => (s, .none)

variable {keep : Bool}

theorem step_eof {s : Flags} (h : s.eof = true) (fault : Bool) :
    step keep s (.read fault) = ({ s with eof := false }, .eof) := by
  simp only [step, h, if_true]

theorem step_fault {s : Flags} (h : s.eof = false) :
    step keep s (.read true) = ({ s with eof := keep && !s.stream }, .fault) := by
  simp only [step, h, Bool.false_eq_true, if_false, if_true]

theorem step_message {s : Flags} (h : s.eof = false) :
    step keep s (.read false) = ({ s with eof := !s.stream }, .message) := by
  simp only [step, h, Bool.false_eq_true, if_false]

theorem stream_read (s : Flags) (fault : Bool) : (step keep s (.read fault)).1.stream = s.stream := by
  simp only [step]
  split <;> [skip; split] <;> rfl

/-! ## Setting the mode -/

/-- The mode an act asks for. -/
def Act.directive : Act → Option Bool
  | .on => some true
  | .off => some false
  | _ => .none

/-- Every act but a directive and a toggle keeps the mode. -/
theorem stream_step {s : Flags} {a : Act} (ha : a ≠ .toggle) :
    (step keep s a).1.stream = a.directive.getD s.stream := by
  cases a with
  | read fault => exact stream_read s fault
  | toggle => exact absurd rfl ha
  | on | off | idle => rfl

/-- The mode is what the latest directive asked for. -/
theorem stream_after (s : Flags) {as : List Act} (h : ∀ a ∈ as, a ≠ .toggle) :
    (Run.after (step keep) s as).stream = ((as.filterMap Act.directive).getLast?).getD s.stream := by
  induction as using List.reverseRecOn with
  | nil => rfl
  | append_singleton as a ih =>
    have ha : a ≠ .toggle := h a (List.mem_append_right _ List.mem_cons_self)
    rw [Run.after_snoc, stream_step ha, ih fun b hb => h b (List.mem_append_left _ hb),
      List.filterMap_append, List.getLast?_append]
    cases e : a.directive <;> simp [e]

/-- No end of file is pending in stream mode. -/
def Flags.Endless (s : Flags) : Prop := s.stream = true → s.eof = false

theorem endless_step {s : Flags} {a : Act} (h : s.Endless) (ha : a ≠ .toggle) :
    (step keep s a).1.Endless := by
  intro hs
  cases a with
  | read fault =>
    rw [stream_read] at hs
    simp [step, h hs, hs]
    split <;> rfl
  | on => rfl
  | off => cases hs
  | toggle => exact absurd rfl ha
  | idle => exact h hs

/-- A read in stream mode is given the message, or fails. -/
theorem reply_of_endless {s : Flags} (h : s.Endless) (hs : s.stream = true) (fault : Bool) :
    (step keep s (.read fault)).2 = if fault then .fault else .message := by
  cases fault with
  | true => rw [step_fault (h hs)]; rfl
  | false => rw [step_message (h hs)]; rfl

/-! ## When the end of file is pending -/

/-- Whether a read answered in state `s` is valid and not in stream mode;
nothing, for another act. -/
def ends (s : Flags) : Act → Option Bool
  | .read fault => some (!fault && !s.stream)
  | _ => .none

/-- How many of the latest reads of a transcript were valid and not in stream
mode. -/
def ended (ts : List (Step Flags Act Reply)) : Nat :=
  ((ts.filterMap fun t => ends t.pre t.inp).reverse.takeWhile id).length

theorem ended_snoc (ts : List (Step Flags Act Reply)) (t : Step Flags Act Reply) :
    ended (ts ++ [t]) = match ends t.pre t.inp with
      | .none => ended ts
      | some true => ended ts + 1
      | some false => 0 := by
  simp only [ended, List.filterMap_append, List.reverse_append]
  cases h : ends t.pre t.inp with
  | none => simp [h]
  | some b => cases b <;> simp [h]

/-- The end of file is pending just if the latest valid reads outside stream
mode are odd in number. -/
theorem eof_after {as : List Act} (h : ∀ a ∈ as, a.directive = .none) :
    (Run.after (step false) {} as).eof = true ↔ Odd (ended (Run.steps (step false) {} as)) := by
  induction as using List.reverseRecOn with
  | nil => simp [ended]
  | append_singleton as a ih =>
    specialize ih fun b hb => h b (List.mem_append_left _ hb)
    have ha := h a (List.mem_append_right _ List.mem_cons_self)
    rw [Run.after_snoc, Run.steps_snoc, ended_snoc]
    generalize Run.after (step false) {} as = s at ih
    generalize ended (Run.steps (step false) {} as) = n at ih
    cases a with
    | read fault =>
      rcases s with ⟨stream, eof⟩
      cases fault <;> cases stream <;> cases eof <;>
        simp_all [step, ends, Run.stepOf, Nat.odd_add_one]
    | toggle | idle => simpa [step, ends, Run.stepOf] using ih
    | on | off => cases ha

/-! ## The bytes that set the mode -/

/-- The value of `stream` a byte asks for. -/
def asks (b : UInt8) : Option Int :=
  if b = '1'.toUInt8 then some 1 else if b = '0'.toUInt8 then some 0 else none

/-- Setting `stream` as a byte asks: to 1, to 0, or not at all. -/
theorem stream_asks {ν : Type*} (stream : ν → Int) {on off v : ν} (h1 : stream on = 1)
    (h0 : stream off = 0) (b : UInt8) :
    stream (if b = '1'.toUInt8 then on else if b = '0'.toUInt8 then off else v) =
      (asks b).getD (stream v) := by
  unfold asks
  split
  · exact h1
  · split
    · exact h0
    · rfl

end SO.Spec.Mode
