import Proyectos.Proof.Pokemon.Races
import Proyectos.Proof.Pokemon.Sessions
import Proyectos.Proof.Toggle.Races

/-!
# What a call is answered, whatever runs beside it

`pokemon`, `luffy`, `madre` and `chaleco` take no mutex, and their calls race for
the mode, the count and the bytes of `write_buffer`. But none of these is what a
call is answered: but for what it logs, every call replies what it replies alone
on the device just loaded, in every interleaving. The exception is a read of the
last three, which may be told that the file ends instead (`answers`).
-/

namespace SO.Access

open Thread (Free)

variable {o : Out}

/-- The reply to a read that is told that the file ends. -/
def ended (off : Int) : Reply := { ret := 0, off := some off, out := {} }

namespace Pokemon

open SO.Impl.Pokemon (Vars driver init)

/-- `kernel_buffer` is as it was loaded. -/
def Loaded (d : Dev Vars) : Prop := d.kernelBuffer = init.kernelBuffer

theorem answer_read (buf : UserDst) (len : Nat) (off : Int) :
    Yields (fun _ => ()) Loaded (pokeRead buf len off) {} fun r o =>
      (Reply.ofPair (r, o)).Alike (driver.alone (.read buf len off)) := by
  refine yields_read buf len off (fun d hd h => ?_) (fun d d' hd hd' h hf log _ => ?_)
    fun d d' hd hd' h hf log _ => ?_
  · rw [hd] at h
    simp only [Driver.alone, Driver.enter, driver, Proof.Pokemon.pokeRead_eof _ buf len off rfl h]
    exact ⟨rfl, rfl, rfl, rfl⟩
  · rw [hd] at h hf
    rw [hd, hd']
    simp only [Driver.alone, Driver.enter, driver,
      Proof.Pokemon.pokeRead_fault _ buf len off rfl h hf]
    exact ⟨rfl, rfl, rfl, by simp only [Reply.ofPair, List.nil_append]⟩
  · rw [hd] at h hf
    rw [hd, hd', hf, Nat.sub_zero]
    simp only [Driver.alone, Driver.enter, driver, Proof.Pokemon.pokeRead_ok _ buf len off rfl h hf]
    exact ⟨rfl, rfl, rfl, by simp only [Reply.ofPair, List.nil_append]⟩

theorem answer_code (c : Fop) :
    Free (fun _ => ()) Loaded (fun a => a.Alike (driver.alone c)) (fops.code c) := by
  cases c with
  | opn =>
    refine Free.bind (yields_open (Q := fun r o => (Reply.ofInt (r, o)).Alike (driver.alone .opn))
      fun log _ => ?_) fun r hr => .ret hr
    simp only [Driver.alone, Driver.enter, driver, Proof.Pokemon.pokeOpen_run]
    exact ⟨rfl, rfl, rfl, rfl⟩
  | release =>
    refine Free.bind (yields_close
      (Q := fun r o => (Reply.ofInt (r, o)).Alike (driver.alone .release)) fun log _ => ?_)
      fun r hr => .ret hr
    simp only [Driver.alone, Driver.enter, driver, Proof.Pokemon.pokeClose_run]
    exact ⟨rfl, rfl, rfl, rfl⟩
  | read buf len off => exact Free.bind (answer_read buf len off) fun r hr => .ret hr
  | write buf off =>
    exact Free.bind (yields_write (fun _ _ hd => ⟨rfl, hd⟩) fun _ _ hd => ⟨rfl, hd⟩) fun r hr => .ret hr

end Pokemon

namespace Toggle

open SO.Impl.Toggle (Texts Vars driver init)

variable (x : Texts)

/-- `kernel_buffer` is as it was loaded. -/
def Loaded (d : Dev Vars) : Prop := d.kernelBuffer = (init x).kernelBuffer

/-- What a call may reply: a read, that the file ends. -/
def Answers (c : Fop) (a : Reply) : Prop :=
  a.Alike ((driver x).alone c) ∨ ∃ buf len off, c = .read buf len off ∧ a.Alike (ended off)

theorem answer_read (buf : UserDst) (len : Nat) (off : Int) :
    Yields (fun _ => ()) (Loaded x) (toggleRead x buf len off) {} fun r o =>
      Answers x (.read buf len off) (Reply.ofPair (r, o)) := by
  have hexit : (init x).vars.exit = 0 := rfl
  refine yields_read x buf len off (fun _ _ hd => ⟨rfl, hd⟩) (.inr ⟨buf, len, off, rfl, ?_⟩)
    (fun d d' hd hd' hf log _ => .inl ?_) fun d d' hd hd' hf log _ => .inl ?_
  · exact ⟨rfl, rfl, rfl, rfl⟩
  · rw [hd] at hf
    rw [hd, hd']
    simp only [Driver.alone, Driver.enter, driver,
      Proof.Toggle.toggleRead_fault x _ buf len off hexit rfl hf]
    exact ⟨rfl, rfl, rfl, by simp only [Reply.ofPair, List.nil_append]⟩
  · rw [hd] at hf
    rw [hd, hd', hf, Nat.sub_zero]
    simp only [Driver.alone, Driver.enter, driver,
      Proof.Toggle.toggleRead_ok x _ buf len off hexit rfl hf]
    exact ⟨rfl, rfl, rfl, by simp only [Reply.ofPair, List.nil_append]⟩

theorem answer_code (c : Fop) :
    Free (fun _ => ()) (Loaded x) (Answers x c) ((fops x).code c) := by
  cases c with
  | opn =>
    refine Free.bind (yields_open x (Q := fun r o => Answers x .opn (Reply.ofInt (r, o)))
      (fun _ _ hd => ⟨rfl, hd⟩) fun log _ => .inl ?_) fun r hr => .ret hr
    simp only [Driver.alone, Driver.enter, driver, Proof.Toggle.toggleOpen_run]
    exact ⟨rfl, rfl, rfl, rfl⟩
  | release =>
    refine Free.bind (yields_close x (Q := fun r o => Answers x .release (Reply.ofInt (r, o)))
      fun log _ => .inl ?_) fun r hr => .ret hr
    simp only [Driver.alone, Driver.enter, driver, Proof.Toggle.toggleClose_run]
    exact ⟨rfl, rfl, rfl, rfl⟩
  | read buf len off => exact Free.bind (answer_read x buf len off) fun r hr => .ret hr
  | write buf off =>
    have hw : Yields (fun _ => ()) (Loaded x) (toggleWrite x buf buf.bytes.length off) {} fun r o =>
        (Reply.ofPair (r, o)).Alike ((driver x).alone (.write buf off)) :=
      yields_write x (fun _ _ hd => ⟨rfl, hd⟩) fun _ _ hd => ⟨rfl, hd⟩
    exact Free.bind hw fun r hr => .ret (.inl hr)

end Toggle

/-- In every interleaving a call is answered as it is alone, but for what it logs, and but
for the reads of `luffy`, `madre` and `chaleco` that are told that the file ends. -/
theorem answers :
    (∀ es e k c a, (Threads.move Pokemon.fops.code (Pokemon.threads es) e).2 = .returned k c a →
      a.Alike (Impl.Pokemon.driver.alone c)) ∧
    ∀ x es e k c a,
      (Threads.move (Toggle.fops x).code (Toggle.threads x es) e).2 = .returned k c a →
        Toggle.Answers x c a := by
  constructor
  · intro es e k c a ht
    have h₀ : Threads.Unlocked (fun _ => ()) Pokemon.Loaded
        (fun c a => a.Alike (Impl.Pokemon.driver.alone c)) Pokemon.boot := ⟨rfl, nofun⟩
    exact (h₀.after (fun c _ => Pokemon.answer_code c) fun e _ => e.starts_any).reply ht
  · intro x es e k c a ht
    have h₀ : Threads.Unlocked (fun _ => ()) (Toggle.Loaded x) (Toggle.Answers x) (Toggle.boot x) :=
      ⟨rfl, nofun⟩
    exact (h₀.after (fun c _ => Toggle.answer_code x c) fun e _ => e.starts_any).reply ht

end SO.Access
