import Proyectos.Proof.Pokemon.Bounds
import Proyectos.Proof.Toggle.Mode

/-!
# Reads that overrun the caller's buffer

`luffy`, `madre`, `chaleco` and `pokemon` copy the whole message whatever length
they are asked for. So a read stays within its buffer (`Driver.Fits`) just if it
copies nothing, or its buffer has room for all that can be copied of the
message (`no_overrun_iff`).
-/

namespace SO.Proof

open Driver (Fits ReadIn)

/-! ## `luffy`, `madre` and `chaleco` -/

namespace Toggle

open SO.Impl.Toggle

/-- The read finds no end of file marked and asks for fewer bytes of the message
than can be copied. -/
def Short (x : Texts) (v : Dev Vars) (buf : UserDst) (len : Nat) (_off : Int) : Prop :=
  v.vars.exit = 0 ∧ len < x.message.length - buf.missed

theorem toggleRead_fits {x : Texts} {v : Dev Vars} (hv : Holds x v) (buf : UserDst) (len : Nat)
    (off : Int) {r : (Int × Int) × CallSt Vars}
    (hr : (toggleRead x buf len off).run { dev := v } = r) :
    r.1.1 ≤ len ∧ r.2.out.user.length ≤ len ↔ ¬ Short x v buf len off := by
  have hn := strlen_message hv
  have hle := x.message_le
  subst hr
  rw [Short]
  by_cases h : v.vars.exit = 0
  · rw [and_iff_right h]
    by_cases hf : min buf.missed x.message.length = 0
    · rw [toggleRead_ok x v buf len off h hn hf, int32_message]
      simp only [List.length_take, Buf.length_bytes]
      omega
    · rw [toggleRead_fault x v buf len off h hn hf]
      simp only [List.length_take, Buf.length_bytes, EFAULT]
      omega
  · rw [toggleRead_eof x v buf len off h]
    exact iff_of_true ⟨Int.natCast_nonneg len, Nat.zero_le _⟩ fun hc => h hc.1

theorem fits_iff (x : Texts) (cs : List Call) :
    (∀ t ∈ (driver x).steps cs, Fits t) ↔ ∀ t ∈ (driver x).steps cs, ¬ ReadIn (Short x) t :=
  Driver.fits_iff (keeps_holds x) (fun _ buf len off h => toggleRead_fits h buf len off rfl) cs

end Toggle

/-! ## `pokemon` -/

namespace Pokemon

open SO.Impl.Pokemon

/-- The read is at an offset before the message's end and asks for fewer bytes of
the message than can be copied. -/
def Short (_v : Dev Vars) (buf : UserDst) (len : Nat) (off : Int) : Prop :=
  off < message.length ∧ len < message.length - buf.missed

theorem pokeRead_fits {v : Dev Vars} (hv : Holds v) (buf : UserDst) (len : Nat) (off : Int)
    {r : (Int × Int) × CallSt Vars} (hr : (pokeRead buf len off).run { dev := v } = r) :
    r.1.1 ≤ len ∧ r.2.out.user.length ≤ len ↔ ¬ Short v buf len off := by
  have hn := strlen_message hv
  subst hr
  rw [Short, length_message]
  by_cases h : off ≥ (41 : Nat)
  · rw [pokeRead_eof v buf len off hn h]
    exact iff_of_true ⟨Int.natCast_nonneg len, Nat.zero_le _⟩ fun hc => absurd hc.1 (not_lt.mpr h)
  · rw [and_iff_right (not_le.mp h)]
    by_cases hf : min buf.missed 41 = 0
    · have hi : int32 ((41 : Nat) : Int) = (41 : Nat) := by decide
      rw [pokeRead_ok v buf len off hn h hf, hi]
      simp only [List.length_take, Buf.length_bytes, BUFFER_SIZE]
      omega
    · rw [pokeRead_fault v buf len off hn h hf]
      simp only [List.length_take, Buf.length_bytes, BUFFER_SIZE, EFAULT]
      omega

theorem fits_iff (cs : List Call) :
    (∀ t ∈ driver.steps cs, Fits t) ↔ ∀ t ∈ driver.steps cs, ¬ ReadIn Short t :=
  Driver.fits_iff keeps_holds (fun _ buf len off h => pokeRead_fits h buf len off rfl) cs

end Pokemon

/-! ## The four drivers -/

open Impl.Toggle (luffy madre chaleco luffyTexts madreTexts chalecoTexts)

/-- Every run: no read overruns its buffer just if none that copies asks for fewer
bytes than can be copied. -/
theorem no_overrun_iff (cs : List Call) :
    ((∀ t ∈ luffy.steps cs, Fits t) ↔ ∀ t ∈ luffy.steps cs, ¬ ReadIn (Toggle.Short luffyTexts) t) ∧
      ((∀ t ∈ madre.steps cs, Fits t) ↔ ∀ t ∈ madre.steps cs, ¬ ReadIn (Toggle.Short madreTexts) t) ∧
      ((∀ t ∈ chaleco.steps cs, Fits t) ↔ ∀ t ∈ chaleco.steps cs, ¬ ReadIn (Toggle.Short chalecoTexts) t) ∧
      ((∀ t ∈ Impl.Pokemon.driver.steps cs, Fits t) ↔
        ∀ t ∈ Impl.Pokemon.driver.steps cs, ¬ ReadIn Pokemon.Short t) :=
  ⟨Toggle.fits_iff luffyTexts cs, Toggle.fits_iff madreTexts cs, Toggle.fits_iff chalecoTexts cs,
    Pokemon.fits_iff cs⟩

/-- A first read of one byte. -/
theorem read_overruns :
    (¬ ∀ cs, ∀ t ∈ luffy.steps cs, Fits t) ∧ (¬ ∀ cs, ∀ t ∈ madre.steps cs, Fits t) ∧
      (¬ ∀ cs, ∀ t ∈ chaleco.steps cs, Fits t) ∧
      ¬ ∀ cs, ∀ t ∈ Impl.Pokemon.driver.steps cs, Fits t := by
  have hm : ∀ {α : Type} {a b : α}, b ∈ [a, b] :=
    List.mem_cons_of_mem _ List.mem_cons_self
  refine ⟨fun h => ?_, fun h => ?_, fun h => ?_, fun h => ?_⟩
  · exact (Toggle.fits_iff luffyTexts _).mp (h [.opn 0, .read 0 none {} 1]) _ hm
      ⟨by decide, by decide, by decide⟩
  · exact (Toggle.fits_iff madreTexts _).mp (h [.opn 0, .read 0 none {} 1]) _ hm
      ⟨by decide, by decide, by decide⟩
  · exact (Toggle.fits_iff chalecoTexts _).mp (h [.opn 0, .read 0 none {} 1]) _ hm
      ⟨by decide, by decide, by decide⟩
  · exact (Pokemon.fits_iff _).mp (h [.opn 0, .read 0 none {} 1]) _ hm
      ⟨by decide, by decide, by decide⟩

end SO.Proof
