import Proyectos.Proof.Orion.Mode
import Proyectos.Proof.Toggle.Mode

/-!
# Sessions that only read

`orion`, `luffy`, `madre` and `chaleco` mark the end of file in one variable
that all sessions share. The sessions are answered as if each were alone just
if, before each read, the reads the others have made are even in number
(`reads_isolated_iff`).
-/

namespace SO.Proof

open Impl (Toggle.luffy Toggle.madre Toggle.chaleco)
open Impl.Toggle (luffyTexts madreTexts chalecoTexts)
open Serves (Quiet Isolated EvenBefore)

/-- Every run of sessions that open, read and close, in the four drivers. -/
theorem reads_isolated_iff (cs : List Call) :
    ((∀ c ∈ cs, Quiet Impl.Orion.message.length c) →
        (Isolated Impl.Orion.driver Impl.Orion.message cs ↔
          EvenBefore (Impl.Orion.driver.readers cs))) ∧
      ((∀ c ∈ cs, Quiet luffyTexts.message.length c) →
        (Isolated Toggle.luffy luffyTexts.message cs ↔ EvenBefore (Toggle.luffy.readers cs))) ∧
      ((∀ c ∈ cs, Quiet madreTexts.message.length c) →
        (Isolated Toggle.madre madreTexts.message cs ↔ EvenBefore (Toggle.madre.readers cs))) ∧
      ((∀ c ∈ cs, Quiet chalecoTexts.message.length c) →
        (Isolated Toggle.chaleco chalecoTexts.message cs ↔
          EvenBefore (Toggle.chaleco.readers cs))) :=
  ⟨Orion.serves.isolated_iff, (Toggle.serves luffyTexts).isolated_iff,
    (Toggle.serves madreTexts).isolated_iff, (Toggle.serves chalecoTexts).isolated_iff⟩

/-- Two sessions one after the other, each reading to its end of file. -/
theorem reads_isolated_in_turn :
    Isolated Impl.Orion.driver Impl.Orion.message
      [.opn 0, .read 0 none {} 99, .read 0 none {} 99, .close 0,
        .opn 1, .read 1 none {} 99, .read 1 none {} 99, .close 1] := by
  refine ((reads_isolated_iff _).1 ?_).mpr (by decide)
  simp [Quiet]
  decide

/-- Two sessions that each read once: the second is told the end of file. -/
theorem second_reader_eof :
    ¬ ∀ cs, (∀ c ∈ cs, Quiet Impl.Orion.message.length c) →
      Isolated Impl.Orion.driver Impl.Orion.message cs := by
  intro h
  have hq : ∀ c ∈ [Call.opn 0, .opn 1, .read 0 none {} 99, .read 1 none {} 99],
      Quiet Impl.Orion.message.length c := by
    simp [Quiet]
    decide
  exact absurd ((Orion.serves.isolated_iff hq).mp (h _ hq) [0] 1 [] rfl) (by decide)

end SO.Proof
