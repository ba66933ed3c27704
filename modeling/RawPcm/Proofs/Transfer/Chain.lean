import Mathlib.Data.List.Forall2
import RawPcm.Proofs.Transfer.Bounded

/-! Transfers in a row, each of which goes on where the one before it ended. -/
namespace RawPcm
variable {t : SampleType}

end RawPcm
