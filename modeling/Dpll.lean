import Dpll.CommandLine.FileTree
import Dpll.Main
import Dpll.Proofs.Accounting
import Dpll.Proofs.Atomicity
import Dpll.Proofs.CachedStates
import Dpll.Proofs.CallBounds
import Dpll.Proofs.DimacsPrinting
import Dpll.Proofs.EndedSolves
import Dpll.Proofs.Entailment
import Dpll.Proofs.Fixpoint
import Dpll.Proofs.Forgetting
import Dpll.Proofs.LiteralOrder
import Dpll.Proofs.LoadedFormula
import Dpll.Proofs.Mirroring
import Dpll.Proofs.OpenLevels
import Dpll.Proofs.Period
import Dpll.Proofs.PhaseTruth
import Dpll.Proofs.Preprocessing
import Dpll.Proofs.QueryAnswers
import Dpll.Proofs.Reduction
import Dpll.Proofs.RepeatedSolves
import Dpll.Proofs.Resumption
import Dpll.Proofs.Rounds
import Dpll.Proofs.Selection
import Dpll.Proofs.Undoing
