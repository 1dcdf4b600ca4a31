import Trivariate.Session.Basic
import Trivariate.Proofs.BracketedReading
import Trivariate.Proofs.PolishReading
import Trivariate.Proofs.NormalForm
import Trivariate.Proofs.FieldDerivative
import Trivariate.Proofs.BracketMoves
import Trivariate.Proofs.ParallelStacks
import Trivariate.Proofs.SymbolPlaces
import Trivariate.Proofs.OperandRecord
import Trivariate.Proofs.GroupScope
import Trivariate.Proofs.DepthLimit
import Trivariate.Proofs.WithoutBrackets
import Trivariate.Proofs.SimplifiedText
import Trivariate.Proofs.ZeroSigns
import Trivariate.Proofs.ExactArithmetic
import Trivariate.Proofs.SimplifiedValue
import Trivariate.Proofs.StepPlaces
import Trivariate.Proofs.ErrorPlaces
import Trivariate.Proofs.BlankInsertion
import Trivariate.Proofs.CatalogGate
import Trivariate.Proofs.BracketPartners
import Trivariate.Proofs.FirstFailure
import Trivariate.Proofs.DerivativeParts
import Trivariate.Proofs.DerivativeSize
import Trivariate.Proofs.ConstantFolding
import Trivariate.Proofs.PositiveCounts
import Trivariate.Proofs.SimplifiedParts
import Trivariate.Proofs.VanishingDerivative
import Trivariate.Proofs.UniqueText
