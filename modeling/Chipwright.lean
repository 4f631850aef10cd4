import Chipwright.Main
import Chipwright.Proofs.Annotation
import Chipwright.Proofs.Calls
import Chipwright.Proofs.Command
import Chipwright.Proofs.Diagnosis
import Chipwright.Proofs.Immediates
import Chipwright.Proofs.Inlining
import Chipwright.Proofs.IntegerRange
import Chipwright.Proofs.Lexing.LineEndings
import Chipwright.Proofs.Linkage
import Chipwright.Proofs.Parsing.Descent
import Chipwright.Proofs.Preservation
import Chipwright.Proofs.Printing
import Chipwright.Proofs.RegisterDemand
import Chipwright.Proofs.RegisterPool.Discipline
import Chipwright.Proofs.Renaming
import Chipwright.Proofs.SilentLoops
import Chipwright.Proofs.SourceLines
import Chipwright.Proofs.Thresholds
import Chipwright.Proofs.VariableSeparation
