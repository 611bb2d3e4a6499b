import StackScript.Journal
import StackScript.Main
import StackScript.Proofs.Blame
import StackScript.Proofs.CallDiscipline
import StackScript.Proofs.Composition
import StackScript.Proofs.Correctness
import StackScript.Proofs.Equivariance
import StackScript.Proofs.ExpressionReading
import StackScript.Proofs.Halting
import StackScript.Proofs.JumpEncoding
import StackScript.Proofs.Leaps
import StackScript.Proofs.LineLookup
import StackScript.Proofs.LineTables
import StackScript.Proofs.ListedSteps
import StackScript.Proofs.LoopForms
import StackScript.Proofs.Normalizing
import StackScript.Proofs.Resolution
import StackScript.Proofs.ScopeTables
import StackScript.Proofs.WellFormed
