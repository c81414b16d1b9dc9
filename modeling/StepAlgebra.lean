import StepAlgebra.Formula.Printer
import StepAlgebra.Main
import StepAlgebra.Proofs.Arithmetic.Commutative
import StepAlgebra.Proofs.Arithmetic.Notation
import StepAlgebra.Proofs.CommandLine.Batch
import StepAlgebra.Proofs.Formula.Alternatives
import StepAlgebra.Proofs.Formula.Blanks
import StepAlgebra.Proofs.Formula.Meaning
import StepAlgebra.Proofs.Formula.Overlap
import StepAlgebra.Proofs.Formula.Parentheses
import StepAlgebra.Proofs.Formula.Places
import StepAlgebra.Proofs.Search.Linear
import StepAlgebra.Proofs.Search.Soundness
import StepAlgebra.Proofs.Search.Termination
import StepAlgebra.Proofs.Step.Bracketing
import StepAlgebra.Proofs.Step.Commutative
import StepAlgebra.Proofs.Step.Explained
import StepAlgebra.Proofs.Step.Negation
import StepAlgebra.Proofs.Step.Partition
import StepAlgebra.Proofs.Step.Prediction
import StepAlgebra.Proofs.Step.Progress
import StepAlgebra.Proofs.Step.Stuck
import StepAlgebra.Proofs.Value.Enumeration
import StepAlgebra.Proofs.Value.Results
