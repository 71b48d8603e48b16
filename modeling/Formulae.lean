import Formulae.Console.Highlight
import Formulae.Main
import Formulae.Proofs.Quiet
import Formulae.Proofs.Reading.Cursor
import Formulae.Proofs.Constancy
import Formulae.Proofs.Grammar.Derivation
import Formulae.Proofs.Reading.Tokens
import Formulae.Proofs.Grammar.Follow
import Formulae.Proofs.Reading.Completeness
import Formulae.Proofs.Reading.Exactness
import Formulae.Proofs.Evaluation.Congruence
import Formulae.Proofs.Evaluation.Interchange
import Formulae.Proofs.Evaluation.Rounds
import Formulae.Proofs.Folding
import Formulae.Proofs.Number.Display
import Formulae.Proofs.Rendering
import Formulae.Proofs.Evaluation.Tracking
import Formulae.Proofs.Evaluation.Trail
import Formulae.Proofs.Equation.Agreement
import Formulae.Proofs.Equation.Resolutions
import Formulae.Proofs.Evaluation.Independence
import Formulae.Proofs.Evaluation.Substitution
import Formulae.Proofs.Interruption.Transparency
import Formulae.Proofs.Reading.Faults
import Formulae.Proofs.Finiteness
import Formulae.Proofs.ReducedRendering
import Formulae.Proofs.Console.Cutting
import Formulae.Proofs.Relaxation
import Formulae.Proofs.Reading.Depth
import Formulae.Proofs.Reading.Acceptance
import Formulae.Proofs.Console.Lexemes
import Formulae.Proofs.Console.Marks
import Formulae.Proofs.Console.Colouring
import Formulae.Proofs.Console.Validation
import Formulae.Proofs.Bracketing
import Formulae.Proofs.NormalForm
import Formulae.Proofs.Evaluation.Inlining
import Formulae.Proofs.Number.Whole
import Formulae.Proofs.Evaluation.Summation
import Formulae.Proofs.Evaluation.Frame
import Formulae.Proofs.Truth
import Formulae.Proofs.Interruption.Cancellation
import Formulae.Proofs.Occurrences
import Formulae.Proofs.Evaluation.Reach
import Formulae.Proofs.Console.Inertness
import Formulae.Proofs.Placement
import Formulae.Proofs.Reading.Termination
import Formulae.Proofs.Console.Partition
import Formulae.Proofs.Reading.Flags
import Formulae.Proofs.Reading.Navigation
