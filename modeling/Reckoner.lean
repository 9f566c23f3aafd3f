import Reckoner.Main
import Reckoner.Tape.Intake
import Reckoner.Tape.Record
import Reckoner.Proofs.Grammar.Derivation
import Reckoner.Proofs.Grammar.Reading
import Reckoner.Proofs.Machine.Chaining
import Reckoner.Proofs.Machine.Retyping
import Reckoner.Proofs.Expression.LeadingZeros
import Reckoner.Proofs.Evaluation.Guard
import Reckoner.Proofs.Number.Rank
import Reckoner.Proofs.Number.Rounding
import Reckoner.Proofs.Evaluation.TypedNumber
import Reckoner.Proofs.Keystroke.Keyboard
import Reckoner.Proofs.Machine.FailedEquals
import Reckoner.Proofs.Expression.Runs
import Reckoner.Proofs.Machine.Discipline
import Reckoner.Proofs.Tape.Keeping
import Reckoner.Proofs.Terminal.Session
import Reckoner.Proofs.Grammar.Divisors
import Reckoner.Proofs.Grammar.Nesting
import Reckoner.Proofs.Machine.AfterAnswer
import Reckoner.Proofs.Tape.Arrivals
import Reckoner.Proofs.Terminal.Recall
import Reckoner.Proofs.Expression.Admission
import Reckoner.Proofs.Machine.Absorption
import Reckoner.Proofs.Machine.Replay
import Reckoner.Proofs.Answer.Form
import Reckoner.Proofs.Answer.Order
import Reckoner.Proofs.Keystroke.Line
import Reckoner.Proofs.Readout.Grouping
import Reckoner.Proofs.Typing.Terms
import Reckoner.Proofs.Expression.Printing
import Reckoner.Evaluation.Walk
import Reckoner.Proofs.Walk.Discipline
import Reckoner.Proofs.Tape.Record
