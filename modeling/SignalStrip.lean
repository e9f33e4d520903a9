import SignalStrip.Recording
import SignalStrip.Term.Session
import SignalStrip.Signal.Source
import SignalStrip.Proofs.Expression
import SignalStrip.Proofs.ExpressionValue
import SignalStrip.Proofs.Waiting
import SignalStrip.Proofs.Nesting
import SignalStrip.Proofs.WeakestOperator
import SignalStrip.Proofs.Formula
import SignalStrip.Proofs.Grammar
import SignalStrip.Proofs.PrefixOperators
import SignalStrip.Proofs.PrefixEvaluation
import SignalStrip.Proofs.Origins
import SignalStrip.Proofs.Substitution
import SignalStrip.Proofs.TermValue
import SignalStrip.Proofs.Listening
import SignalStrip.Proofs.RackHistory
import SignalStrip.Proofs.Supply
import SignalStrip.Proofs.Depth
import SignalStrip.Proofs.Placement
import SignalStrip.Proofs.Completion
import SignalStrip.Proofs.Assembly
import SignalStrip.Proofs.Arity
import SignalStrip.Proofs.SignalValue
import SignalStrip.Proofs.Pointwise
import SignalStrip.Proofs.TermOutcome
import SignalStrip.Proofs.TermRequests
import SignalStrip.Proofs.ZeroLedger
import SignalStrip.Proofs.ZeroHistory
import SignalStrip.Proofs.ZeroTags
import SignalStrip.Proofs.Effects
import SignalStrip.Proofs.Parts
import SignalStrip.Proofs.Retiering
import SignalStrip.Proofs.Stacks
import SignalStrip.Proofs.Rounding
import SignalStrip.Proofs.NoiseRange
