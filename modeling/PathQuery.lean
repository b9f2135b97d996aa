import PathQuery.Automaton.Dot
import PathQuery.Config.Basic
import PathQuery.Pattern.Parser
import PathQuery.Schedule.Run
import PathQuery.Proofs.Graph.Walk
import PathQuery.Proofs.Graph.WellFormed
import PathQuery.Proofs.Reachable
import PathQuery.Proofs.Automaton.Closure
import PathQuery.Proofs.Automaton.Language
import PathQuery.Proofs.Automaton.Accepting
import PathQuery.Proofs.Automaton.Trim
import PathQuery.Proofs.Automaton.Recognizes
import PathQuery.Proofs.Path.Acceptance
import PathQuery.Proofs.Path.Product
import PathQuery.Proofs.Path.Reachability
import PathQuery.Proofs.Path.Recognized
import PathQuery.Proofs.Evaluation.Cache
import PathQuery.Proofs.Evaluation.Compile
import PathQuery.Proofs.Evaluation.Descriptions
import PathQuery.Proofs.Evaluation.Requests
import PathQuery.Proofs.Evaluation.Reset
import PathQuery.Proofs.Evaluation.Rerun
import PathQuery.Proofs.Evaluation.Staleness
import PathQuery.Proofs.Pattern.Grammar
import PathQuery.Proofs.Pattern.Accepted
import PathQuery.Proofs.Pattern.RoundTrip
import PathQuery.Proofs.Pattern.Canonical
import PathQuery.Proofs.Schedule.DependencyGraph
import PathQuery.Proofs.Schedule.Drain
import PathQuery.Proofs.Schedule.History
import PathQuery.Proofs.Schedule.Outcome
import PathQuery.Proofs.Schedule.Bodies
import PathQuery.Proofs.Schedule.Refinement
import PathQuery.Proofs.Automaton.Built
import PathQuery.Proofs.Evaluation.Built
import PathQuery.Proofs.Path.System
import PathQuery.Proofs.Evaluation.Versions
import PathQuery.Proofs.Evaluation.Restored
import PathQuery.Proofs.Evaluation.Recovery
import PathQuery.Proofs.Evaluation.Cycles
import PathQuery.Proofs.Evaluation.Termination
import PathQuery.Proofs.Graph.Storage
import PathQuery.Proofs.Automaton.Regular
import PathQuery.Proofs.Automaton.Restriction
import PathQuery.Proofs.Path.Narrowing
import PathQuery.Proofs.Path.VisitLimit
import PathQuery.Proofs.Evaluation.Orientation
import PathQuery.Proofs.Evaluation.Once
import PathQuery.Proofs.Graph.Roles
import PathQuery.Proofs.Automaton.Made
import PathQuery.Proofs.Path.Parallel
import PathQuery.Proofs.Schedule.Requests
import PathQuery.Proofs.Schedule.Elimination
import PathQuery.Proofs.Evaluation.Selection
import PathQuery.Proofs.Evaluation.Negation
import PathQuery.Proofs.Automaton.Reversal
import PathQuery.Proofs.Value
import PathQuery.Proofs.Evaluation.Serials
