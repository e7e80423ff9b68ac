import RoutePattern.Main
import RoutePattern.Suite.Decode
import RoutePattern.Proofs.Automaton.Captures
import RoutePattern.Proofs.Automaton.FixedPoint
import RoutePattern.Proofs.Automaton.Meaning
import RoutePattern.Proofs.Automaton.Safety
import RoutePattern.Proofs.Graph.Enumeration
import RoutePattern.Proofs.Graph.Forward
import RoutePattern.Proofs.Graph.Outcome
import RoutePattern.Proofs.Graph.Priority
import RoutePattern.Proofs.Graph.Traversals
import RoutePattern.Proofs.Node.Offence
import RoutePattern.Proofs.Node.WellFormed
import RoutePattern.Proofs.Path.Symbols
import RoutePattern.Proofs.Router.Levels
import RoutePattern.Proofs.Router.Restrict
import RoutePattern.Proofs.Router.Transparent
import RoutePattern.Proofs.Table.Outcome
