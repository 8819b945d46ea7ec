import Horn.Main
import Horn.Proofs.Completeness
import Horn.Proofs.Lockstep
import Horn.Proofs.StoredLog
import Horn.Proofs.Termination
import Horn.Proofs.StreamProtocol
import Horn.Proofs.SideBySide
import Horn.Proofs.DepthLimit
import Horn.Proofs.Equality
import Horn.Proofs.Recognition
import Horn.Proofs.ActiveQuery
import Horn.Proofs.SameTerm
import Horn.Proofs.RuleAnswers
import Horn.Proofs.StatementLists
import Horn.Proofs.AssertedFacts
import Horn.Proofs.Expansion
import Horn.Proofs.UnificationCalls
import Horn.Proofs.StandardReading
import Horn.Proofs.Display
import Horn.Proofs.EntryPoints
import Horn.Proofs.Placeholders
import Horn.Proofs.TokenPlaces
import Horn.Proofs.Lookahead
import Horn.Proofs.FaultyFiles
import Horn.Proofs.FirstFault
import Horn.Proofs.Rejection
import Horn.Proofs.NodeShapes
import Horn.Proofs.Symmetry
import Horn.Proofs.Nesting
import Horn.Proofs.Canonical
import Horn.Proofs.Chains
import Horn.Proofs.TokenCalls
