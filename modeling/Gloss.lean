import Gloss.Dialect.Fields
import Gloss.FileTree
import Gloss.Main
import Gloss.Proofs.Trivia
import Gloss.Proofs.Step
import Gloss.Proofs.Tiling
import Gloss.Proofs.Balance
import Gloss.Proofs.Boundary
import Gloss.Proofs.Deletion
import Gloss.Proofs.Inertness
import Gloss.Proofs.Harmless
import Gloss.Proofs.Settling
import Gloss.Proofs.Isolation
import Gloss.Proofs.HostView
import Gloss.Proofs.Invisibility
import Gloss.Proofs.Grouping
import Gloss.Proofs.Lines
import Gloss.Proofs.Strictness
import Gloss.Proofs.Scopes
import Gloss.Proofs.ClassBody
import Gloss.Proofs.Octets
import Gloss.Proofs.Safety
import Gloss.Proofs.Nesting
import Gloss.Proofs.Strides
import Gloss.Proofs.Agreement
import Gloss.Proofs.NoteEnd
import Gloss.Proofs.Blanking
import Gloss.Proofs.Retention
import Gloss.Proofs.BareWords
import Gloss.Proofs.Transparency
import Gloss.Proofs.NoteLines
import Gloss.Proofs.Detachment
import Gloss.Proofs.FirstFlaw
import Gloss.Proofs.Declarators
import Gloss.Proofs.LineReading
import Gloss.Proofs.LineSites
import Gloss.Proofs.LineTargets
import Gloss.Proofs.ParameterLists
import Gloss.Proofs.ListClauses
import Gloss.Proofs.LiteralGrammar
import Gloss.Proofs.RegexGrammar
import Gloss.Proofs.Seams
import Gloss.Proofs.MemberAccess
import Gloss.Proofs.LineSearch
import Gloss.Proofs.Collisions
import Gloss.Proofs.WholeReports
import Gloss.Proofs.Duplicates
import Gloss.Proofs.Positions
