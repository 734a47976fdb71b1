import ProcLang.Source.Reading
import ProcLang.Program.Listing
import ProcLang.Program.Parsing
import ProcLang.Program.Lowering
import ProcLang.Command.Run
import ProcLang.Main
import ProcLang.Proofs.Lexeme
import ProcLang.Proofs.Coverage
import ProcLang.Proofs.Lexicon
import ProcLang.Proofs.Verdict
import ProcLang.Proofs.Derivation
import ProcLang.Proofs.Resolution
import ProcLang.Proofs.Step
import ProcLang.Proofs.Nesting
import ProcLang.Proofs.Course
import ProcLang.Proofs.Stage
import ProcLang.Proofs.Residue
import ProcLang.Proofs.Move
import ProcLang.Proofs.Simulation
import ProcLang.Proofs.Visibility
import ProcLang.Proofs.Replay
import ProcLang.Proofs.Outcome
import ProcLang.Proofs.Acceptance
import ProcLang.Proofs.Precedence
import ProcLang.Proofs.Expectation
import ProcLang.Proofs.Inscription
import ProcLang.Proofs.Relocation
import ProcLang.Proofs.Signature
import ProcLang.Proofs.Member
import ProcLang.Proofs.Transcript
import ProcLang.Proofs.Recast
import ProcLang.Proofs.Layout
import ProcLang.Proofs.Concatenation
import ProcLang.Proofs.Renaming
import ProcLang.Proofs.History
import ProcLang.Proofs.Numbering
import ProcLang.Proofs.Unfolding
import ProcLang.Proofs.Line
import ProcLang.Proofs.Legibility
import ProcLang.Proofs.Balance
import ProcLang.Proofs.Equivariance
import ProcLang.Proofs.Resumption
import ProcLang.Proofs.Offset
import ProcLang.Proofs.Lookahead
import ProcLang.Proofs.Stray
import ProcLang.Proofs.Truncation
import ProcLang.Proofs.Storage
import ProcLang.Proofs.Collision
import ProcLang.Proofs.Draining
import ProcLang.Proofs.Literal
import ProcLang.Proofs.Pace
import ProcLang.Proofs.Chronicle
import ProcLang.Proofs.Message
import ProcLang.Proofs.Indentation
import ProcLang.Proofs.Inventory
