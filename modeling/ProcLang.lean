import ProcLang.Command.FileTree
import ProcLang.IR.Edit
import ProcLang.IR.Run
import ProcLang.Main
import ProcLang.Proofs.Acceptance
import ProcLang.Proofs.ControlFlow
import ProcLang.Proofs.Correctness
import ProcLang.Proofs.Editing
import ProcLang.Proofs.Independence
import ProcLang.Proofs.Lexing.Spans
import ProcLang.Proofs.Linking
import ProcLang.Proofs.Parsing.Alternation
import ProcLang.Proofs.RoundTrip
import ProcLang.Proofs.SingleAssignment
import ProcLang.Proofs.TypeSoundness
import ProcLang.Proofs.Lexing.Spacing
import ProcLang.Proofs.Parsing.Provenance
import ProcLang.Proofs.Positions
import ProcLang.Proofs.IR.History
import ProcLang.Proofs.Lowering.Partial
import ProcLang.Proofs.Outcome
import ProcLang.Proofs.Text.Numerals
import ProcLang.Proofs.IR.Legible
import ProcLang.Proofs.IR.Rendering
import ProcLang.Proofs.Lowering.Legible
import ProcLang.Proofs.Faithfulness
import ProcLang.Proofs.Parsing.Conservation
import ProcLang.Proofs.Parsing.Brackets
import ProcLang.Proofs.Parsing.Boundaries
import ProcLang.Proofs.Parsing.Agreement
import ProcLang.Proofs.InBounds
import ProcLang.Proofs.InPlace
import ProcLang.Proofs.Folding
import ProcLang.Proofs.Discipline
import ProcLang.Proofs.Lexing.Lines
import ProcLang.Proofs.Lexing.Failure
import ProcLang.Proofs.LocalNames
import ProcLang.Proofs.IR.Termination
import ProcLang.Proofs.Termination
import ProcLang.Proofs.Parsing.Breaks
import ProcLang.Proofs.Renaming
import ProcLang.Proofs.PrefixForm
