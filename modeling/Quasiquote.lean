import Quasiquote.Interpreter
import Quasiquote.Proofs.Evaluation.Alternation
import Quasiquote.Proofs.Evaluation.Attempt
import Quasiquote.Proofs.Evaluation.Congruence
import Quasiquote.Proofs.Evaluation.Defaulting
import Quasiquote.Proofs.Evaluation.Definition
import Quasiquote.Proofs.Evaluation.Form
import Quasiquote.Proofs.Evaluation.Frames
import Quasiquote.Proofs.Evaluation.Global
import Quasiquote.Proofs.Evaluation.Locality
import Quasiquote.Proofs.Evaluation.Naming
import Quasiquote.Proofs.Evaluation.Operand
import Quasiquote.Proofs.Evaluation.Rounds
import Quasiquote.Proofs.Evaluation.Scope
import Quasiquote.Proofs.Evaluation.Subform
import Quasiquote.Proofs.Evaluation.Tail
import Quasiquote.Proofs.Evaluation.Template
import Quasiquote.Proofs.Evaluation.TemplateCongruence
import Quasiquote.Proofs.Evaluation.Unbounded
import Quasiquote.Proofs.Expansion.All
import Quasiquote.Proofs.Expansion.Course
import Quasiquote.Proofs.Expansion.Defaulting
import Quasiquote.Proofs.Expansion.Failure
import Quasiquote.Proofs.Expansion.Fixpoint
import Quasiquote.Proofs.Expansion.Hierarchy
import Quasiquote.Proofs.Expansion.Once
import Quasiquote.Proofs.Expansion.Outline
import Quasiquote.Proofs.Expansion.Position
import Quasiquote.Proofs.Expansion.Renaming
import Quasiquote.Proofs.Expansion.Spelling
import Quasiquote.Proofs.Expansion.Splice
import Quasiquote.Proofs.Expansion.Unchanged
import Quasiquote.Proofs.Freshness.Build
import Quasiquote.Proofs.Freshness.Collision
import Quasiquote.Proofs.Freshness.Ledger
import Quasiquote.Proofs.Freshness.Name
import Quasiquote.Proofs.Freshness.Renumbering
import Quasiquote.Proofs.Freshness.Session
import Quasiquote.Proofs.Macro.History
import Quasiquote.Proofs.Macro.Parameters
import Quasiquote.Proofs.Macro.Registry
import Quasiquote.Proofs.Macro.Resolution
import Quasiquote.Proofs.Macro.Vector
import Quasiquote.Proofs.Number.Bits
import Quasiquote.Proofs.Number.Exact
import Quasiquote.Proofs.Number.Rounding
import Quasiquote.Proofs.Number.Shortest
import Quasiquote.Proofs.Outcome
import Quasiquote.Proofs.Reader.Accepted
import Quasiquote.Proofs.Reader.Beginning
import Quasiquote.Proofs.Reader.Concatenation
import Quasiquote.Proofs.Reader.Cursor
import Quasiquote.Proofs.Reader.Grammar
import Quasiquote.Proofs.Reader.Legible
import Quasiquote.Proofs.Reader.Lexing
import Quasiquote.Proofs.Reader.Number
import Quasiquote.Proofs.Reader.Printing
import Quasiquote.Proofs.Reader.Reading
import Quasiquote.Proofs.Reader.Recognition
import Quasiquote.Proofs.Reader.RoundTrip
import Quasiquote.Proofs.Reader.Shape
import Quasiquote.Proofs.Reader.Survival
import Quasiquote.Proofs.Reader.Tiling
import Quasiquote.Proofs.Session.Consistent
import Quasiquote.Proofs.Session.Preservation
import Quasiquote.Proofs.Session.Reachable
import Quasiquote.Proofs.Simulation
import Quasiquote.Proofs.Template.Built
import Quasiquote.Proofs.Template.Effect
import Quasiquote.Proofs.Template.Failure
import Quasiquote.Proofs.Template.Order
import Quasiquote.Proofs.Template.Outline
import Quasiquote.Proofs.Template.Qualification
import Quasiquote.Proofs.Template.Refusal
import Quasiquote.Proofs.Template.Renaming
import Quasiquote.Proofs.Template.Resolve
import Quasiquote.Proofs.Template.Shape
import Quasiquote.Proofs.Template.Splice
import Quasiquote.Proofs.Template.Step
import Quasiquote.Proofs.Template.Visit
import Quasiquote.Proofs.Text.Digit
import Quasiquote.Proofs.Value.Piece
import Quasiquote.Proofs.Value.Printed
import Quasiquote.Proofs.Value.Renaming
import Quasiquote.Proofs.Value.Symbols
import Quasiquote.Proofs.Value.Width
