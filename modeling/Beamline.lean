import Beamline.Cache
import Beamline.CommandLine.Arguments
import Beamline.CommandLine.Extension
import Beamline.CommandLine.Failure
import Beamline.CommandLine.Invocation
import Beamline.CommandLine.Outcome
import Beamline.CommandLine.Output
import Beamline.Decimal.Basic
import Beamline.Decimal.Shortest
import Beamline.Decimal.Style
import Beamline.Deck.Clause
import Beamline.Deck.Flaw
import Beamline.Deck.Grammar
import Beamline.Deck.Reader
import Beamline.Deck.Reversal
import Beamline.Deck.Session
import Beamline.Deck.Syntax
import Beamline.Deck.Value
import Beamline.Deck.Word
import Beamline.Deck.Writer
import Beamline.Dialect
import Beamline.Document.Basic
import Beamline.Document.Builder
import Beamline.Document.Decode
import Beamline.Document.Description
import Beamline.Document.Encode
import Beamline.Document.Expansion
import Beamline.Document.Gap
import Beamline.Document.Order
import Beamline.Document.Tree
import Beamline.Document.Walk
import Beamline.Element.Basic
import Beamline.Element.Kind
import Beamline.Error
import Beamline.Fingerprint
import Beamline.Json.Basic
import Beamline.Json.Fault
import Beamline.Json.Pointer
import Beamline.Json.Reader
import Beamline.Json.Scalar
import Beamline.Json.Writer
import Beamline.Lattice.Basic
import Beamline.Main
import Beamline.Migration
import Beamline.Migration.Flaw
import Beamline.Note
import Beamline.Policy
import Beamline.Proofs.Bind
import Beamline.Proofs.Cache
import Beamline.Proofs.CommandLine.Effect
import Beamline.Proofs.Decimal.Binary64
import Beamline.Proofs.Decimal.Numeral
import Beamline.Proofs.Decimal.Rounding
import Beamline.Proofs.Decimal.Shortest
import Beamline.Proofs.Deck.Answers
import Beamline.Proofs.Deck.Arrangement
import Beamline.Proofs.Deck.Attributes
import Beamline.Proofs.Deck.Brackets
import Beamline.Proofs.Deck.Clause
import Beamline.Proofs.Deck.Comments
import Beamline.Proofs.Deck.DefinitionOrder
import Beamline.Proofs.Deck.ElegantRoundTrip
import Beamline.Proofs.Deck.Ending
import Beamline.Proofs.Deck.Expansion
import Beamline.Proofs.Deck.Expressions
import Beamline.Proofs.Deck.Forms
import Beamline.Proofs.Deck.Grammar
import Beamline.Proofs.Deck.InStep
import Beamline.Proofs.Deck.Inheritance
import Beamline.Proofs.Deck.Layout
import Beamline.Proofs.Deck.Likeness
import Beamline.Proofs.Deck.LineOrder
import Beamline.Proofs.Deck.Lines
import Beamline.Proofs.Deck.Meaning
import Beamline.Proofs.Deck.Multipole
import Beamline.Proofs.Deck.Nesting
import Beamline.Proofs.Deck.Outcome
import Beamline.Proofs.Deck.Places
import Beamline.Proofs.Deck.Polish
import Beamline.Proofs.Deck.Quiet
import Beamline.Proofs.Deck.Reader
import Beamline.Proofs.Deck.RecasedReader
import Beamline.Proofs.Deck.RecasedStatements
import Beamline.Proofs.Deck.RecasedWords
import Beamline.Proofs.Deck.Recasing
import Beamline.Proofs.Deck.Reversal
import Beamline.Proofs.Deck.ReversedForms
import Beamline.Proofs.Deck.RoundTrip
import Beamline.Proofs.Deck.Session
import Beamline.Proofs.Deck.Shape
import Beamline.Proofs.Deck.Spans
import Beamline.Proofs.Deck.Splitting
import Beamline.Proofs.Deck.Statements
import Beamline.Proofs.Deck.Title
import Beamline.Proofs.Deck.Towers
import Beamline.Proofs.Deck.Value
import Beamline.Proofs.Deck.Word
import Beamline.Proofs.Deck.Writer
import Beamline.Proofs.Document.Builder
import Beamline.Proofs.Document.Collecting
import Beamline.Proofs.Document.Depth
import Beamline.Proofs.Document.Elements
import Beamline.Proofs.Document.Expansion
import Beamline.Proofs.Document.Items
import Beamline.Proofs.Document.Lawful
import Beamline.Proofs.Document.Lines
import Beamline.Proofs.Document.Order
import Beamline.Proofs.Document.Rejection
import Beamline.Proofs.Document.Retention
import Beamline.Proofs.Document.RoundTrip
import Beamline.Proofs.Document.Tree
import Beamline.Proofs.Json.Depth
import Beamline.Proofs.Json.Pointer
import Beamline.Proofs.Json.Reader
import Beamline.Proofs.Json.Rows
import Beamline.Proofs.Json.Scalar
import Beamline.Proofs.Json.Spelling
import Beamline.Proofs.Json.Writer
import Beamline.Proofs.Migration.Composition
import Beamline.Proofs.Migration.Former
import Beamline.Proofs.Migration.Machine
import Beamline.Proofs.Migration.Merging
import Beamline.Proofs.Migration.Steps
import Beamline.Proofs.Reach
import Beamline.Proofs.Settings
import Beamline.Proofs.Table
import Beamline.Proofs.Text.Alike
import Beamline.Proofs.Text.Gap
import Beamline.Proofs.Text.LetterCase
import Beamline.Proofs.Text.Scanner
import Beamline.Proofs.Validation.Arrivals
import Beamline.Proofs.Validation.Correct
import Beamline.Proofs.Validation.Cycles
import Beamline.Proofs.Validation.Elements
import Beamline.Proofs.Validation.Finding
import Beamline.Proofs.Validation.Independence
import Beamline.Proofs.Validation.Lattices
import Beamline.Proofs.Validation.Pointers
import Beamline.Proofs.Validation.Policies
import Beamline.Proofs.Validation.References
import Beamline.Proofs.Validation.Rules
import Beamline.Proofs.Validation.WellFormed
import Beamline.Proofs.Version
import Beamline.Proofs.Workspace
import Beamline.Settings
import Beamline.Table
import Beamline.Text.Blank
import Beamline.Text.Hex
import Beamline.Text.Place
import Beamline.Text.Scanner
import Beamline.Toml.Atom
import Beamline.Toml.Reader
import Beamline.Toml.Scanner
import Beamline.Toml.Tree
import Beamline.Toml.Word
import Beamline.Validation
import Beamline.Validation.Cycles
import Beamline.Validation.Elements
import Beamline.Validation.Finding
import Beamline.Validation.Lattices
import Beamline.Validation.Shape
import Beamline.Version
import Beamline.Violation
import Beamline.Workspace
