import Sift.Command.Basic
import Sift.Command.Line
import Sift.Compile.Event
import Sift.Compile.Filter
import Sift.Compile.Operand
import Sift.Compile.Order
import Sift.Compile.Run
import Sift.Filter.Basic
import Sift.Filter.Parser
import Sift.Json.Basic
import Sift.Main
import Sift.Number.Binary64
import Sift.Number.Decimal
import Sift.Order.Basic
import Sift.Parse.Cursor
import Sift.Parse.Error
import Sift.Parse.Parser
import Sift.Proofs.Command.Agreement
import Sift.Proofs.Compile.Alike
import Sift.Proofs.Compile.Building
import Sift.Proofs.Compile.Catalog
import Sift.Proofs.Compile.Compilable
import Sift.Proofs.Compile.Errors
import Sift.Proofs.Compile.Events
import Sift.Proofs.Compile.Extension
import Sift.Proofs.Compile.Lookup
import Sift.Proofs.Compile.Meaning
import Sift.Proofs.Compile.Relations
import Sift.Proofs.Compile.Sides
import Sift.Proofs.Compile.Simulation
import Sift.Proofs.Compile.Steps
import Sift.Proofs.Compile.Success
import Sift.Proofs.Compile.Visibility
import Sift.Proofs.Filter.Acceptance
import Sift.Proofs.Filter.Adjacency
import Sift.Proofs.Filter.Breakout
import Sift.Proofs.Filter.Composition
import Sift.Proofs.Filter.Depth
import Sift.Proofs.Filter.Derivation
import Sift.Proofs.Filter.Failure
import Sift.Proofs.Filter.FirstError
import Sift.Proofs.Filter.Lookahead
import Sift.Proofs.Filter.Recognition
import Sift.Proofs.Filter.Rendering
import Sift.Proofs.Filter.RoundTrip
import Sift.Proofs.Filter.Sentence
import Sift.Proofs.Filter.Session
import Sift.Proofs.Filter.Unambiguous
import Sift.Proofs.Filter.Writable
import Sift.Proofs.Number.Decimal
import Sift.Proofs.Order.Composition
import Sift.Proofs.Order.Failure
import Sift.Proofs.Order.Recognition
import Sift.Proofs.Order.RoundTrip
import Sift.Proofs.Parse.Failure
import Sift.Proofs.Parse.Phrase
import Sift.Proofs.Parse.Recognition
import Sift.Proofs.Parse.Respacing
import Sift.Proofs.Schema.Callbacks
import Sift.Proofs.Schema.Description
import Sift.Proofs.Schema.Registry
import Sift.Proofs.Text.Utf8
import Sift.Proofs.Token.Language
import Sift.Proofs.Token.Places
import Sift.Proofs.Token.Preference
import Sift.Proofs.Token.Quotes
import Sift.Proofs.Token.Reading
import Sift.Proofs.Token.Respacing
import Sift.Proofs.Token.Rules
import Sift.Proofs.Token.Session
import Sift.Proofs.Token.Spelling
import Sift.Proofs.Value.Comparison
import Sift.Proofs.Value.Order
import Sift.Schema.Backend
import Sift.Schema.Basic
import Sift.Schema.Describe
import Sift.Schema.Flags
import Sift.Schema.Operation
import Sift.Text.Hidden
import Sift.Text.Ordered
import Sift.Text.Position
import Sift.Text.Quoted
import Sift.Text.Search
import Sift.Text.Slice
import Sift.Token.Basic
import Sift.Token.Grammar
import Sift.Token.Lexer
import Sift.Token.Pattern
import Sift.Value.Basic
import Sift.Value.Comparison
