import Wireform.Codec.Basic
import Wireform.Codec.Decode
import Wireform.Codec.Depth
import Wireform.Codec.Encode
import Wireform.Codec.Equal
import Wireform.Codec.Error
import Wireform.Codec.Identity
import Wireform.Codec.Options
import Wireform.Codec.Record
import Wireform.Codec.Scalar
import Wireform.Command.Arguments
import Wireform.Command.Failure
import Wireform.Command.FileTree
import Wireform.Command.Glob
import Wireform.Command.Help
import Wireform.Command.Host
import Wireform.Command.Order
import Wireform.Command.Path
import Wireform.Command.Run
import Wireform.Compiled.Basic
import Wireform.Compiled.Samples
import Wireform.Decl
import Wireform.Double.Basic
import Wireform.Double.Printer
import Wireform.Double.Rounding
import Wireform.Double.Shortest
import Wireform.Emit.Item
import Wireform.Emit.Name
import Wireform.Emit.Plan
import Wireform.Emit.Printer
import Wireform.Emit.Reach
import Wireform.Fields
import Wireform.Json.Basic
import Wireform.Json.Parser
import Wireform.Json.Printer
import Wireform.Json.Skim
import Wireform.Main
import Wireform.Module.Basic
import Wireform.Module.Draft
import Wireform.Module.Expose
import Wireform.OrderedMap
import Wireform.Proofs.Codec.Canonical
import Wireform.Proofs.Codec.Decimal
import Wireform.Proofs.Codec.DepthLimit
import Wireform.Proofs.Codec.Documentation
import Wireform.Proofs.Codec.Equal
import Wireform.Proofs.Codec.Identity
import Wireform.Proofs.Codec.Inhabits
import Wireform.Proofs.Codec.KeyEquality
import Wireform.Proofs.Codec.KeySet
import Wireform.Proofs.Codec.Likeness
import Wireform.Proofs.Codec.NormalForm
import Wireform.Proofs.Codec.PropertyOrder
import Wireform.Proofs.Codec.Reads
import Wireform.Proofs.Codec.Renumbering
import Wireform.Proofs.Codec.Resolution
import Wireform.Proofs.Codec.RoundTrip
import Wireform.Proofs.Codec.Rounds
import Wireform.Proofs.Codec.Scalar
import Wireform.Proofs.Codec.Tags
import Wireform.Proofs.Codec.Untyped
import Wireform.Proofs.Codec.Wire
import Wireform.Proofs.Codec.Writes
import Wireform.Proofs.Command.ImportOrder
import Wireform.Proofs.Command.Loading
import Wireform.Proofs.Compiled.Agreement
import Wireform.Proofs.Compiled.Containers
import Wireform.Proofs.Compiled.Samples
import Wireform.Proofs.Double.Shortest
import Wireform.Proofs.Double.Text
import Wireform.Proofs.Emit.Finite
import Wireform.Proofs.Emit.Identifier
import Wireform.Proofs.Emit.Naming
import Wireform.Proofs.Fields
import Wireform.Proofs.Json.Basic
import Wireform.Proofs.Json.Text
import Wireform.Proofs.Module.Built
import Wireform.Proofs.Module.Closed
import Wireform.Proofs.Module.Expose
import Wireform.Proofs.Module.Fieldset
import Wireform.Proofs.Module.Ruled
import Wireform.Proofs.Module.Sound
import Wireform.Proofs.OrderedMap
import Wireform.Proofs.Schema.Conformance
import Wireform.Proofs.Schema.Definitions
import Wireform.Proofs.Schema.Exported
import Wireform.Proofs.Schema.Optional
import Wireform.Proofs.Schema.Pattern
import Wireform.Proofs.Schema.SelfContained
import Wireform.Proofs.Schema.Tables
import Wireform.Proofs.Schema.Validation
import Wireform.Proofs.Sequence
import Wireform.Proofs.Source.Acceptance
import Wireform.Proofs.Source.Assembly
import Wireform.Proofs.Source.Coverage
import Wireform.Proofs.Source.Declaring
import Wireform.Proofs.Source.Derivation
import Wireform.Proofs.Source.Errors
import Wireform.Proofs.Source.Lines
import Wireform.Proofs.Source.Machine
import Wireform.Proofs.Source.Names
import Wireform.Proofs.Source.Order
import Wireform.Proofs.Source.Places
import Wireform.Proofs.Source.Printed
import Wireform.Proofs.Source.Recognition
import Wireform.Proofs.Source.Resolve
import Wireform.Proofs.Source.Scope
import Wireform.Proofs.Source.Session
import Wireform.Proofs.Source.Surface
import Wireform.Proofs.Source.Tiling
import Wireform.Proofs.Table.Append
import Wireform.Proofs.Table.History
import Wireform.Proofs.Table.Isomorphism
import Wireform.Proofs.Table.Leftover
import Wireform.Proofs.Table.Load
import Wireform.Proofs.Table.Readable
import Wireform.Proofs.Table.Room
import Wireform.Proofs.Table.Shortfall
import Wireform.Proofs.Table.Store
import Wireform.Proofs.Table.Written
import Wireform.Proofs.Text.Base64
import Wireform.Proofs.Text.Integer
import Wireform.Proofs.Text.Quoted
import Wireform.Proofs.Ty
import Wireform.Proofs.Value
import Wireform.Proofs.Value.Equality
import Wireform.Schema
import Wireform.Source.Compile
import Wireform.Source.Error
import Wireform.Source.Lexer
import Wireform.Source.Parser
import Wireform.Source.Resolve
import Wireform.Source.Token
import Wireform.Source.Tree
import Wireform.Table.Document
import Wireform.Table.Store
import Wireform.Text.Base64
import Wireform.Text.Integer
import Wireform.Text.Invisible
import Wireform.Text.Lines
import Wireform.Text.Quoted
import Wireform.Ty
import Wireform.Value.Basic
import Wireform.Value.Symbols
