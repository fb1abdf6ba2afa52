import AccessPolicy.Ascending
import AccessPolicy.Authorization.Authorizer
import AccessPolicy.Authorization.Options
import AccessPolicy.Authorization.Response
import AccessPolicy.Authorization.Tally
import AccessPolicy.Decimal.Shortest
import AccessPolicy.Engine.Registry
import AccessPolicy.Engine.Snapshot
import AccessPolicy.Engine.Version
import AccessPolicy.Entity.Basic
import AccessPolicy.Entity.Store
import AccessPolicy.Error
import AccessPolicy.Error.Json
import AccessPolicy.Expr.Basic
import AccessPolicy.Expr.Eval
import AccessPolicy.Grammar.Expr
import AccessPolicy.Grammar.Parser
import AccessPolicy.Grammar.Policy
import AccessPolicy.Grammar.Token
import AccessPolicy.Journal
import AccessPolicy.Json.Basic
import AccessPolicy.Json.Reader
import AccessPolicy.Json.Shape
import AccessPolicy.Json.Skim
import AccessPolicy.Json.Writer
import AccessPolicy.Layout.Doc
import AccessPolicy.Long
import AccessPolicy.Pattern
import AccessPolicy.Policy.Applies
import AccessPolicy.Policy.Basic
import AccessPolicy.Policy.Print
import AccessPolicy.Policy.Set
import AccessPolicy.Proofs.Ascending
import AccessPolicy.Proofs.Authorization.Batch
import AccessPolicy.Proofs.Authorization.DenyOverrides
import AccessPolicy.Proofs.Authorization.Made
import AccessPolicy.Proofs.Authorization.ScopeClauses
import AccessPolicy.Proofs.Engine.Batch
import AccessPolicy.Proofs.Engine.Cells
import AccessPolicy.Proofs.Engine.Coherence
import AccessPolicy.Proofs.Engine.Handles
import AccessPolicy.Proofs.Engine.Isolation
import AccessPolicy.Proofs.Engine.Kept
import AccessPolicy.Proofs.Engine.Listing
import AccessPolicy.Proofs.Engine.Run
import AccessPolicy.Proofs.Engine.Snapshot
import AccessPolicy.Proofs.Entity.Hierarchy
import AccessPolicy.Proofs.Entity.Json
import AccessPolicy.Proofs.Entity.Reordered
import AccessPolicy.Proofs.Except
import AccessPolicy.Proofs.Expr.Limit
import AccessPolicy.Proofs.Expr.Parts
import AccessPolicy.Proofs.Expr.Reading
import AccessPolicy.Proofs.Expr.Slots
import AccessPolicy.Proofs.Expr.Step
import AccessPolicy.Proofs.Grammar.Scan
import AccessPolicy.Proofs.Grammar.Spelling
import AccessPolicy.Proofs.Json.Merge
import AccessPolicy.Proofs.Json.RoundTrip
import AccessPolicy.Proofs.Layout.Adds
import AccessPolicy.Proofs.Layout.Flat
import AccessPolicy.Proofs.Layout.Measure
import AccessPolicy.Proofs.Layout.Turns
import AccessPolicy.Proofs.Layout.Width
import AccessPolicy.Proofs.Parse.Ensures
import AccessPolicy.Proofs.Parse.Expr
import AccessPolicy.Proofs.Parse.Format
import AccessPolicy.Proofs.Parse.Gives
import AccessPolicy.Proofs.Parse.Indices
import AccessPolicy.Proofs.Parse.Legible
import AccessPolicy.Proofs.Parse.Levels
import AccessPolicy.Proofs.Parse.Located
import AccessPolicy.Proofs.Parse.Operators
import AccessPolicy.Proofs.Parse.Policy
import AccessPolicy.Proofs.Parse.WellFormed
import AccessPolicy.Proofs.Parse.Yields
import AccessPolicy.Proofs.Pattern
import AccessPolicy.Proofs.Policy.Applies
import AccessPolicy.Proofs.Policy.Consistent
import AccessPolicy.Proofs.Policy.Limit
import AccessPolicy.Proofs.Policy.Reading
import AccessPolicy.Proofs.Policy.Set
import AccessPolicy.Proofs.Policy.Slots
import AccessPolicy.Proofs.Policy.Steps
import AccessPolicy.Proofs.Policy.WellFormed
import AccessPolicy.Proofs.Print.Clauses
import AccessPolicy.Proofs.Print.Expr
import AccessPolicy.Proofs.Print.Legible
import AccessPolicy.Proofs.Print.OneLine
import AccessPolicy.Proofs.Print.Places
import AccessPolicy.Proofs.Print.Policy
import AccessPolicy.Proofs.Reach
import AccessPolicy.Proofs.Request.Context
import AccessPolicy.Proofs.Schema.Admits
import AccessPolicy.Proofs.Schema.Built
import AccessPolicy.Proofs.Schema.Closed
import AccessPolicy.Proofs.Schema.Conforms
import AccessPolicy.Proofs.Schema.Impossible
import AccessPolicy.Proofs.Schema.Inhabits
import AccessPolicy.Proofs.Schema.Json
import AccessPolicy.Proofs.Schema.Mismatch
import AccessPolicy.Proofs.Schema.Names
import AccessPolicy.Proofs.Schema.Parsed
import AccessPolicy.Proofs.Schema.Print
import AccessPolicy.Proofs.Schema.Read
import AccessPolicy.Proofs.Schema.Sections
import AccessPolicy.Proofs.Schema.Text
import AccessPolicy.Proofs.Schema.TypeSoundness
import AccessPolicy.Proofs.Text.Bytes
import AccessPolicy.Proofs.Text.Lines
import AccessPolicy.Proofs.Text.Name
import AccessPolicy.Proofs.Text.Position
import AccessPolicy.Proofs.Text.Quoted
import AccessPolicy.Proofs.Text.Slice
import AccessPolicy.Proofs.Tree.Decoded
import AccessPolicy.Proofs.Tree.Literal
import AccessPolicy.Proofs.Tree.Merged
import AccessPolicy.Proofs.Tree.Printed
import AccessPolicy.Proofs.Tree.Reachable
import AccessPolicy.Proofs.Tree.RoundTrip
import AccessPolicy.Proofs.Tree.Text
import AccessPolicy.Proofs.Uid.Json
import AccessPolicy.Proofs.Uid.Literal
import AccessPolicy.Proofs.Value.Json
import AccessPolicy.Proofs.Value.Literal
import AccessPolicy.Proofs.Value.Order
import AccessPolicy.Proofs.Value.Text
import AccessPolicy.Reach
import AccessPolicy.Request.Basic
import AccessPolicy.Schema.Basic
import AccessPolicy.Schema.Conformance
import AccessPolicy.Schema.Json
import AccessPolicy.Schema.PolicyCheck
import AccessPolicy.Schema.StaticType
import AccessPolicy.Schema.Text
import AccessPolicy.Schema.Type
import AccessPolicy.Schema.Typing
import AccessPolicy.Text.Name
import AccessPolicy.Text.Quoted
import AccessPolicy.Tree.Decode
import AccessPolicy.Tree.Encode
import AccessPolicy.Uid
import AccessPolicy.Value.Basic
import AccessPolicy.Value.Decode

