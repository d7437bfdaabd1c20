import SchemaTypes.Main
import SchemaTypes.Proofs.Api.Closed
import SchemaTypes.Proofs.TypeExpr.RoundTrip
import SchemaTypes.Proofs.Schema.Supported
import SchemaTypes.Proofs.Schema.FirstFault
import SchemaTypes.Proofs.Schema.Session
import SchemaTypes.Proofs.Schema.Covers
import SchemaTypes.Proofs.Schema.History
import SchemaTypes.Proofs.Api.OperationId
import SchemaTypes.Proofs.Api.Scratch
import SchemaTypes.Proofs.Schema.Termination
import SchemaTypes.Proofs.Api.Emission
import SchemaTypes.Proofs.Api.EmissionWalk
import SchemaTypes.Proofs.Api.WriteOnce
import SchemaTypes.Proofs.Schema.WellFormed
import SchemaTypes.Proofs.Api.Declared
import SchemaTypes.Proofs.Api.WellFormed
import SchemaTypes.Proofs.Api.Filter
import SchemaTypes.Proofs.Api.Unused
import SchemaTypes.Proofs.Document.Respelling
import SchemaTypes.Proofs.Lockstep
import SchemaTypes.Proofs.Schema.Spelling
import SchemaTypes.Proofs.Schema.Respelled
import SchemaTypes.Proofs.Document.OneLine
import SchemaTypes.Proofs.Namespace.Ambient
import SchemaTypes.Proofs.Pointer.RoundTrip
import SchemaTypes.Proofs.TypeExpr.Layout
import SchemaTypes.Proofs.Namespace.Layout
import SchemaTypes.Proofs.Command.Arguments
import SchemaTypes.Proofs.Command.Files
import SchemaTypes.Proofs.Command.Run
import SchemaTypes.Proofs.Namespace.Grouping
import SchemaTypes.Proofs.Api.Turns
import SchemaTypes.Proofs.Api.Inputs
import SchemaTypes.Proofs.Api.InputNames
import SchemaTypes.Proofs.Api.Chain
import SchemaTypes.Proofs.TypeExpr.PropertyName
import SchemaTypes.Proofs.Name.Identifier
import SchemaTypes.Proofs.Namespace.Identifiers
import SchemaTypes.Proofs.Api.Headers
import SchemaTypes.Proofs.Api.Outputs
import SchemaTypes.Proofs.Schema.ObjectType
import SchemaTypes.Proofs.Schema.Trace
import SchemaTypes.Proofs.Text.Utf8
import SchemaTypes.Proofs.Api.Locality
import SchemaTypes.Proofs.Command.Load
import SchemaTypes.Proofs.Name.Normal
import SchemaTypes.Proofs.Name.Words
import SchemaTypes.Proofs.TypeExpr.Indentation
import SchemaTypes.Proofs.Api.Frame
