import GraphQL.Assoc
import GraphQL.Binary64
import GraphQL.Binary64.Shortest
import GraphQL.Coercion
import GraphQL.Coercion.Arguments
import GraphQL.Config
import GraphQL.Config.Reader
import GraphQL.Deferred
import GraphQL.Deferred.Run
import GraphQL.Deferred.Session
import GraphQL.Document
import GraphQL.Document.Equality
import GraphQL.Document.File
import GraphQL.Document.Parser
import GraphQL.Document.Parser.Executable
import GraphQL.Document.Parser.TypeSystem
import GraphQL.Document.Parser.Value
import GraphQL.Document.Printer
import GraphQL.Error
import GraphQL.Execution.Completion
import GraphQL.Execution.Host
import GraphQL.Execution.Preparation
import GraphQL.Execution.Progress
import GraphQL.Execution.Query
import GraphQL.Json
import GraphQL.Json.Reader
import GraphQL.Multiplex
import GraphQL.Multiplex.Queue
import GraphQL.Name
import GraphQL.Number
import GraphQL.Path
import GraphQL.Plan
import GraphQL.Plan.Build
import GraphQL.Plan.Collection
import GraphQL.Position
import GraphQL.Registry
import GraphQL.Registry.Check
import GraphQL.Request
import GraphQL.Resolver
import GraphQL.Resolver.Basic
import GraphQL.Resolver.Queue
import GraphQL.Response
import GraphQL.Response.Tree
import GraphQL.Scalar
import GraphQL.Source
import GraphQL.Text.Class
import GraphQL.Text.Shown
import GraphQL.Text.Unprintable
import GraphQL.Token
import GraphQL.Token.Scanner
import GraphQL.Token.StringLiteral
import GraphQL.Tree
import GraphQL.TypeRef
import GraphQL.Value
import GraphQL.Value.Printer
import GraphQL.Variables
import GraphQL.Proofs.Document.Adjacent
import GraphQL.Proofs.Execution.Machine
import GraphQL.Proofs.Execution.Refinement
import GraphQL.Proofs.Execution.Accounting
import GraphQL.Proofs.Execution.Data
import GraphQL.Proofs.Resolver.Steady
import GraphQL.Proofs.Binary64.Rounding
import GraphQL.Proofs.Plan.Union
import GraphQL.Proofs.Plan.Ends
import GraphQL.Proofs.Resolver.Separate
import GraphQL.Proofs.Resolver.Batches
import GraphQL.Proofs.Deferred.Batched
import GraphQL.Proofs.Document.Kept
import GraphQL.Proofs.Execution.Followed
import GraphQL.Proofs.Coercion.Settled
import GraphQL.Proofs.Deferred.Memoized
import GraphQL.Proofs.Queue.Apart
import GraphQL.Proofs.Queue.Phases
import GraphQL.Proofs.Execution.Responses
import GraphQL.Proofs.Execution.Bounded
import GraphQL.Proofs.Document.Unclosed
import GraphQL.Proofs.Document.Placed
import GraphQL.Proofs.Token.Longest
import GraphQL.Proofs.Token.BlockString
import GraphQL.Proofs.Value.Substitution
import GraphQL.Proofs.Deferred.Drained
import GraphQL.Proofs.Coercion.Returned
import GraphQL.Proofs.Deferred.Resolved
import GraphQL.Proofs.Document.Names
import GraphQL.Proofs.Document.TypeRef
import GraphQL.Proofs.Response.Changes
import GraphQL.Proofs.Registry.Possible
