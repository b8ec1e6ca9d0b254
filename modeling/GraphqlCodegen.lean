import GraphqlCodegen.Main
import GraphqlCodegen.Proofs.Sdl.Lexing
import GraphqlCodegen.Proofs.Sdl.Strings
import GraphqlCodegen.Proofs.Sdl.Constant
import GraphqlCodegen.Proofs.Introspection.Meaning
import GraphqlCodegen.Proofs.Introspection.Printing
import GraphqlCodegen.Proofs.Introspection.Reading
import GraphqlCodegen.Proofs.Introspection.RoundTrip
import GraphqlCodegen.Proofs.Disk.Paths
import GraphqlCodegen.Proofs.Disk.Walking
import GraphqlCodegen.Proofs.Writing.Interleaving
import GraphqlCodegen.Proofs.Generator.Destinations
import GraphqlCodegen.Proofs.CommandLine.Execution
import GraphqlCodegen.Proofs.Disk.Parents
import GraphqlCodegen.Proofs.Disk.Trees
import GraphqlCodegen.Proofs.Disk.Directories
import GraphqlCodegen.Proofs.Writing.Isolation
import GraphqlCodegen.Proofs.Generator.Isolation
import GraphqlCodegen.Proofs.Writing.Logs
import GraphqlCodegen.Proofs.Run.Reporting
import GraphqlCodegen.Proofs.Entries
import GraphqlCodegen.Proofs.Json.Values
import GraphqlCodegen.Proofs.Schema.Names
import GraphqlCodegen.Proofs.JsonSchema.Document
import GraphqlCodegen.Proofs.JsonSchema.References
import GraphqlCodegen.Proofs.Script.Parts
import GraphqlCodegen.Proofs.Bindings.Lookups
import GraphqlCodegen.Proofs.Bindings.Properties
import GraphqlCodegen.Proofs.Generator.RequiredInputs
import GraphqlCodegen.Proofs.Text.Lines
import GraphqlCodegen.Proofs.Sdl.Dedent
import GraphqlCodegen.Proofs.Introspection.Descriptions
import GraphqlCodegen.Proofs.Schema.Merging
import GraphqlCodegen.Proofs.Bindings.Entries
import GraphqlCodegen.Proofs.Bindings.Agreement
import GraphqlCodegen.Proofs.Bindings.Navigation
import GraphqlCodegen.Proofs.Bindings.Interfaces
import GraphqlCodegen.Proofs.Run.Fatality
import GraphqlCodegen.Proofs.Toml.Locality
import GraphqlCodegen.Proofs.Toml.Atoms
import GraphqlCodegen.Proofs.Toml.Statements
import GraphqlCodegen.Proofs.Toml.Quoting
import GraphqlCodegen.Proofs.Toml.Consistency
import GraphqlCodegen.Proofs.Toml.Order
import GraphqlCodegen.Proofs.Toml.Documents
import GraphqlCodegen.Proofs.Toml.Rereading
import GraphqlCodegen.Proofs.Disk.Shapes
import GraphqlCodegen.Proofs.Settings.Files
import GraphqlCodegen.Proofs.Settings.Refinement
import GraphqlCodegen.Proofs.Disk.Reading
import GraphqlCodegen.Proofs.Run.Saving
import GraphqlCodegen.Proofs.CommandLine.Remembering
import GraphqlCodegen.Proofs.Sdl.Openings
import GraphqlCodegen.Proofs.Introspection.Bodies
import GraphqlCodegen.Proofs.Schema.Shuffling
import GraphqlCodegen.Proofs.JsonSchema.Order
import GraphqlCodegen.Proofs.Disk.Overwriting
import GraphqlCodegen.Proofs.Disk.Refusal
import GraphqlCodegen.Proofs.Writing.Keeping
import GraphqlCodegen.Proofs.Bindings.Host
import GraphqlCodegen.Proofs.Run.Success
import GraphqlCodegen.Proofs.Run.Replay
import GraphqlCodegen.Proofs.Run.Retrying
import GraphqlCodegen.Proofs.Run.Repetition
import GraphqlCodegen.Proofs.Introspection.Malformed
import GraphqlCodegen.Proofs.JsonSchema.Known
import GraphqlCodegen.Proofs.JsonSchema.Draft
import GraphqlCodegen.Proofs.Settings.Failing
import GraphqlCodegen.Proofs.Script.Literals
import GraphqlCodegen.Proofs.Bindings.Nullability
import GraphqlCodegen.Proofs.Script.Expressions
import GraphqlCodegen.Proofs.Bindings.Rereading
import GraphqlCodegen.Proofs.Introspection.Reported
import GraphqlCodegen.Proofs.Sdl.Soundness
import GraphqlCodegen.Proofs.Schema.Spelling
import GraphqlCodegen.Proofs.Script.Grammar
import GraphqlCodegen.Proofs.Bindings.Completeness
import GraphqlCodegen.Proofs.Bindings.TopLevel
import GraphqlCodegen.Proofs.Sdl.Requoting
import GraphqlCodegen.Proofs.Sdl.Reblocking
import GraphqlCodegen.Proofs.Sdl.Rereading
import GraphqlCodegen.Proofs.Schema.Defaults
import GraphqlCodegen.Proofs.Disk.Spellings
import GraphqlCodegen.Proofs.Http.Headers
import GraphqlCodegen.Proofs.Disk.Passing
import GraphqlCodegen.Proofs.Generator.Resolving
import GraphqlCodegen.Proofs.Writing.Artifacts
