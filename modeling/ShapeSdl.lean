import ShapeSdl.Call
import ShapeSdl.CommandLine.Run
import ShapeSdl.Main
import ShapeSdl.Registry.Workspace
import ShapeSdl.Resolver
import ShapeSdl.Proofs.Outline
import ShapeSdl.Proofs.Reads
import ShapeSdl.Proofs.Merge
import ShapeSdl.Proofs.Layout
import ShapeSdl.Proofs.Alias
import ShapeSdl.Proofs.References
import ShapeSdl.Proofs.Declared
import ShapeSdl.Proofs.Names
import ShapeSdl.Proofs.Agree
import ShapeSdl.Proofs.Batches
import ShapeSdl.Proofs.Container
import ShapeSdl.Proofs.Order
import ShapeSdl.Proofs.Document
import ShapeSdl.Proofs.Strict
import ShapeSdl.Proofs.FieldNames
import ShapeSdl.Proofs.Pointers
import ShapeSdl.Proofs.Null
import ShapeSdl.Proofs.Required
import ShapeSdl.Proofs.Guards
import ShapeSdl.Proofs.Steady
import ShapeSdl.Proofs.Refusals
import ShapeSdl.Proofs.Cited
import ShapeSdl.Proofs.Descent
import ShapeSdl.Proofs.Overruns
import ShapeSdl.Proofs.Circles
import ShapeSdl.Proofs.Places
import ShapeSdl.Proofs.Rendered
import ShapeSdl.Proofs.Identity
import ShapeSdl.Proofs.Blocks
import ShapeSdl.Proofs.Stops
import ShapeSdl.Proofs.Faults
import ShapeSdl.Proofs.Unwinding
import ShapeSdl.Proofs.Cyclic
import ShapeSdl.Proofs.Errors
import ShapeSdl.Proofs.Skeleton
import ShapeSdl.Proofs.Recast
import ShapeSdl.Proofs.Casting
import ShapeSdl.Proofs.Replay
import ShapeSdl.Proofs.Follows
import ShapeSdl.Proofs.Levels
import ShapeSdl.Proofs.Categories
import ShapeSdl.Proofs.Parallel
import ShapeSdl.Proofs.Restated
import ShapeSdl.Proofs.Alongside
import ShapeSdl.Proofs.Inlined
import ShapeSdl.Proofs.Spelled
import ShapeSdl.Proofs.Appended
import ShapeSdl.Proofs.Retold
import ShapeSdl.Proofs.Regrouped
import ShapeSdl.Proofs.Legible
import ShapeSdl.Proofs.Siblings
import ShapeSdl.Proofs.TypeNames
import ShapeSdl.Proofs.Atomic
import ShapeSdl.Proofs.RootName
import ShapeSdl.Proofs.Naming
import ShapeSdl.Proofs.EnumLines
import ShapeSdl.Proofs.Histories
import ShapeSdl.Proofs.Configurations
import ShapeSdl.Proofs.Renamed
import ShapeSdl.Proofs.Reused
import ShapeSdl.Proofs.Fallbacks
import ShapeSdl.Proofs.Comment
import ShapeSdl.Proofs.Ahead
import ShapeSdl.Proofs.NodeFirst
import ShapeSdl.Proofs.Intact
