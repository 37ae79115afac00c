import TensorGraph.Collection.Dict
import TensorGraph.Collection.SortedSet
import TensorGraph.Number.Single
import TensorGraph.Number.Decimal
import TensorGraph.Number.Double
import TensorGraph.Number.Scalar
import TensorGraph.Number.Word
import TensorGraph.Text.Listing
import TensorGraph.Text.Json
import TensorGraph.Text.Json.Token
import TensorGraph.Text.Json.Parse
import TensorGraph.Tensor.Info
import TensorGraph.Tensor.Count
import TensorGraph.Error.Shape
import TensorGraph.Error.Execution
import TensorGraph.Error.Graph
import TensorGraph.Error.Session
import TensorGraph.Error.Basic
import TensorGraph.Tensor.Shape
import TensorGraph.Tensor.Index
import TensorGraph.Tensor.Storage
import TensorGraph.Tensor.Host
import TensorGraph.Op.Kind
import TensorGraph.Op.Infer
import TensorGraph.Wire.Basic
import TensorGraph.Wire.Op
import TensorGraph.Wire.Hash
import TensorGraph.Model.Basic
import TensorGraph.Model.Kind
import TensorGraph.Kernel.Operand
import TensorGraph.Kernel.Elementwise
import TensorGraph.Kernel.Lanes
import TensorGraph.Kernel.Loss
import TensorGraph.Kernel.Movement
import TensorGraph.Kernel.Plan
import TensorGraph.Kernel.Backend
import TensorGraph.Interchange.Basic
import TensorGraph.Interchange.Tensor
import TensorGraph.Interchange.Op
import TensorGraph.Interchange.Model
import TensorGraph.Graph.Basic
import TensorGraph.Graph.Edit
import TensorGraph.Graph.Order
import TensorGraph.Graph.Import
import TensorGraph.Graph.Fingerprint
import TensorGraph.Model.Builder
import TensorGraph.Text.Setting
import TensorGraph.Diagnostic
import TensorGraph.Graph.Build
import TensorGraph.Pattern.Basic
import TensorGraph.Pattern.Structural
import TensorGraph.Pattern.GradLowering
import TensorGraph.Pattern.Greedy
import TensorGraph.Graph.DeadOps
import TensorGraph.Graph.InPlace
import TensorGraph.Pattern.Selection
import TensorGraph.Pattern.Pipeline
import TensorGraph.Graph.Reach
import TensorGraph.Train.Loss
import TensorGraph.Train.Optimizer
import TensorGraph.Gradient.Rule
import TensorGraph.Gradient.Synthesis
import TensorGraph.Placement.Stage
import TensorGraph.Placement.Basic
import TensorGraph.Engine.Executable
import TensorGraph.Engine.Runtime
import TensorGraph.Interchange.Graph
import TensorGraph.Interchange.Pattern
import TensorGraph.Device.Basic
import TensorGraph.Device.Rack
import TensorGraph.Platform.Files
import TensorGraph.Engine.Cache
import TensorGraph.Random.Normal
import TensorGraph.Session.Options
import TensorGraph.Session.DataFlow
import TensorGraph.Session.StepIo
import TensorGraph.Platform.Basic
import TensorGraph.Session.Basic
import TensorGraph.Session.Open
import TensorGraph.Session.Prepare
import TensorGraph.Session.Run
import TensorGraph.Session.Weights
import TensorGraph.Session.Report
import TensorGraph.Interchange.Session
import TensorGraph.Proofs.Collection
import TensorGraph.Proofs.Graph.Tables
import TensorGraph.Proofs.Stateful
import TensorGraph.Proofs.Graph.Effect
import TensorGraph.Proofs.Graph.Linked
import TensorGraph.Proofs.Graph.WellFormed
import TensorGraph.Proofs.Graph.Reach
import TensorGraph.Proofs.Graph.Denotation
import TensorGraph.Proofs.Graph.Meaning
import TensorGraph.Proofs.Pattern.Simplify
import TensorGraph.Proofs.Graph.Order
import TensorGraph.Proofs.Graph.Cycle
import TensorGraph.Proofs.Graph.Attribution
import TensorGraph.Proofs.Graph.DeadOps
import TensorGraph.Proofs.Engine.Compile
import TensorGraph.Proofs.Engine.Batch
import TensorGraph.Proofs.Engine.History
import TensorGraph.Proofs.Engine.Refinement
import TensorGraph.Proofs.Graph.InPlace
import TensorGraph.Proofs.Kernel.Exact
import TensorGraph.Proofs.Graph.Embedding
import TensorGraph.Proofs.Gradient.Emission
import TensorGraph.Proofs.Gradient.Growth
import TensorGraph.Proofs.Gradient.Relevance
import TensorGraph.Proofs.Gradient.Sweep
import TensorGraph.Proofs.Gradient.Tangent
import TensorGraph.Proofs.Gradient.Accumulation
import TensorGraph.Proofs.Wire.Lawful
import TensorGraph.Proofs.Model.Codec
import TensorGraph.Proofs.Placement.Stages
import TensorGraph.Proofs.Placement.Placing
import TensorGraph.Proofs.Placement.Automatic
import TensorGraph.Proofs.Session.Steady
import TensorGraph.Proofs.Graph.Typed
import TensorGraph.Proofs.Op.Infer
import TensorGraph.Proofs.Pattern.Rewrite
import TensorGraph.Proofs.Pattern.BuiltIn
import TensorGraph.Proofs.Pattern.Pipeline
import TensorGraph.Proofs.Op.Extent
import TensorGraph.Proofs.Gradient.Undo
import TensorGraph.Proofs.Gradient.Shapes
import TensorGraph.Proofs.Gradient.Upkeep
import TensorGraph.Proofs.Gradient.Degree
import TensorGraph.Proofs.Gradient.Reaching
import TensorGraph.Proofs.Gradient.Trace
import TensorGraph.Proofs.Gradient.Enlarging
import TensorGraph.Proofs.Kernel.Scaling
import TensorGraph.Proofs.Gradient.Scaling
import TensorGraph.Proofs.Session.Construction
import TensorGraph.Proofs.Placement.Following
import TensorGraph.Proofs.Engine.Labels
import TensorGraph.Proofs.Session.Arrays
import TensorGraph.Proofs.Session.Batches
import TensorGraph.Proofs.Session.Steps
import TensorGraph.Proofs.Session.Returns
import TensorGraph.Proofs.Engine.Supply
import TensorGraph.Proofs.Session.Anchors
import TensorGraph.Proofs.Model.Calls
import TensorGraph.Proofs.Graph.Import
import TensorGraph.Proofs.Device.Exclusive
import TensorGraph.Proofs.Wire.Kinds
import TensorGraph.Proofs.Platform.Files
import TensorGraph.Proofs.Engine.Artifact
import TensorGraph.Proofs.Engine.Cache
import TensorGraph.Proofs.Graph.Signature
import TensorGraph.Proofs.Engine.Coverage
import TensorGraph.Proofs.Engine.Counting
import TensorGraph.Proofs.Session.Calls
import TensorGraph.Proofs.Session.Grouping
import TensorGraph.Proofs.Session.Programs
import TensorGraph.Proofs.Session.Reporting
import TensorGraph.Proofs.Session.Tiles
import TensorGraph.Proofs.Session.Settings
import TensorGraph.Proofs.Session.Weights
import TensorGraph.Proofs.Session.Replacing
import TensorGraph.Proofs.Session.Export
import TensorGraph.Proofs.Gradient.Matching
import TensorGraph.Proofs.Pattern.Action
import TensorGraph.Proofs.Pattern.Weight
import TensorGraph.Proofs.Pattern.Driver
import TensorGraph.Proofs.Pattern.Versions
import TensorGraph.Proofs.Pattern.Fixpoint
import TensorGraph.Proofs.Pattern.Idempotence
import TensorGraph.Proofs.Kernel.Coordinates
import TensorGraph.Proofs.Kernel.Linear
import TensorGraph.Proofs.Kernel.Lookup
import TensorGraph.Proofs.Kernel.Stretch
import TensorGraph.Proofs.Kernel.Broadcasting
import TensorGraph.Proofs.Kernel.Adjoint
import TensorGraph.Proofs.Kernel.Moves
import TensorGraph.Proofs.Kernel.Reduction
import TensorGraph.Proofs.Kernel.Windows
import TensorGraph.Proofs.Kernel.Matrix
import TensorGraph.Proofs.Kernel.Concat
import TensorGraph.Proofs.Kernel.Gather
import TensorGraph.Proofs.Kernel.Walk
import TensorGraph.Proofs.Graph.Extension
import TensorGraph.Proofs.Gradient.Backward
import TensorGraph.Proofs.Gradient.Adjoint
import TensorGraph.Proofs.Kernel.Copies
import TensorGraph.Proofs.Kernel.Spelling
import TensorGraph.Proofs.Model.Inference
import TensorGraph.Proofs.Kernel.Stored
import TensorGraph.Proofs.Kernel.Delivery
import TensorGraph.Proofs.Gradient.Restoring
import TensorGraph.Proofs.Pattern.Lowering
