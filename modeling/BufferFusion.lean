import BufferFusion.Main
import BufferFusion.Proofs.Execution.Demoted
import BufferFusion.Proofs.Execution.Planned
import BufferFusion.Proofs.Fusion.Local
import BufferFusion.Proofs.Inference.Known
import BufferFusion.Proofs.Execution.Values
import BufferFusion.Proofs.Kernel.Entries
import BufferFusion.Proofs.Sharing.Validate
import BufferFusion.Proofs.Pass.Answers
import BufferFusion.Proofs.Pass.Verdict
import BufferFusion.Proofs.Pass.Orders
import BufferFusion.Proofs.Execution.Static
import BufferFusion.Proofs.Fusion.Backed
import BufferFusion.Proofs.Execution.Places
import BufferFusion.Proofs.Execution.Shown
import BufferFusion.Proofs.Execution.Bindings
import BufferFusion.Proofs.Execution.Running
import BufferFusion.Proofs.Execution.Separate
import BufferFusion.Proofs.Pass.Shortcut
import BufferFusion.Proofs.Inference.Complete
import BufferFusion.Proofs.Pass.Compile
import BufferFusion.Proofs.Inference.Reroute
import BufferFusion.Proofs.Execution.Transfer
import BufferFusion.Proofs.Execution.Executed
import BufferFusion.Proofs.Execution.Equivalence
import BufferFusion.Proofs.Graph.Edits
import BufferFusion.Proofs.Sharing.Writers
import BufferFusion.Proofs.Execution.Progress
import BufferFusion.Proofs.Execution.Cells
import BufferFusion.Proofs.Execution.Lanes
import BufferFusion.Proofs.Graph.Topological
import BufferFusion.Proofs.Memory.RoundTrip
import BufferFusion.Proofs.Execution.Partition
import BufferFusion.Proofs.Inference.Restore
import BufferFusion.Proofs.Layout.Within
import BufferFusion.Proofs.Execution.Uniform
import BufferFusion.Proofs.Execution.Economy
import BufferFusion.Proofs.Pass.Confined
import BufferFusion.Proofs.Kernel.Unmoved
import BufferFusion.Proofs.Memory.Windows
import BufferFusion.Proofs.Memory.Slices
import BufferFusion.Proofs.Graph.Substitute
import BufferFusion.Proofs.Pass.Bypassed
import BufferFusion.Proofs.Inference.Afresh
import BufferFusion.Proofs.Inference.OnDemand
import BufferFusion.Proofs.Inference.Pattern
import BufferFusion.Proofs.Layout.Comparison
import BufferFusion.Proofs.Kernel.Split
import BufferFusion.Proofs.Kernel.Connected
import BufferFusion.Proofs.Graph.Cropped
import BufferFusion.Proofs.Sharing.Independent
import BufferFusion.Proofs.Inference.Faults
import BufferFusion.Proofs.Execution.Again
import BufferFusion.Proofs.Inference.Fitting
import BufferFusion.Proofs.Kernel.Moved
import BufferFusion.Proofs.Lane.Elements
