import TreeEdit.About
import TreeEdit.Config.Basic
import TreeEdit.Config.Load
import TreeEdit.Config.Schema
import TreeEdit.Edit.Basic
import TreeEdit.Edit.Call
import TreeEdit.Edit.Context
import TreeEdit.Edit.Forward
import TreeEdit.Edit.Path
import TreeEdit.Edit.Plan
import TreeEdit.Edit.Rebuild
import TreeEdit.Error
import TreeEdit.Guard.Basic
import TreeEdit.Guard.Program
import TreeEdit.Guard.Shared
import TreeEdit.Json.Basic
import TreeEdit.Json.Decode
import TreeEdit.Node.Basic
import TreeEdit.Node.Hints
import TreeEdit.Node.Kind
import TreeEdit.Node.Range
import TreeEdit.Overlay.Basic
import TreeEdit.Overlay.Blocks
import TreeEdit.Overlay.Conflict
import TreeEdit.Overlay.Merge
import TreeEdit.Overlay.Record
import TreeEdit.Overlay.View
import TreeEdit.Proofs.Ascent
import TreeEdit.Proofs.Descent
import TreeEdit.Proofs.Entering
import TreeEdit.Proofs.Relink
import TreeEdit.Proofs.Sound
import TreeEdit.Store.Basic
import TreeEdit.Store.Link
import TreeEdit.Store.Table
import TreeEdit.Store.Walk
import TreeEdit.Text.Blank
import TreeEdit.Text.Quoted
import TreeEdit.Text.Scan
import TreeEdit.Text.Unprintable
import TreeEdit.Toml.Basic
import TreeEdit.Toml.Document
import TreeEdit.Toml.Scalar
import TreeEdit.Toml.Text
import TreeEdit.Tree.Basic
import TreeEdit.Tree.Builder
import TreeEdit.Tree.Compare
import TreeEdit.Tree.Print
import TreeEdit.Tree.Rose
import TreeEdit.Proofs.Revision
import TreeEdit.Proofs.PathCopy
import TreeEdit.Proofs.Forwarding
import TreeEdit.Proofs.Building
import TreeEdit.Proofs.Regeneration
import TreeEdit.Proofs.Settling
import TreeEdit.Proofs.Editing
import TreeEdit.Proofs.Generation
import TreeEdit.Proofs.Unfolding
import TreeEdit.Proofs.Comparing
import TreeEdit.Proofs.Recording
import TreeEdit.Proofs.Replaying
import TreeEdit.Proofs.Lineage
import TreeEdit.Proofs.Refinement
import TreeEdit.Proofs.Conflict
import TreeEdit.Proofs.Fidelity
import TreeEdit.Proofs.InPlace
import TreeEdit.Proofs.Importing
import TreeEdit.Proofs.Composition
import TreeEdit.Proofs.Planning
import TreeEdit.Proofs.Accounting
import TreeEdit.Proofs.Detaching
import TreeEdit.Proofs.Steady
import TreeEdit.Proofs.Detection
import TreeEdit.Proofs.Retention
import TreeEdit.Proofs.Mirroring
import TreeEdit.Proofs.Following
import TreeEdit.Proofs.Acceptance
import TreeEdit.Proofs.Agreement
import TreeEdit.Proofs.Refusing
import TreeEdit.Proofs.Validity
import TreeEdit.Proofs.Scripts
import TreeEdit.Proofs.WorkerOrder
import TreeEdit.Proofs.Scheduling
import TreeEdit.Proofs.Assignment
import TreeEdit.Proofs.Confinement
import TreeEdit.Proofs.DisjointBlocks
import TreeEdit.Proofs.Finishing
import TreeEdit.Proofs.Resolution
import TreeEdit.Proofs.Admission
import TreeEdit.Proofs.Interleaving
import TreeEdit.Proofs.Issuing
import TreeEdit.Proofs.Overlapping
import TreeEdit.Proofs.Budget
import TreeEdit.Proofs.Hashing
import TreeEdit.Proofs.CanonicalLogs
import TreeEdit.Proofs.CopyTracking
import TreeEdit.Proofs.ExactLimits
import TreeEdit.Proofs.EarlyStop
import TreeEdit.Proofs.Layering
import TreeEdit.Proofs.Traversal
import TreeEdit.Proofs.LoneOverlay
import TreeEdit.Proofs.Exhaustion
import TreeEdit.Proofs.Nesting
