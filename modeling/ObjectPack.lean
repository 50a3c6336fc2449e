import ObjectPack.Compile
import ObjectPack.Container.Reader
import ObjectPack.Naming
import ObjectPack.Proofs.Link.Read
import ObjectPack.Proofs.Link.Layout
import ObjectPack.Proofs.Link.Chain
import ObjectPack.Proofs.Section.Sharing
import ObjectPack.Proofs.Section.Digest
import ObjectPack.Proofs.Draft.Write
import ObjectPack.Proofs.Model.Layout
import ObjectPack.Proofs.Packing.Row
import ObjectPack.Proofs.Packing.Block
import ObjectPack.Proofs.Packing.Text
import ObjectPack.Proofs.Packing.Unit
import ObjectPack.Proofs.Packing.Read
import ObjectPack.Proofs.Model.Rearrange
import ObjectPack.Proofs.Model.Solve
import ObjectPack.Proofs.Model.Order
import ObjectPack.Proofs.Model.Track
import ObjectPack.Proofs.Model.Fold
import ObjectPack.Proofs.Model.Tour
import ObjectPack.Proofs.Model.Solved
import ObjectPack.Proofs.Model.Sort
import ObjectPack.Proofs.Model.Schedule
import ObjectPack.Proofs.Walk.Faithful
import ObjectPack.Proofs.Walk.Grow
import ObjectPack.Proofs.Walk.Homogeneous
import ObjectPack.Proofs.Walk.Match
import ObjectPack.Proofs.Walk.Occurrence
import ObjectPack.Proofs.Walk.Parts
import ObjectPack.Proofs.Walk.Picture
import ObjectPack.Proofs.Walk.Solved
import ObjectPack.Proofs.Walk.Sound
import ObjectPack.Proofs.Walk.Turn
import ObjectPack.Proofs.Walk.Usable
import ObjectPack.Proofs.Walk.Whole
import ObjectPack.Proofs.Walk.Advance
import ObjectPack.Proofs.Compile
import ObjectPack.Proofs.Draft.Register
import ObjectPack.Proofs.Packing.Exact
import ObjectPack.Proofs.Compile.Exact
import ObjectPack.Proofs.Interface.Shown
import ObjectPack.Proofs.Interface.Type
import ObjectPack.Proofs.Interface.Alike
import ObjectPack.Proofs.Interface.Fields
import ObjectPack.Proofs.Interface.Fit
import ObjectPack.Proofs.Interface.Order
import ObjectPack.Proofs.Draft.Outline
import ObjectPack.Proofs.Draft.Total
import ObjectPack.Proofs.Model.Total
import ObjectPack.Proofs.Model.Sturdy
import ObjectPack.Proofs.Walk.Sturdy
import ObjectPack.Proofs.Packing.Packs
import ObjectPack.Proofs.Packing.Pending
import ObjectPack.Proofs.Packing.Total
import ObjectPack.Proofs.Packing.Finish
import ObjectPack.Proofs.Link.Total
import ObjectPack.Proofs.Interface.Total
import ObjectPack.Proofs.Interface.Homogeneous
import ObjectPack.Proofs.Interface.Introduce
import ObjectPack.Proofs.Compile.Total
import ObjectPack.Proofs.Follow
import ObjectPack.Proofs.Section.Rename
import ObjectPack.Proofs.Link.Rename
import ObjectPack.Proofs.Draft.Shift
import ObjectPack.Proofs.Draft.Link
import ObjectPack.Proofs.Packing.Pool
import ObjectPack.Proofs.Link.Script
import ObjectPack.Proofs.Model.Shift
import ObjectPack.Proofs.Walk.Shift
import ObjectPack.Proofs.Packing.Mirror
import ObjectPack.Proofs.Packing.Rounds
import ObjectPack.Proofs.Compile.Supply
import ObjectPack.Proofs.Draft.Filling
import ObjectPack.Proofs.Draft.Transcript
import ObjectPack.Proofs.Draft.State
import ObjectPack.Proofs.Link.Order
import ObjectPack.Proofs.Section.Recode
import ObjectPack.Proofs.Draft.Recode
import ObjectPack.Proofs.Link.Recode
import ObjectPack.Proofs.Sorting
import ObjectPack.Proofs.Model.Ranked
import ObjectPack.Proofs.Walk.Confined
import ObjectPack.Proofs.Walk.Beside
import ObjectPack.Proofs.Walk.Reorder
import ObjectPack.Proofs.Walk.Log
import ObjectPack.Proofs.Walk.Portrait
import ObjectPack.Proofs.Walk.Twins
import ObjectPack.Proofs.Packing.Transfer
import ObjectPack.Proofs.Walk.Mirrored
import ObjectPack.Proofs.Compile.FieldOrder
import ObjectPack.Proofs.Walk.Tiled
import ObjectPack.Proofs.Model.Units
import ObjectPack.Proofs.Walk.Units
import ObjectPack.Proofs.Packing.Once
import ObjectPack.Proofs.Compile.Once
import ObjectPack.Proofs.Walk.Lenient
import ObjectPack.Proofs.Compile.Bits
import ObjectPack.Container.Access
import ObjectPack.Proofs.Link.Faults
import ObjectPack.Proofs.Container.Denote
import ObjectPack.Proofs.Container.Opening
import ObjectPack.Proofs.Packing.Named
import ObjectPack.Proofs.Packing.Aligned
import ObjectPack.Proofs.Compile.Aligned
import ObjectPack.Proofs.Pointer.Stop
import ObjectPack.Proofs.Bytes
import ObjectPack.Proofs.Model.Range
import ObjectPack.Proofs.Model.Stable
import ObjectPack.Proofs.Model.Words
import ObjectPack.Proofs.Model.Passes
import ObjectPack.Proofs.Compile.Enums
import ObjectPack.Proofs.Model.Compact
import ObjectPack.Proofs.Compile.Compact
import ObjectPack.Proofs.Model.Stride
import ObjectPack.Proofs.Compile.Stride
import ObjectPack.Proofs.Packing.TextBlock
import ObjectPack.Proofs.Link.Pools
import ObjectPack.Proofs.Container.RoundTrip
import ObjectPack.Proofs.Pointer.Walk
import ObjectPack.Proofs.Walk.Predict
import ObjectPack.Proofs.Interface.Members
import ObjectPack.Proofs.Compile.Members
import ObjectPack.Proofs.Catalog
import ObjectPack.Proofs.Registry
import ObjectPack.Proofs.Model.Halting
import ObjectPack.Proofs.Section.Bookkeeping
import ObjectPack.Proofs.Draft.Padding
