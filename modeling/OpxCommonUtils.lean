import OpxCommonUtils.Bits.Array
import OpxCommonUtils.Bits.Proofs.Array
import OpxCommonUtils.Bits.Proofs.Search
import OpxCommonUtils.Bits.Search
import OpxCommonUtils.Console.Proofs.Calls
import OpxCommonUtils.Console.Proofs.Relay
import OpxCommonUtils.Console.Redir
import OpxCommonUtils.Dir.Iterate
import OpxCommonUtils.Dir.Proofs.Iterate
import OpxCommonUtils.Dll.List
import OpxCommonUtils.Dll.Proofs.Chain
import OpxCommonUtils.Dll.Proofs.Links
import OpxCommonUtils.Dll.Proofs.Sorted
import OpxCommonUtils.Event.Bus
import OpxCommonUtils.Event.Client
import OpxCommonUtils.Event.Frame
import OpxCommonUtils.Event.Handler
import OpxCommonUtils.Event.Proofs.Boundaries
import OpxCommonUtils.Event.Proofs.Bus
import OpxCommonUtils.Event.Proofs.CallerBuffer
import OpxCommonUtils.Event.Proofs.Delivery
import OpxCommonUtils.Event.Proofs.Frames
import OpxCommonUtils.Event.Proofs.OwnBytes
import OpxCommonUtils.Event.Proofs.Requests
import OpxCommonUtils.Event.Proofs.Routing
import OpxCommonUtils.Event.Proofs.Teardown
import OpxCommonUtils.Event.Registry
import OpxCommonUtils.Event.Server
import OpxCommonUtils.Io.Descriptors
import OpxCommonUtils.Io.Proofs.Descriptors
import OpxCommonUtils.Io.Proofs.Interrupted
import OpxCommonUtils.Io.Proofs.Netns
import OpxCommonUtils.Io.Proofs.Transfer
import OpxCommonUtils.Io.Proofs.Vectored
import OpxCommonUtils.Io.Transfer
import OpxCommonUtils.Misc.BitString
import OpxCommonUtils.Misc.Bytes
import OpxCommonUtils.Misc.CString
import OpxCommonUtils.Misc.Callbacks
import OpxCommonUtils.Misc.Capped
import OpxCommonUtils.Misc.DoublyLinked
import OpxCommonUtils.Misc.Heap
import OpxCommonUtils.Misc.LinkEdit
import OpxCommonUtils.Misc.LinkTree
import OpxCommonUtils.Misc.MarkedList
import OpxCommonUtils.Misc.MaskEdit
import OpxCommonUtils.Misc.Numerals
import OpxCommonUtils.Misc.Order
import OpxCommonUtils.Misc.PubSub
import OpxCommonUtils.Misc.RedBlack
import OpxCommonUtils.Misc.Relay
import OpxCommonUtils.Misc.Resume
import OpxCommonUtils.Misc.Search
import OpxCommonUtils.Misc.Sections
import OpxCommonUtils.Misc.Simulation
import OpxCommonUtils.Misc.Slices
import OpxCommonUtils.Misc.Splitting
import OpxCommonUtils.Misc.StableSort
import OpxCommonUtils.Misc.StdMap
import OpxCommonUtils.Misc.Steps
import OpxCommonUtils.Misc.Traced
import OpxCommonUtils.Misc.TreePrint
import OpxCommonUtils.Misc.TreeTour
import OpxCommonUtils.Misc.Trie
import OpxCommonUtils.Misc.TrieNext
import OpxCommonUtils.Misc.TriePath
import OpxCommonUtils.Misc.TrieShape
import OpxCommonUtils.Misc.Trimming
import OpxCommonUtils.Net.Address
import OpxCommonUtils.Net.Mac
import OpxCommonUtils.Net.Mask
import OpxCommonUtils.Net.Prefix
import OpxCommonUtils.Net.Proofs.Address
import OpxCommonUtils.Net.Proofs.Families
import OpxCommonUtils.Net.Proofs.Mac
import OpxCommonUtils.Net.Proofs.Mask
import OpxCommonUtils.Net.Proofs.Prefix
import OpxCommonUtils.Radix.ByteReads
import OpxCommonUtils.Radix.ChangeCallback
import OpxCommonUtils.Radix.ChangeList
import OpxCommonUtils.Radix.Compare
import OpxCommonUtils.Radix.FullWalk
import OpxCommonUtils.Radix.Lookup
import OpxCommonUtils.Radix.Pending
import OpxCommonUtils.Radix.PowerWalk
import OpxCommonUtils.Radix.Print
import OpxCommonUtils.Radix.Proofs.Accounts
import OpxCommonUtils.Radix.Proofs.Acknowledged
import OpxCommonUtils.Radix.Proofs.Bookkeeping
import OpxCommonUtils.Radix.Proofs.ByteCalls
import OpxCommonUtils.Radix.Proofs.ByteReads
import OpxCommonUtils.Radix.Proofs.ChangeCallback
import OpxCommonUtils.Radix.Proofs.ChangeFrame
import OpxCommonUtils.Radix.Proofs.ChangeList
import OpxCommonUtils.Radix.Proofs.ChangeMembers
import OpxCommonUtils.Radix.Proofs.ChangeWalk
import OpxCommonUtils.Radix.Proofs.FullWalk
import OpxCommonUtils.Radix.Proofs.History
import OpxCommonUtils.Radix.Proofs.Insert
import OpxCommonUtils.Radix.Proofs.InsertFails
import OpxCommonUtils.Radix.Proofs.Invariant
import OpxCommonUtils.Radix.Proofs.LessSpecific
import OpxCommonUtils.Radix.Proofs.Lookup
import OpxCommonUtils.Radix.Proofs.ManyHeads
import OpxCommonUtils.Radix.Proofs.MarkedLookup
import OpxCommonUtils.Radix.Proofs.Next
import OpxCommonUtils.Radix.Proofs.NoFaults
import OpxCommonUtils.Radix.Proofs.Pending
import OpxCommonUtils.Radix.Proofs.PowerWalk
import OpxCommonUtils.Radix.Proofs.Print
import OpxCommonUtils.Radix.Proofs.Refinement
import OpxCommonUtils.Radix.Proofs.Removals
import OpxCommonUtils.Radix.Proofs.Remove
import OpxCommonUtils.Radix.Proofs.RemovingWalk
import OpxCommonUtils.Radix.Proofs.Resume
import OpxCommonUtils.Radix.Proofs.Shape
import OpxCommonUtils.Radix.Proofs.VersionSelection
import OpxCommonUtils.Radix.Proofs.VersionWrap
import OpxCommonUtils.Radix.Proofs.Versions
import OpxCommonUtils.Radix.Proofs.WalkPlace
import OpxCommonUtils.Radix.Proofs.WalkReturn
import OpxCommonUtils.Radix.Proofs.WalkSteps
import OpxCommonUtils.Radix.Proofs.WalkUser
import OpxCommonUtils.Radix.RemovingWalk
import OpxCommonUtils.Radix.Table
import OpxCommonUtils.Radix.Update
import OpxCommonUtils.Radix.Versions
import OpxCommonUtils.Radix.Walk
import OpxCommonUtils.RbTree.Lookup
import OpxCommonUtils.RbTree.Print
import OpxCommonUtils.RbTree.Proofs.Insert
import OpxCommonUtils.RbTree.Proofs.Iteration
import OpxCommonUtils.RbTree.Proofs.Lookup
import OpxCommonUtils.RbTree.Proofs.Ordered
import OpxCommonUtils.RbTree.Proofs.Print
import OpxCommonUtils.RbTree.Proofs.Relink
import OpxCommonUtils.RbTree.Proofs.Remove
import OpxCommonUtils.RbTree.Proofs.ResumedWalk
import OpxCommonUtils.RbTree.Proofs.Run
import OpxCommonUtils.RbTree.Proofs.Shape
import OpxCommonUtils.RbTree.Proofs.Walk
import OpxCommonUtils.RbTree.Proofs.WalkFrom
import OpxCommonUtils.RbTree.Table
import OpxCommonUtils.RbTree.Update
import OpxCommonUtils.RbTree.Walk
import OpxCommonUtils.Service.Proofs.OneJob
import OpxCommonUtils.Service.Sockets
import OpxCommonUtils.Sort.MergeSort
import OpxCommonUtils.Sort.Proofs.Agreement
import OpxCommonUtils.Sort.Proofs.IntRange
import OpxCommonUtils.Sort.Proofs.MergeSort
import OpxCommonUtils.Text.CodeTable
import OpxCommonUtils.Text.ConfigFile
import OpxCommonUtils.Text.Escape
import OpxCommonUtils.Text.Proofs.CodeTable
import OpxCommonUtils.Text.Proofs.ConfigFile
import OpxCommonUtils.Text.Proofs.Document
import OpxCommonUtils.Text.Proofs.Escape
import OpxCommonUtils.Text.Proofs.Rounds
import OpxCommonUtils.Text.Proofs.Split
import OpxCommonUtils.Text.Proofs.Trim
import OpxCommonUtils.Text.Split
import OpxCommonUtils.Text.Trim
import OpxCommonUtils.Thread.Pool
import OpxCommonUtils.Thread.Proofs.Deletion
import OpxCommonUtils.Thread.Proofs.Jobs
import OpxCommonUtils.Tlv.Format
import OpxCommonUtils.Tlv.Proofs.Hostile
import OpxCommonUtils.Tlv.Proofs.Nested
import OpxCommonUtils.Tlv.Proofs.Stream
import OpxCommonUtils.User.Perm
import OpxCommonUtils.User.Proofs.Perm
