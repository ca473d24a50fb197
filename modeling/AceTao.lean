import AceTao.Library.Machine
import AceTao.Library.BinaryHeap
import AceTao.Library.Keyed
import AceTao.TimeValue
import AceTao.TimerQueue
import AceTao.TimerList
import AceTao.TimerHeap.Basic
import AceTao.TimerHeap.Sift
import AceTao.TimerHeap.Nodes
import AceTao.TimerHeap.Invariant
import AceTao.TimerHeap.Runs
import AceTao.TimerHeap.Allocation
import AceTao.TimerHeap.Expire
import AceTao.TimerWheel.Basic
import AceTao.TimerWheel.Spoke
import AceTao.TimerWheel.Spread
import AceTao.TimerWheel.Ops
import AceTao.TimerWheel.Refines
import AceTao.TimerWheel.Unique
import AceTao.TimerHash.Bucket
import AceTao.TimerHash.Basic
import AceTao.TimerHash.Earliest
import AceTao.TimerHash.EarliestRuns
import AceTao.TimerHash.Size
import AceTao.TimerHash.SizeRuns
import AceTao.Library.Program
import AceTao.Library.BlockCut
import AceTao.Library.ByteImage
import AceTao.Library.AlignUp
import AceTao.Cdr.Types
import AceTao.Cdr.Input
import AceTao.Cdr.InputSpec
import AceTao.Cdr.Sticky
import AceTao.Cdr.Bounds
import AceTao.Cdr.Output
import AceTao.Cdr.OutputSpec
import AceTao.Cdr.Datum
import AceTao.Cdr.Fragmentation
import AceTao.Cdr.ReadBack
import AceTao.Cdr.RoundTrip
import AceTao.Cdr.Wide
import AceTao.Cdr.WideReadBack
import AceTao.Cdr.WideRoundTrip
import AceTao.Library.Buffer
import AceTao.Rle.Blocks
import AceTao.Rle.CompressSpec
import AceTao.Rle.RoundTrip
import AceTao.Base64.Codec
import AceTao.Base64.Encode
import AceTao.Base64.Decode
import AceTao.Library.BitCount
import AceTao.HandleSet.Handles
import AceTao.HandleSet.Runs
import AceTao.HandleSet.Iteration
import AceTao.Giop.Fragments
import AceTao.Giop.Reassembly
import AceTao.Giop.Fragments11
import AceTao.Giop.Cancel
import AceTao.Giop.Incoming
import AceTao.Giop.RequestHeader
import AceTao.Giop.OperationName
import AceTao.Library.DoublyLinked
import AceTao.Malloc.FreeList
import AceTao.Malloc.AvailChunks
import AceTao.NameTable.Basic
import AceTao.NameTable.Spec
import AceTao.NameTable.Runs
import AceTao.Giop.Layout
import AceTao.Giop.Sending
import AceTao.Giop.Transparent
import AceTao.GetOpt.State
import AceTao.GetOpt.Permute
import AceTao.EventGateway.RequestEntry
import AceTao.EventGateway.Requests
import AceTao.EventGateway.Receiver
import AceTao.EventGateway.WindowRuns
import AceTao.EventGateway.InOrder
import AceTao.EventGateway.DatagramBounds
import AceTao.Library.Tiling
import AceTao.EventGateway.Sender
import AceTao.EventGateway.Datagrams
import AceTao.EventGateway.Reassembly
import AceTao.EventGateway.Delivery
import AceTao.GetOpt.Calls
import AceTao.GetOpt.Terminator
import AceTao.Priority.Linear
import AceTao.Priority.Multi
import AceTao.ActiveMap.Basic
import AceTao.ActiveMap.Lists
import AceTao.ActiveMap.Slots
import AceTao.ActiveMap.Grow
import AceTao.ActiveMap.Operations
import AceTao.ActiveMap.Runs
import AceTao.ActiveMap.Calls
import AceTao.ObjectKey.RoundTrip
import AceTao.Poa.Key
import AceTao.Poa.KeySafety
import AceTao.TransportCache.Basic
import AceTao.TransportCache.Entries
import AceTao.TransportCache.Consistent
import AceTao.TransportCache.Lookup
import AceTao.TransportCache.Purge
import AceTao.TransportCache.Exclusive
import AceTao.ObjectAdapter.Basic
import AceTao.ObjectAdapter.Tree
import AceTao.ObjectAdapter.Lookup
import AceTao.ObjectMap.Basic
import AceTao.ObjectMap.Consistent
import AceTao.ObjectMap.Runs
import AceTao.ObjectMap.Activation
import AceTao.Retain.Basic
import AceTao.Retain.Life
import AceTao.Retain.Steps
import AceTao.Cdr.SkipSpec
import AceTao.Marshal.TypeCode
import AceTao.Marshal.Skip
import AceTao.Marshal.SkipSpec
import AceTao.Marshal.Advance
import AceTao.Marshal.Append
import AceTao.Marshal.AppendSpec
import AceTao.Codeset.Utf8Latin1
import AceTao.Codeset.Utf8Decoders
import AceTao.Codeset.Utf16Bom
import AceTao.Miop.RecvPacket
import AceTao.Miop.Partition
import AceTao.Miop.Receiving
import AceTao.RMCast.Fragment
import AceTao.RMCast.Reassembly
import AceTao.RMCast.ReassembleBounds
import AceTao.RMCast.Senders
import AceTao.Library.ReorderBuffer
import AceTao.RMCast.Acknowledge
import AceTao.RMCast.QueueSpec
import AceTao.RMCast.AcknowledgeSpec
import AceTao.RMCast.OrderedDelivery
import AceTao.RMCast.QueueBounds
import AceTao.RMCast.Codec
import AceTao.RMCast.CodecSpec
import AceTao.RMCast.Sender
import AceTao.RMCast.PacketSize
import AceTao.RMCast.LinkRecv
import AceTao.Library.SinglyLinked
import AceTao.Tokens.ProxyQueue
import AceTao.Tokens.RWToken
import AceTao.Tokens.OwningPrefix
import AceTao.Tokens.RWLine
import AceTao.Tokens.RWBooks
import AceTao.Tokens.RWSound
import AceTao.Tokens.RWRuns
import AceTao.Library.MarkedSearch
import AceTao.Tokens.MutexToken
import AceTao.Tokens.TokenManager
import AceTao.Tokens.Deadlock
import AceTao.Tokens.ManagerRuns
import AceTao.TimeArith
import AceTao.Cdr.Destination
import AceTao.Cdr.Strings
import AceTao.Cdr.Decoders
import AceTao.Cdr.SkipReads
import AceTao.MessageQueue.Basic
import AceTao.MessageQueue.Links
import AceTao.Library.StableQueue
import AceTao.MessageQueue.Spec
import AceTao.MessageQueue.Runs
import AceTao.Library.CycleRotation
import AceTao.Library.LinearScale
import AceTao.Library.DigitLists
import AceTao.Fixed.Basic
import AceTao.Fixed.Aligned
import AceTao.Fixed.Loops
import AceTao.Fixed.Sum
import AceTao.Fixed.SumSpec
import AceTao.Fixed.Step
import AceTao.Fixed.Rounding
import AceTao.Fixed.StepSpec
import AceTao.Fixed.Product
import AceTao.Library.Unfolding
import AceTao.AnyTypeCode.Nodes
import AceTao.AnyTypeCode.Equal
import AceTao.Outgoing.Messages
import AceTao.Outgoing.Drain
import AceTao.Outgoing.Account
import AceTao.Outgoing.Sends
import AceTao.Outgoing.Stream
import AceTao.Library.SortedMap
import AceTao.RBTree.Basic
import AceTao.RBTree.Order
import AceTao.RBTree.Balance
import AceTao.RBTree.Runs
import AceTao.RBTree.Iterator
