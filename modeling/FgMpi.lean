import FgMpi.Recvq.Overtaking
import FgMpi.Sched.Tags
import FgMpi.ContextId.Safety
import FgMpi.Connection.Completion
import FgMpi.Types.Pieces
import FgMpi.Rma.SyncStates
import FgMpi.Rma.LockService
import FgMpi.Coll.BarrierSafety
import FgMpi.Coll.SmpDelivery
import FgMpi.Zerocopy.Pairings
import FgMpi.Coll.ReduceGather
import FgMpi.Coll.SmpAllreduce
import FgMpi.Coll.SmpReduction
import FgMpi.Procmap.WorldRanks
import FgMpi.Procmap.NodeIds
import FgMpi.Sleepq.WakeOrder
import FgMpi.Comm.SplitMaps
import FgMpi.Comm.CopyPrefix
import FgMpi.ContextId.Completeness
import FgMpi.Threads.Placements
import FgMpi.Drain.Drained
import FgMpi.Group.Constructors
import FgMpi.Procmap.BlockIds
import FgMpi.Bsend.Capacity
import FgMpi.Connection.GroupTransfer
import FgMpi.Sched.Stranding
import FgMpi.Recvq.Revocation
import FgMpi.Argstr.Strings
import FgMpi.Argstr.Atomicity
import FgMpi.Handles.Soundness
import FgMpi.Topo.Dims
import FgMpi.Traversal.Packing
import FgMpi.Traversal.Flattening
import FgMpi.Types.Compaction
import FgMpi.Rma.WindowLists
import FgMpi.Topo.Cartesian
import FgMpi.Types.Subarray
import FgMpi.Types.External32
import FgMpi.Traversal.Relocation
import FgMpi.ContextId.Locating
import FgMpi.Zerocopy.Signatures
import FgMpi.Rma.AccumulateOp
import FgMpi.Coll.Scan
import FgMpi.Coll.AlltoallInter
import FgMpi.Traversal.Windows
import FgMpi.Drain.Segments
