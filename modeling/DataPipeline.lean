import DataPipeline.Broadcast.Refinement
import DataPipeline.Manager.Log
import DataPipeline.Manager.Bounds
import DataPipeline.Manager.Stability
import DataPipeline.Manager.FeederOrder
import DataPipeline.Manager.Frames
import DataPipeline.Manager.Locks
import DataPipeline.Queue.Blocking
import DataPipeline.Queue.CopyCircle
import DataPipeline.Queue.Pausing
import DataPipeline.Topology.Lifetime
import DataPipeline.Topology.AddNode
import DataPipeline.Topology.Runnable
import DataPipeline.Pool.Conservation
import DataPipeline.Pool.Wakeup
import DataPipeline.Framework.Drain
import DataPipeline.Framework.Served
import DataPipeline.Framework.Check
import DataPipeline.Framework.Datagrams
import DataPipeline.Framework.StartOrder
import DataPipeline.Framework.Reads
import DataPipeline.Tcp.Client
import DataPipeline.Tcp.Cleanup
import DataPipeline.Tcp.Descriptors
import DataPipeline.Tcp.ReadRx
import DataPipeline.Udp.RoundTrip
import DataPipeline.Relay.Network
