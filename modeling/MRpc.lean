import MRpc.Message.Wire
import MRpc.Message.Refinement
import MRpc.Codec.Chunking
import MRpc.Codec.Validity
import MRpc.Codec.ErrorCodes
import MRpc.Codec.Corruption
import MRpc.Codec.AnyStream
import MRpc.Rpc.CallTable
import MRpc.Rpc.Agreement
import MRpc.Rpc.Serving
import MRpc.Rpc.Ids
import MRpc.Rpc.Binding
import MRpc.Rpc.Outcome
import MRpc.Rpc.Progress
import MRpc.Rpc.Stream
import MRpc.Rpc.AnyPeer
import MRpc.Rpc.AnyBytes
import MRpc.Tcp.ConnRuns
import MRpc.Tcp.Shutdown
import MRpc.Tcp.Balance
import MRpc.Tcp.ErrorPath
import MRpc.Tcp.Lifetime
import MRpc.Tcp.Handover
