import ZTask.Handle.Registry
import ZTask.Server.Exclusive
import ZTask.Snc.Matching
import ZTask.Snc.Timers
import ZTask.Timer.Schedule
import ZTask.Harbor.Names
import ZTask.Harbor.Parser
import ZTask.Harbor.RoundTrip
import ZTask.Cluster.Frames
import ZTask.Cluster.RoundTrip
import ZTask.Cslave.Agreement
import ZTask.Cslave.Waiting
import ZTask.Datacenter.Answers
import ZTask.DebugChannel.Boxes
import ZTask.DebugChannel.Lifetimes
import ZTask.Handle.Dangling
import ZTask.Harbor.Delivery
import ZTask.Harbor.Guarantees
import ZTask.Harbor.Limits
import ZTask.Harbor.Reconnect
import ZTask.Harbor.Robustness
import ZTask.Http.Acceptance
import ZTask.Http.Headers
import ZTask.Http.Httpd
import ZTask.Http.RoundTrip
import ZTask.Http.SocketHelper
import ZTask.Lib.Custody
import ZTask.Lib.Packets
import ZTask.Lib.Scatter
import ZTask.Lock.RwLock
import ZTask.LuaService.Dispatch
import ZTask.LuaService.Queue
import ZTask.LuaService.Scheduling
import ZTask.LuaService.WakeUps
import ZTask.LuaService.Watching
import ZTask.LuaSocket.Nodes
import ZTask.LuaSocket.Object
import ZTask.LuaSocket.Reading
import ZTask.LuaSocket.Refinement
import ZTask.LuaSocket.Suspension
import ZTask.Master.Names
import ZTask.Master.Registration
import ZTask.Netpack.Delivery
import ZTask.Seri.Decode
import ZTask.Seri.Encode
import ZTask.Seri.RoundTrip
import ZTask.Server.Fifo
import ZTask.Server.Payload
import ZTask.Server.WakeUp
import ZTask.ServiceMgr.Answers
import ZTask.Sharedata.Agreement
import ZTask.Snc.Bookkeeping
import ZTask.Socket.ReserveId
import ZTask.Socket.Resources
import ZTask.Socket.Responses
import ZTask.SocketChannel.Channel
import ZTask.SocketChannel.Order
import ZTask.Stm.Lifetimes
import ZTask.Timer.Cancel
import ZTask.Timer.Cancellation
import ZTask.Bson.Data
import ZTask.Bson.Encodable
import ZTask.Bson.RoundTrip
import ZTask.Bson.Keeping
import ZTask.Crypt.Base64
import ZTask.Crypt.DesBlock
import ZTask.Crypt.DesText
import ZTask.Crypt.DiffieHellman
import ZTask.Crypt.Hex
import ZTask.Mongo.OpReply
import ZTask.Curl.Buffer
import ZTask.Curl.Transfer
import ZTask.Harbor.Ring
import ZTask.Mysql.Quote
import ZTask.Seri.Blocks
import ZTask.Bson.Index
import ZTask.Bson.Replace
import ZTask.Sproto.Lpack
import ZTask.Crypt.Sha1
import ZTask.Lib.Absorb
import ZTask.Lib.SecureHash
import ZTask.Crypt.Sha1Compress
import ZTask.Crypt.Sha1Digest
import ZTask.Sproto.Lencode
