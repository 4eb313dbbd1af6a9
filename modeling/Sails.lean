import Sails.Library.Run
import Sails.Library.RunLog
import Sails.Library.CMemory
import Sails.Library.LexicalPath
import Sails.Library.OrderedMultimap
import Sails.Library.Ledger
import Sails.Library.FifoHistory
import Sails.Library.ForwardList
import Sails.Library.DoublyLinked
import Sails.Library.NodeList
import Sails.Library.FirstIterate
import Sails.Library.ByteOrder
import Sails.Library.Mutex
import Sails.Library.PackedId
import Sails.Library.TextReader
import Sails.Library.BlockHash
import Sails.Library.Tokens
import Sails.Library.KeyedRows
import Sails.Library.OrderedMap
import Sails.Library.Scanf
import Sails.Library.FirstHit
import Sails.Library.Coalesce
import Sails.Library.WordMatch
import Sails.Base.Buffer
import Sails.Base.Buffer.Words
import Sails.Base.Buffer.Fifo
import Sails.Base.Buffer.Copying
import Sails.Base.Buffer.Shrink
import Sails.Base.Buffer.ReadStr
import Sails.Base.Strings
import Sails.Base.UrlCoding
import Sails.Base.Filesys
import Sails.Base.Substr
import Sails.Base.Uid
import Sails.Base.HandleChain
import Sails.Base.TimeT
import Sails.Base.UrlCoding.Encoding
import Sails.Base.UrlCoding.Inverse
import Sails.Base.UrlCoding.Bounds
import Sails.Base.UrlCoding.HexCase
import Sails.Base.AutoData
import Sails.Base.AutoData.Copies
import Sails.Base.AutoData.Sound
import Sails.Base.AutoData.Equality
import Sails.Base.EventLoop
import Sails.Base.EventTable
import Sails.Base.EventTable.WriteInterest
import Sails.Base.EventTable.WellFormed
import Sails.Base.EventTable.Effects
import Sails.Base.EventTable.Refusal
import Sails.Base.EventTable.ProcessEvent
import Sails.Base.EventTable.Reentrancy
import Sails.Base.EventTable.Range
import Sails.Base.ThreadQueue
import Sails.Base.ThreadQueue.Counter
import Sails.Base.ThreadQueue.Delivery
import Sails.Base.ReadWriteLock
import Sails.Base.IntrusiveList
import Sails.Base.IntrusiveList.Iteration
import Sails.Base.ConstantPtrList
import Sails.Base.ConstantPtrList.Slots
import Sails.Base.ThreadPool
import Sails.Base.ThreadPool.Delivery
import Sails.Base.ThreadPool.Shutdown
import Sails.Base.MemoryPool
import Sails.Base.MemoryPool.Blocks
import Sails.Base.MemoryPool.Runs
import Sails.Crypto.Md5
import Sails.Crypto.Md5.Streaming
import Sails.Net.Http.Message
import Sails.Net.Http.Safety
import Sails.Net.Http.Headers
import Sails.Net.Http.Fragments
import Sails.Net.Http.Serialize
import Sails.Net.Http.Body
import Sails.Net.Http.RequestGrammar
import Sails.Net.Http.Response
import Sails.Net.Http.Request
import Sails.Net.Http.Setters
import Sails.Net.Http.Url
import Sails.Net.Http.Params
import Sails.Net.Http.Params.RoundTrip
import Sails.Net.Http.Params.Splitting
import Sails.Net.Http.Params.Inverse
import Sails.Net.HttpServer.Parse
import Sails.Net.HttpServer.Process
import Sails.Net.HttpServer.FileDescriptors
import Sails.Net.Connector
import Sails.Net.ConnectorList
import Sails.Net.ConnectorSlots
import Sails.Net.ConnectorFamily
import Sails.Net.ConnectorList.History
import Sails.Net.ConnectorList.Expiry
import Sails.Net.ConnectorList.Activity
import Sails.Net.ConnectorList.Reuse
import Sails.Net.NetThread
import Sails.Net.NetThread.Steps
import Sails.Net.NetThread.Waiting
import Sails.Net.Connections
import Sails.Net.Connections.Streams
import Sails.Net.Connections.Life
import Sails.Net.Connections.Settled
import Sails.Net.NetThread.Simulation
import Sails.Net.NetThread.Accepted
import Sails.Net.NetThread.Output
import Sails.Net.NetThread.Lifecycle
import Sails.Net.NetThread.Wakeup
import Sails.Net.NetThread.Reading
import Sails.Net.NetThread.EdgeTriggered
import Sails.Net.NetThread.Stranded
import Sails.Net.NetThread.Recycling
import Sails.Net.NetThread.Ticking
import Sails.Net.NetThreads
import Sails.Net.ServerInit
import Sails.Net.Descriptors
import Sails.Net.Timeouts
import Sails.Net.Dispatch
import Sails.Net.Dispatch.Ownership
import Sails.Net.Dispatch.Order
import Sails.Net.Netbios
import Sails.Net.Mime
import Sails.Net.Netbios.Received
import Sails.Net.Netbios.Accepted
import Sails.Net.Netbios.Names
import Sails.Log.Level
import Sails.Net.HttpParser.Chars
import Sails.Net.HttpParser.State
import Sails.Net.HttpParser.Plan
import Sails.Net.HttpParser.Url
import Sails.Net.HttpParser.UrlGrammar
import Sails.Net.HttpParser.UrlFields
import Sails.Net.HttpParser.UrlAnswers
import Sails.Net.Http.HeaderCase
import Sails.Net.HttpParser.Switch
import Sails.Net.HttpParser.Execute
import Sails.Net.HttpParser.Discipline
import Sails.Net.HttpParser.Bytewise
import Sails.Net.HttpParser.Runs
import Sails.Net.HttpParser.Order
import Sails.Net.HttpParser.Segments
import Sails.Net.HttpParser.Reading
import Sails.Net.HttpParser.Answers
import Sails.Net.HttpParser.FirstLine
import Sails.Net.HttpParser.HeaderNames
import Sails.Net.HttpParser.HeaderValues
import Sails.Net.HttpParser.Requests
import Sails.Net.HttpParser.Chunked
import Sails.Net.HttpParser.Records
import Sails.Net.HttpParser.RecordSafety
import Sails.Net.HttpParser.Sent
