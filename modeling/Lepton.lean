import Lepton.Words
import Lepton.History
import Lepton.Search
import Lepton.HttpResponse
import Lepton.HttpBounds
import Lepton.HttpProgress
import Lepton.HttpWire
import Lepton.HttpExact
import Lepton.Loops
import Lepton.HttpChunked
import Lepton.HttpReply
import Lepton.Ledger
import Lepton.PoolModel
import Lepton.PoolInvariant
import Lepton.Linear
import Lepton.PoolStack
import Lepton.PoolProgress
import Lepton.PoolArena
import Lepton.Startup
import Lepton.TscClock
import Lepton.Custody
import Lepton.Owners
import Lepton.InplaceFunction
import Lepton.Names
import Lepton.Stream
import Lepton.TcpSocket
import Lepton.Poller
import Lepton.TlsStream
import Lepton.IoBuffer
import Lepton.Prefixed
import Lepton.TlsContext
import Lepton.Rfc4648
import Lepton.Base64
import Lepton.PoolCustody
import Lepton.Ring
import Lepton.TlsOrder
import Lepton.TlsWaiting
import Lepton.TlsFlush
import Lepton.TlsHandles
import Lepton.TlsStreams
import Lepton.WsFrame
import Lepton.WsCodec
import Lepton.Lanes
import Lepton.HwEndian
import Lepton.WsMask
import Lepton.Congruential
import Lepton.WsKeys
import Lepton.WsUpgrade
import Lepton.WsResponse
import Lepton.HttpLines
import Lepton.HttpCase
import Lepton.HttpLengths
import Lepton.WsVerdict
import Lepton.WsSession
import Lepton.WsFlow
import Lepton.WsEverywhere
import Lepton.WsCalm
import Lepton.WsOwnership
import Lepton.WsLink
import Lepton.WsLifecycle
import Lepton.WsMarks
import Lepton.WsLive
import Lepton.WsKeepalive
import Lepton.WsPacing
import Lepton.WsBackoff
import Lepton.WsOpen
import Lepton.WsBegin
import Lepton.WsQueue
import Lepton.WsClose
import Lepton.WsOutput
import Lepton.WsEnqueue
import Lepton.WsEdge
import Lepton.WsSafe
import Lepton.WsWire
import Lepton.WsReentry
import Lepton.Fragments
import Lepton.WsReceive
import Lepton.WsExact
import Lepton.WsSegments
import Lepton.WsDelivery
import Lepton.Enrolment
import Lepton.HttpClient
import Lepton.HttpBuild
import Lepton.HttpFlow
import Lepton.HttpOwnership
import Lepton.Ownership
import Lepton.HttpAside
import Lepton.HttpMatch
import Lepton.HttpReady
import Lepton.HttpOutput
import Lepton.Codes
import Lepton.WsServer
import Lepton.HttpServer
import Lepton.Handshake
import Lepton.Reentry
import Lepton.Backlog
import Lepton.Retry
import Lepton.EventLoop
import Lepton.LoopThread
import Lepton.Dispatch
import Lepton.Registration
import Lepton.HttpDeadlines
import Lepton.WsProgress
