import Nghttp2Asio.Library.SegmentStack
import Nghttp2Asio.Library.Trace
import Nghttp2Asio.Library.Channel
import Nghttp2Asio.Library.Automaton
import Nghttp2Asio.Library.SendBuffer
import Nghttp2Asio.Library.SendLoop
import Nghttp2Asio.Library.EventLoop
import Nghttp2Asio.Library.CheckedBuffer
import Nghttp2Asio.Util
import Nghttp2Asio.Decimal
import Nghttp2Asio.Library.Calendar
import Nghttp2Asio.HttpDate
import Nghttp2Asio.UrlParser
import Nghttp2Asio.UrlGrammar
import Nghttp2Asio.UrlAuthority
import Nghttp2Asio.RequestTarget
import Nghttp2Asio.PathJoin
import Nghttp2Asio.PathStack
import Nghttp2Asio.PathBuffer
import Nghttp2Asio.Http
import Nghttp2Asio.Library.NestedSwitch
import Nghttp2Asio.LookupToken
import Nghttp2Asio.PercentCoding
import Nghttp2Asio.Generator
import Nghttp2Asio.Library.LongestMatch
import Nghttp2Asio.ServeMux
import Nghttp2Asio.Routing
import Nghttp2Asio.CleanRedirect
import Nghttp2Asio.CheckPath
import Nghttp2Asio.Alpn
import Nghttp2Asio.Library.FlatMemory
import Nghttp2Asio.BlockAllocator
import Nghttp2Asio.Library.PointerChain
import Nghttp2Asio.AllocatorLifetime
import Nghttp2Asio.StringArena
import Nghttp2Asio.ServerResponse
import Nghttp2Asio.ServerHandler
import Nghttp2Asio.ClientStream
import Nghttp2Asio.Submit
import Nghttp2Asio.UrlBounds
import Nghttp2Asio.HostService
import Nghttp2Asio.ClientResponse
import Nghttp2Asio.EndOfBody
import Nghttp2Asio.Delivery
import Nghttp2Asio.Exchange
import Nghttp2Asio.Arrival
import Nghttp2Asio.PushArrival
import Nghttp2Asio.Dispatch
import Nghttp2Asio.DefaultHandlers
import Nghttp2Asio.DateHeader
import Nghttp2Asio.FileGenerator
import Nghttp2Asio.HeaderBudget
import Nghttp2Asio.Writers
import Nghttp2Asio.ClientSession
import Nghttp2Asio.ClientClosing
import Nghttp2Asio.ClientLifecycle
import Nghttp2Asio.ClientSupervision
import Nghttp2Asio.ClientQuiescence
import Nghttp2Asio.ClientSetup
import Nghttp2Asio.ServerConnection
import Nghttp2Asio.ServerSupervision
import Nghttp2Asio.Library.RoundRobin
import Nghttp2Asio.AcceptLoop
import Nghttp2Asio.Supervision
import Nghttp2Asio.ServerOwnership
