import Xzmjx.StepSystem
import Xzmjx.FallibleCalls
import Xzmjx.BlockList
import Xzmjx.OrderedSet
import Xzmjx.OneShot
import Xzmjx.PushParser
import Xzmjx.ByteOrder
import Xzmjx.Varint
import Xzmjx.ByteArrayModel
import Xzmjx.ByteArrayLoops
import Xzmjx.ByteArrayRefinement
import Xzmjx.ByteArrayReads
import Xzmjx.ByteArrayCodec
import Xzmjx.ByteArrayRoundTrip
import Xzmjx.ByteArrayBuffers
import Xzmjx.ByteArrayStrings
import Xzmjx.ByteArrayViews
import Xzmjx.ByteArrayFiles
import Xzmjx.ByteArrayBounds
import Xzmjx.TimerModel
import Xzmjx.TimerInvariant
import Xzmjx.TimerRuns
import Xzmjx.TimerDeadlines
import Xzmjx.IOManagerModel
import Xzmjx.IOManagerCoherence
import Xzmjx.IOManagerSpecs
import Xzmjx.IOManagerRuns
import Xzmjx.IOManagerBulk
import Xzmjx.IOManagerStale
import Xzmjx.SchedulerModel
import Xzmjx.SchedulerCustody
import Xzmjx.SchedulerLedger
import Xzmjx.SchedulerResume
import Xzmjx.SchedulerDrain
import Xzmjx.FiberMutexModel
import Xzmjx.FiberMutexRuns
import Xzmjx.HttpParserUrl
import Xzmjx.HttpParserModel
import Xzmjx.HttpRequestModel
import Xzmjx.HttpParams
import Xzmjx.HttpParserInvariant
import Xzmjx.HttpSegmentation
import Xzmjx.HttpSessionRuns
import Xzmjx.StreamModel
import Xzmjx.StreamReads
import Xzmjx.StreamWrites
import Xzmjx.WebSocketModel
import Xzmjx.WebSocketSafety
import Xzmjx.WebSocketFrames
import Xzmjx.WebSocketRoundTrip
import Xzmjx.WebSocketEncoding
import Xzmjx.WebSocketControl
import Xzmjx.SchedulerBatch
import Xzmjx.TimerExpiry
import Xzmjx.TimerPunctuality
import Xzmjx.LastWrite
import Xzmjx.ServletDispatch
import Xzmjx.ConfigYaml
import Xzmjx.ConfigCast
import Xzmjx.HookFlags
import Xzmjx.LogConfig
import Xzmjx.ConfigVarCalls
import Xzmjx.SchedulerAffinity
import Xzmjx.DoIoModel
import Xzmjx.DoIoTimeouts
import Xzmjx.UrlCoding
import Xzmjx.HttpParamMaps
import Xzmjx.HttpParamRoundTrip
import Xzmjx.HttpParamLookup
import Xzmjx.Base64Model
import Xzmjx.Base64RoundTrip
import Xzmjx.ByteWords
import Xzmjx.BitmapModel
import Xzmjx.BitmapArray
import Xzmjx.BitmapPadding
import Xzmjx.BitmapObservations
import Xzmjx.HttpDump
import Xzmjx.HttpFraming
import Xzmjx.HttpServerRuns
import Xzmjx.HttpBodyBytes
import Xzmjx.HttpBodyAnnounced
import Xzmjx.HttpBodyLimit
import Xzmjx.BloomFilter
import Xzmjx.CircleBuffer
import Xzmjx.ChannelModel
import Xzmjx.ChannelClosing
import Xzmjx.PrefixMask
import Xzmjx.AddressModel
import Xzmjx.AddressSubnets
import Xzmjx.AddressOrder
import Xzmjx.Numerals
import Xzmjx.Ipv6Notation
import Xzmjx.AddressText
import Xzmjx.TextStreams
import Xzmjx.ConfigScalars
import Xzmjx.LogDefineYaml
import Xzmjx.StringTrim
import Xzmjx.VarintBounds
import Xzmjx.FileTree
import Xzmjx.FSUtilRm
import Xzmjx.FdManagerModel
import Xzmjx.LogPattern
import Xzmjx.LogFormatterModel
import Xzmjx.LogFormatting
import Xzmjx.PushParserTriples
import Xzmjx.HttpRequestLine
import Xzmjx.HttpTarget
import Xzmjx.HttpHeaderNames
import Xzmjx.HttpHeaderLines
import Xzmjx.HttpHeaderValues
import Xzmjx.HttpRequestRoundTrip
import Xzmjx.ChannelConservation
import Xzmjx.WebSocketServer
import Xzmjx.ConnectWithTimeout
import Xzmjx.HttpService
import Xzmjx.Linearization
import Xzmjx.ConfigLookup
import Xzmjx.SchedulerWakeups
import Xzmjx.LoggerTree
import Xzmjx.SleepHooks
import Xzmjx.EnvArguments
