import YlUtils.Lists.Linked
import YlUtils.Text.CString
import YlUtils.Sign.Sign
import YlUtils.Cache.Manager
import YlUtils.Cache.View
import YlUtils.Runs.Succeeds
import YlUtils.Cache.Slots
import YlUtils.Cache.Layout
import YlUtils.Cache.Refinement
import YlUtils.Cache.Invariant
import YlUtils.Cache.Lru
import YlUtils.Cache.Lookup
import YlUtils.Ciphers.InPlace
import YlUtils.Encoding.Xxtea
import YlUtils.Encoding.XxteaInverse
import YlUtils.Encoding.XxteaPacking
import YlUtils.Encoding.XxteaRoundTrip
import YlUtils.Encoding.Base64
import YlUtils.Encoding.Base64RoundTrip
import YlUtils.Encoding.Edcode
import YlUtils.Encoding.Ku6Encrypt
import YlUtils.Http.HttpQuery
import YlUtils.Http.Unescape
import YlUtils.Http.Grammar
import YlUtils.Http.Recv
import YlUtils.Http.URLEncoder
import YlUtils.Mysql.MysqlDB
import YlUtils.Machine.Words
import YlUtils.Maps.UniqueMap
import YlUtils.Dict.Dict
import YlUtils.Dict.Image
import YlUtils.Dict.World
import YlUtils.Streams.Program
import YlUtils.Streams.Pipe
import YlUtils.Net.StdSocket
import YlUtils.Net.Socket4Object
import YlUtils.Machine.Fields
import YlUtils.Sign.Id3
import YlUtils.Sign.FileSignature
import YlUtils.Sign.Tagged
import YlUtils.Sign.Signature
import YlUtils.Sign.VerifyCode
import YlUtils.Concurrency.Schedule
import YlUtils.Concurrency.Threads
import YlUtils.Container.SafeContainerBySem
import YlUtils.Container.SemInvariant
import YlUtils.Container.Clear
import YlUtils.Concurrency.Cond
import YlUtils.Container.PcQueue
import YlUtils.Mysql.MysqlConnPool
import YlUtils.Net.MTService
import YlUtils.Log.LocalLog
import YlUtils.Files.FileSystem
import YlUtils.Log.Logger
import YlUtils.Log.Rotation
import YlUtils.Machine.Representation
import YlUtils.Cache.Persistence
import YlUtils.Cache.Twin
import YlUtils.Cache.Reload
import YlUtils.Cache.Safety
import YlUtils.Cache.Overwrite
import YlUtils.Cache.FailedLoad
import YlUtils.Dict.FailedLoad
import YlUtils.Container.CommonIndex
import YlUtils.Container.IndexFiles
import YlUtils.Encoding.Base64Size
import YlUtils.Encoding.YeeBase64
import YlUtils.Encoding.YeeBase64RoundTrip
import YlUtils.Encoding.YeeBase64Keyed
import YlUtils.Http.URLDecoder
import YlUtils.Http.URLOverloads
import YlUtils.Sign.Sampling
import YlUtils.Sign.UlPrime
import YlUtils.Sign.Recognition
import YlUtils.Net.ConnectReports
import YlUtils.Http.QueryString
import YlUtils.Net.ConnectFlags
import YlUtils.Streams.Replies
import YlUtils.Net.SafeWrite
import YlUtils.Text.Search
import YlUtils.Net.HttpRequest
import YlUtils.Net.Fragmentation
import YlUtils.Net.UntrustedLength
import YlUtils.Net.ServerSocket
import YlUtils.Container.Interrupted
import YlUtils.Text.Lines
import YlUtils.Text.StdString
import YlUtils.Conf.Config
import YlUtils.Text.Scan
import YlUtils.Conf.Numbers
import YlUtils.Text.Pieces
import YlUtils.Text.YeeString
import YlUtils.Runs.Loop
import YlUtils.Text.Termination
import YlUtils.Text.RemoveSubstr
import YlUtils.Text.Stretches
import YlUtils.Text.Tokenize
import YlUtils.Text.HtmlTags
import YlUtils.Maps.Counts
import YlUtils.Text.Similarity
import YlUtils.Machine.Shifts
import YlUtils.Sign.CreateSign64
import YlUtils.Container.BitVector
import YlUtils.Text.Lower
import YlUtils.Container.BitVectorFile
import YlUtils.Machine.Heap
import YlUtils.Container.SimpleVector
import YlUtils.Mysql.FailedInit
import YlUtils.Log.SingleLog
import YlUtils.Log.SingleLogFiles
import YlUtils.Lists.Bisection
import YlUtils.Lists.Blocks
import YlUtils.Paths.FirstMax
import YlUtils.Paths.Trellis
import YlUtils.Segment.HBasDict
import YlUtils.Segment.LookupBasicDict
import YlUtils.Segment.SearchBasicDict
import YlUtils.Segment.CRoutine
import YlUtils.Segment.Emission
import YlUtils.Segment.DoSeg
import YlUtils.Segment.Segmentation
import YlUtils.Segment.Sbtmodel
import YlUtils.Segment.Viterbi
import YlUtils.Segment.Spans
import YlUtils.Segment.SetNewTag
import YlUtils.Segment.StatDisambi
import YlUtils.Segment.Disambiguation
import YlUtils.Paths.Offers
import YlUtils.Segment.SegPaths
import YlUtils.Container.CondInvariant
import YlUtils.Encoding.ChCode
import YlUtils.Segment.SegTagString
import YlUtils.Segment.TextPieces
import YlUtils.Segment.PieceShapes
