import LockfreeMatching.Lib.Loop
import LockfreeMatching.Lib.LinkedList
import LockfreeMatching.Lib.StableSort
import LockfreeMatching.Lib.Greedy
import LockfreeMatching.Lib.BoundedFifo
import LockfreeMatching.Lib.Ring
import LockfreeMatching.Lib.Windows
import LockfreeMatching.Lib.Ledger
import LockfreeMatching.Lib.Offers
import LockfreeMatching.Lib.OrderedMap
import LockfreeMatching.Lib.EventLoop
import LockfreeMatching.Lib.Histogram
import LockfreeMatching.Lib.Json
import LockfreeMatching.Lib.Records
import LockfreeMatching.Core.Types
import LockfreeMatching.Core.MemoryPool
import LockfreeMatching.Core.PriceLevel
import LockfreeMatching.Core.LevelRun
import LockfreeMatching.Core.OrderBook
import LockfreeMatching.Core.BookInvariant
import LockfreeMatching.Core.BookRun
import LockfreeMatching.Core.MatchingEngine
import LockfreeMatching.Core.EngineInvariant
import LockfreeMatching.Core.Reference
import LockfreeMatching.Core.View
import LockfreeMatching.Core.Refinement
import LockfreeMatching.Core.EngineRun
import LockfreeMatching.Core.Conservation
import LockfreeMatching.Core.Outcome
import LockfreeMatching.Core.BestExecution
import LockfreeMatching.Core.Symmetry
import LockfreeMatching.Core.Laws
import LockfreeMatching.Core.Slicing
import LockfreeMatching.Transport.SpscQueue
import LockfreeMatching.Transport.SpscSafety
import LockfreeMatching.Transport.SpscCalls
import LockfreeMatching.Transport.MessageBytes
import LockfreeMatching.Pipeline.Threads
import LockfreeMatching.Pipeline.Shutdown
import LockfreeMatching.Feed.FeedHandler
import LockfreeMatching.Feed.Counters
import LockfreeMatching.Feed.Delivery
import LockfreeMatching.Feed.Depth
import LockfreeMatching.Feed.Reconnect
import LockfreeMatching.Feed.Tracking
import LockfreeMatching.Feed.Live
import LockfreeMatching.Feed.Mirror
import LockfreeMatching.Feed.Executions
import LockfreeMatching.Feed.Overload
import LockfreeMatching.Feed.WsClient
import LockfreeMatching.Metrics.LatencyTracker
import LockfreeMatching.Metrics.Percentiles
import LockfreeMatching.Metrics.TradeLogger
import LockfreeMatching.Metrics.MetricsCollector
import LockfreeMatching.Server.DashboardHub
import LockfreeMatching.Server.Tape
import LockfreeMatching.Server.Ladder
import LockfreeMatching.Server.Frame
import LockfreeMatching.Server.WsServer
import LockfreeMatching.Server.SessionView
import LockfreeMatching.Server.Sessions
import LockfreeMatching.Server.HubThreads
import LockfreeMatching.Server.Shutdown
import LockfreeMatching.Server.Broadcast
import LockfreeMatching.Dashboard.App
import LockfreeMatching.Dashboard.EngineSocket
import LockfreeMatching.Pipeline.Telemetry
import LockfreeMatching.Pipeline.Accounting
import LockfreeMatching.Pipeline.Reports
import LockfreeMatching.Pipeline.Totals
import LockfreeMatching.Tools.SyntheticWorkload
import LockfreeMatching.Tools.OrderFile
import LockfreeMatching.Bench.MapBookEngine
import LockfreeMatching.Bench.Agreement
import LockfreeMatching.Lib.Fairness
import LockfreeMatching.Pipeline.Progress
