import TickPipeline.Models
import TickPipeline.RingBuffer
import TickPipeline.SequencerLaws
import TickPipeline.CandleLaws
import TickPipeline.PersistedRows
import TickPipeline.ChartEvents
import TickPipeline.Isolation
import TickPipeline.NegativeHistory
import TickPipeline.EndToEnd
import TickPipeline.FailingFlush
import TickPipeline.NewestTick
import TickPipeline.FlushLaws
import TickPipeline.Held
import TickPipeline.VwapLaws
import TickPipeline.ExactWriter
import TickPipeline.Lib.LatestRows
import TickPipeline.TimeseriesStore
import TickPipeline.ReadPaths
import TickPipeline.GapLaws
import TickPipeline.LatePatches
import TickPipeline.Broadcast
import TickPipeline.BroadcastLaws
import TickPipeline.RollUp
import TickPipeline.OpenClose
import TickPipeline.LostTicks
import TickPipeline.CoinbaseClient
import TickPipeline.Redelivery
import TickPipeline.Lib.WeightedMean
import TickPipeline.VwapAnyOrder
import TickPipeline.Lib.IdSpans
import TickPipeline.SequencerCounters
import TickPipeline.Lib.Smoothing
import TickPipeline.MovingAverageLaws
import TickPipeline.BadMessages
import TickPipeline.DrainArguments
import TickPipeline.StatsLag
import TickPipeline.LoadTest
import TickPipeline.PushBlocking
import TickPipeline.WaitingCalls
import TickPipeline.ConnectionLoop
import TickPipeline.Lib.LiveSeries
import TickPipeline.Dashboard
import TickPipeline.LiveChart
import TickPipeline.Server
import TickPipeline.Resync
import TickPipeline.PageRuns
import TickPipeline.Benchmark
import TickPipeline.Routes
import TickPipeline.CatchUp
