import MoonPprof.DemangleRoundTrip
import MoonPprof.RawStreamRoundTrip
import MoonPprof.RetainedHeap
import MoonPprof.ChromeTraceRoundTrip
import MoonPprof.SpeedscopeRoundTrip
import MoonPprof.FoldedRoundTrip
import MoonPprof.GcAllocSimulation
import MoonPprof.GcAllocCoverage
import MoonPprof.CpuProfileForest
import MoonPprof.FirefoxMappings
import MoonPprof.FirefoxLocations
import MoonPprof.PerfConversion
import MoonPprof.PerfFrameLine
import MoonPprof.SummaryBalance
import MoonPprof.MemProfileDeterminism
import MoonPprof.FdWriteLines
import MoonPprof.GuestEnv
import MoonPprof.BenchTime
import MoonPprof.CpuProfileTermination
import MoonPprof.SummaryDiff
import MoonPprof.SummaryMemCum
import MoonPprof.FirefoxTermination
import MoonPprof.ChromeTraceDeltas
import MoonPprof.InlineFrames
import MoonPprof.DurationTimer
import MoonPprof.MemProfileSampling
import MoonPprof.FdWriteSafety
import MoonPprof.ShellSplit
import MoonPprof.StackTrie
import MoonPprof.SamplyLookup
import MoonPprof.HeapProfile
import MoonPprof.DemangleTotal
import MoonPprof.ChromeTraceExpand
import MoonPprof.ChromeTraceOverflow
import MoonPprof.SpeedscopeWeights
import MoonPprof.MallocWrap
import MoonPprof.PrintChar
import MoonPprof.GuestCalls
import MoonPprof.NativeProfile
import MoonPprof.GuestSession
import MoonPprof.MemProfileReads
import MoonPprof.AllocProcess
import MoonPprof.ImportersClosed
import MoonPprof.FormatsCommute
import MoonPprof.SourcePatch
import MoonPprof.PerfText
import MoonPprof.SummaryReads
import MoonPprof.PerfSummary
import MoonPprof.HeapSummary
import MoonPprof.AllocationTrace
import MoonPprof.Ranking
import MoonPprof.SummaryReport
import MoonPprof.SummarySections
