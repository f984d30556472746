import PerfHound.Lib.WriteBuffer
import PerfHound.Lib.Runs
import PerfHound.Lib.Adjacent
import PerfHound.Lib.RegProg
import PerfHound.Lib.LocalUpdates
import PerfHound.Lib.CText
import PerfHound.Lib.Decimal
import PerfHound.Lib.Messages
import PerfHound.Lib.StringBuffer
import PerfHound.Core
import PerfHound.Probe.Record
import PerfHound.Probe.RecText
import PerfHound.Probe.Serial
import PerfHound.Probe.Mpi
import PerfHound.Probe.Events
import PerfHound.Probe.RunDir
import PerfHound.Probe.EvtTables
import PerfHound.Probe.EvtX86
import PerfHound.Lib.Numeral
import PerfHound.Lib.BitFields
import PerfHound.Probe.EvtGrammar
import PerfHound.Probe.EvtReads
import PerfHound.Probe.EvtWords
import PerfHound.Probe.EvtAccept
import PerfHound.Probe.EvtNumbers
import PerfHound.Lib.Alike
import PerfHound.Probe.DumpMarkers
import PerfHound.Probe.EvtCase
import PerfHound.Kmod.Msr
import PerfHound.Kmod.Init
import PerfHound.Kmod.Counters
import PerfHound.Kmod.Sysfs
import PerfHound.Kmod.Policy
import PerfHound.Kmod.Reconfigure
import PerfHound.Kmod.Enable
import PerfHound.Kmod.Values
import PerfHound.Kmod.Words
import PerfHound.Kmod.ReadBack
import PerfHound.Kmod.Cleared
import PerfHound.Utils.Interval
import PerfHound.Utils.SerialIntervals
import PerfHound.Probe.Bounds
import PerfHound.Probe.Counting
import PerfHound.Probe.Stale
import PerfHound.Probe.Accounting
import PerfHound.Utils.ScanText
import PerfHound.Utils.OutBuffer
import PerfHound.Utils.Distribution
import PerfHound.Utils.Gather
import PerfHound.Probe.HostSetup
import PerfHound.Probe.HostRing
import PerfHound.Lib.Csv
import PerfHound.Probe.CsvFiles
import PerfHound.Probe.JobFiles
import PerfHound.Lib.PairScan
import PerfHound.Utils.RowLoop
import PerfHound.Utils.MissedPairs
import PerfHound.Utils.OutputBound
import PerfHound.Lib.Slots
import PerfHound.Utils.Blocks
import PerfHound.Utils.Rankmap
import PerfHound.Utils.RankmapBlocks
import PerfHound.Utils.CounterWidth
import PerfHound.Lib.CoarseToFine
import PerfHound.Resolution.Search
import PerfHound.Lib.Rounding
import PerfHound.Resolution.Noise
import PerfHound.Lib.Attempts
import PerfHound.Varstat.DataInit
import PerfHound.Lib.FileTree
import PerfHound.Probe.Mkdir
import PerfHound.Lib.Brackets
import PerfHound.Utils.PyIntervals
import PerfHound.Utils.PyRuns
import PerfHound.Utils.PyJobs
import PerfHound.Lib.OrderStat
import PerfHound.Utils.Summary
import PerfHound.Lib.SharedLog
import PerfHound.Utils.AllCsv
import PerfHound.Probe.Transcript
import PerfHound.Tests.RecChecks
import PerfHound.Kmod.Store
import PerfHound.Probe.EvtSpelling
import PerfHound.Probe.Startup
import PerfHound.Probe.Aarch64
import PerfHound.Utils.MpiJob
import PerfHound.Resolution.Session
import PerfHound.Lib.TextOrder
import PerfHound.Utils.LatestRun
import PerfHound.Lib.Dict
import PerfHound.Utils.TagPairs
