import Durinn.Lib.Dict
import Durinn.Lib.Grouping
import Durinn.Lib.ListEdit
import Durinn.Lib.PyText
import Durinn.Lib.Tiling
import Durinn.Lib.OStream
import Durinn.Lib.Worklist
import Durinn.Trace.Parse
import Durinn.Trace.Pieces
import Durinn.Trace.Effects
import Durinn.Trace.Ranges
import Durinn.Trace.Indices
import Durinn.Trace.LockModeling
import Durinn.Trace.Allocs
import Durinn.Trace.Modes
import Durinn.Trace.TraceMT
import Durinn.Tracer.Record
import Durinn.Tracer.RoundTrip
import Durinn.Tracer.World
import Durinn.Tracer.Replay
import Durinn.Persist.Cache
import Durinn.Persist.ReplayOrder
import Durinn.Persist.WitcherCache
import Durinn.Persist.Agreement
import Durinn.Tracer.FlushRange
import Durinn.Tracer.Session
import Durinn.Tracer.Mapping
import Durinn.Tracer.Written
import Durinn.Tracer.ApiCalls
import Durinn.LastStore.Validator
import Durinn.LastStore.Jobs
import Durinn.LastStore.SamePoints
import Durinn.Threads.CrashImg
import Durinn.Race.Detector
import Durinn.Race.Points
import Durinn.Race.Pairs
import Durinn.Race.HeldLocks
import Durinn.Race.Overlaps
import Durinn.Race.TwoOps
import Durinn.Race.StopPoint
import Durinn.Oracle.Validate
import Durinn.Oracle.MapModel
import Durinn.Oracle.LastStoreMap
import Durinn.Oracle.ExtraKeys
import Durinn.Oracle.TwoThreadMap
import Durinn.Oracle.MapChecks
import Durinn.Oracle.Queue
import Durinn.Oracle.QueueGaps
import Durinn.Passes.LpsFromBrs
import Durinn.Passes.Numbering
import Durinn.Passes.SrcMap
import Durinn.Passes.TracerPass
import Durinn.Passes.Layout
import Durinn.Passes.Visitors
import Durinn.Passes.Expansion
import Durinn.Passes.Instrument
import Durinn.Passes.Execution
import Durinn.Passes.EndToEnd
import Durinn.LastStore.Phase
import Durinn.LastStore.Results
import Durinn.Lib.CText
import Durinn.Passes.LpPipeline
import Durinn.Race.FenceMap
import Durinn.Race.HandOff
import Durinn.Threads.Results
