import Funtrace.Viz.Sample
import Funtrace.Viz.Events
import Funtrace.Proof.Conservation
import Funtrace.Proof.Nesting
import Funtrace.Proof.RealRun
import Funtrace.Proof.Catches
import Funtrace.Proof.Jumps
import Funtrace.Proof.Agreement
import Funtrace.Proof.Spans
import Funtrace.Proof.Snapshots
import Funtrace.Proof.Disabled
import Funtrace.Proof.ThreadExit
import Funtrace.Proof.Accesses
import Funtrace.Proof.Times
import Funtrace.Proof.Collector
import Funtrace.Proof.CountedFunctions
import Funtrace.Proof.FtraceHandler
import Funtrace.Proof.Progress
import Funtrace.Proof.Unclosed
import Funtrace.Proof.Truncation
import Funtrace.Proof.RoundTrip
import Funtrace.Proof.PrintedTimes
import Funtrace.Proof.JsonText
import Funtrace.Proof.JsonForm
import Funtrace.Proof.Garbage
import Funtrace.Proof.ThreadFilter
import Funtrace.Proof.SnapshotAge
import Funtrace.Proof.KernelLines
import Funtrace.Proof.Orphans
import Funtrace.Proof.FilterAsm
import Funtrace.Proof.FilterDecisions
import Funtrace.Proof.Commands
import Funtrace.Proof.FullSnapshots
import Funtrace.Proof.Independence
import Funtrace.Proof.HookRuns
import Funtrace.Proof.Viewer
import Funtrace.Proof.Consistent
import Funtrace.Proof.ProcessViewer
