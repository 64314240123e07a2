import Fstest.Fsmark.Durable
import Fstest.Fsmark.Run
import Fstest.Fsstress.Agreement
import Fstest.Fsstress.Duration
import Fstest.Fsstress.Ids
import Fstest.Fsx.DestRange
import Fstest.Fsx.Mapped
import Fstest.Fsx.Replay
import Fstest.Git.Run
import Fstest.Git.Tap
import Fstest.Harness.Parallel
import Fstest.Harness.Tail
import Fstest.Harness.Timeout
import Fstest.Ltp.RunDirect
import Fstest.Mdtest.Detection
import Fstest.Mdtest.Invocations
import Fstest.Mdtest.Renames
import Fstest.Mdtest.TreeSize
import Fstest.Mdtest.Verdict
import Fstest.Mdworkbench.Aggregate
import Fstest.Mdworkbench.Failures
import Fstest.Mdworkbench.Release
import Fstest.Mdworkbench.Resume
import Fstest.Mdworkbench.WrapAround
import Fstest.Mptest.Claiming
import Fstest.Mptest.Counters
import Fstest.Mptest.Cursor
import Fstest.Mptest.Glob
import Fstest.Mptest.Report
import Fstest.Mptest.Shutdown
import Fstest.Mptest.TermString
import Fstest.Mptest.Waiting
import Fstest.Mptest.WorkDirs
import Fstest.Pjdfstest.Counts
import Fstest.Pjdfstest.ParseNum
import Fstest.Smallfile.Dates
import Fstest.Smallfile.Readdir
import Fstest.Smallfile.Stonewall
import Fstest.Smallfile.Sweeping
import Fstest.Smallfile.SwiftPut
import Fstest.Stdfs.RustMoved
import Fstest.Stdfs.Verdict
