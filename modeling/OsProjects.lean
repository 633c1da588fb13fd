import OsProjects.Findlw.Agreement
import OsProjects.Rsm.Arithmetic
import OsProjects.Rsm.Deferred
import OsProjects.Rsm.Failures
import OsProjects.Rsm.Identity
import OsProjects.Mfs.Soundness
import OsProjects.Mfs.Concurrency
import OsProjects.Mfs.Rollback
import OsProjects.Mfs.Table
import OsProjects.Mfs.Root
import OsProjects.Mfs.Bounds
import OsProjects.Mfs.Acknowledged
import OsProjects.Mfs.Failing
import OsProjects.Mfs.Splitting
import OsProjects.Tus.Fcfs
import OsProjects.Tus.Joins
import OsProjects.Tus.Counters
import OsProjects.Findlw.Canonical
import OsProjects.Findlw.Termination
import OsProjects.Findlw.Threads
import OsProjects.Tus.ForkJoin
import OsProjects.Rsm.Monitor
import OsProjects.Rsm.Lifetime
import OsProjects.Mfs.Device
