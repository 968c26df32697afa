import JobSystem.Library.TransitionSystem
import JobSystem.Library.Fairness
import JobSystem.Library.Precedence
import JobSystem.Library.Deque
import JobSystem.Library.Executors
import JobSystem.QueueDiscipline
import JobSystem.DependencyOrder
import JobSystem.Places
import JobSystem.Lifetime
import JobSystem.OpenJobs
import JobSystem.FrameWait
import JobSystem.Progress
import JobSystem.Completion
import JobSystem.FairRun
import JobSystem.FairWait
import JobSystem.Rest
import JobSystem.SingleWorker
import JobSystem.CleanCut
import JobSystem.Confinement
import JobSystem.RoundRobin
import JobSystem.GuardedWait
import JobSystem.StealJob
import JobSystem.SearchOrder
import JobSystem.BusyWait
import JobSystem.ThreadCount
import JobSystem.ReadInput
import JobSystem.Frames
import JobSystem.SerialExecutors
import JobSystem.Parallelism
import JobSystem.Overfull
import JobSystem.Buried
import JobSystem.Hang
import JobSystem.Quit
import JobSystem.Acyclic
import JobSystem.MainLoop
import JobSystem.FirstFrame
import JobSystem.Measure
