import Concore2full.WorkLine.Heap
import Concore2full.WorkLine.Chain
import Concore2full.WorkLine.Abstraction
import Concore2full.WorkLine.Invariant
import Concore2full.Context.Stack
import Concore2full.ThreadPool.Index
import Concore2full.ThreadPool.State
import Concore2full.ThreadPool.Step
import Concore2full.ThreadPool.Lines
import Concore2full.ThreadPool.Rounds
import Concore2full.ThreadPool.Counter
import Concore2full.ThreadPool.Wakeup
import Concore2full.ThreadPool.NoLostWakeup
import Concore2full.ThreadPool.Hints
import Concore2full.ThreadPool.Tasks
import Concore2full.ThreadPool.Shutdown
import Concore2full.ThreadPool.Drain
import Concore2full.ThreadPool.Fair
import Concore2full.ThreadPool.FairJoin
import Concore2full.ThreadPool.RoundRobin
