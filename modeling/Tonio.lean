import Tonio.Theorems.Channel
import Tonio.Theorems.Closing
import Tonio.Theorems.Capacity
import Tonio.Theorems.Abandoned
import Tonio.Theorems.Lock
import Tonio.Theorems.Semaphore
import Tonio.Theorems.Work
import Tonio.Theorems.Shutdown
import Tonio.Theorems.Speculation
import Tonio.Theorems.Event
import Tonio.Theorems.Sentinel
import Tonio.Theorems.Continuity
import Tonio.Theorems.Reschedule
import Tonio.Theorems.Cancellation
import Tonio.Theorems.Blocking
import Tonio.Theorems.Budget
import Tonio.Theorems.Pool
import Tonio.Theorems.Await
import Tonio.Theorems.Schedule
import Tonio.Theorems.Tick
import Tonio.Theorems.Signals
import Tonio.Theorems.Registry
import Tonio.Theorems.Fd
import Tonio.Theorems.Streams
import Tonio.Theorems.Tls
import Tonio.Theorems.TlsState
import Tonio.Theorems.TcpStream
import Tonio.Theorems.Spawn
import Tonio.Theorems.Ctl
import Tonio.Theorems.AsCompleted
import Tonio.Theorems.Scope
import Tonio.Theorems.Context
import Tonio.Theorems.Trampoline
import Tonio.Theorems.Time
import Tonio.Theorems.Socket
import Tonio.Theorems.Subprocess
import Tonio.Theorems.Listeners
import Tonio.Theorems.Popen
import Tonio.Theorems.Receivers
import Tonio.Theorems.Contexts
import Tonio.Theorems.Barrier
import Tonio.Theorems.Interval
import Tonio.Theorems.Lifecycle
