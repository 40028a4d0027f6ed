import Halcyon.Budget.Fair
import Halcyon.Clock.Readers
import Halcyon.Dtb.Navigation
import Halcyon.Elf.Panics
import Halcyon.Handles.Attenuation
import Halcyon.Handles.Failures
import Halcyon.Jobs.Sealing
import Halcyon.Paths.Boundaries
import Halcyon.Pool.Conservation
import Halcyon.Runnel.Sticky
import Halcyon.Runnel.Stream
import Halcyon.Sched.Wakeups
import Halcyon.Space.Accounting
import Halcyon.Space.Holes
import Halcyon.Space.Publication
import Halcyon.Space.Releases
import Halcyon.Space.Rollbacks
import Halcyon.Space.Sharing
import Halcyon.Space.Translations
import Halcyon.Stack.Layout
import Halcyon.Startup.RoundTrip
import Halcyon.Supply.Partition
import Halcyon.Tasks.Steps
import Halcyon.Threads.Stranded
import Halcyon.Timers.Registration
