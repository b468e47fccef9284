import Pitos.Properties.Activation
import Pitos.Properties.Alarms
import Pitos.Properties.Allocation
import Pitos.Properties.Arena
import Pitos.Properties.Calendar
import Pitos.Properties.Charges
import Pitos.Properties.Clock
import Pitos.Properties.Console
import Pitos.Properties.Dispatch
import Pitos.Properties.Endings
import Pitos.Properties.Exceptions
import Pitos.Properties.Exhaustion
import Pitos.Properties.Formats
import Pitos.Properties.Gates
import Pitos.Properties.Handlers
import Pitos.Properties.Handover
import Pitos.Properties.Heap
import Pitos.Properties.Idle
import Pitos.Properties.Ignored
import Pitos.Properties.Keys
import Pitos.Properties.Log
import Pitos.Properties.Masks
import Pitos.Properties.Messages
import Pitos.Properties.Nesting
import Pitos.Properties.Numerals
import Pitos.Properties.OsName
import Pitos.Properties.Pending
import Pitos.Properties.Permits
import Pitos.Properties.Placement
import Pitos.Properties.Queues
import Pitos.Properties.Results
import Pitos.Properties.RoundRobin
import Pitos.Properties.Scanning
import Pitos.Properties.Semaphores
import Pitos.Properties.Stacks
import Pitos.Properties.Start
import Pitos.Properties.Starvation
import Pitos.Properties.States
import Pitos.Properties.Strtol
import Pitos.Properties.Switching
import Pitos.Properties.Syscalls
import Pitos.Properties.Transfers
import Pitos.Properties.Waiting
import Pitos.Refinement.Annotation
import Pitos.System.Storage
