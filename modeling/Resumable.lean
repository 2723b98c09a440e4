import Resumable.Bank
import Resumable.Board
import Resumable.Command
import Resumable.Command.Reader
import Resumable.Dispatcher.Basic
import Resumable.Dispatcher.Operation
import Resumable.Dispatcher.Serve
import Resumable.Dispatcher.Turn
import Resumable.Effect
import Resumable.Fault
import Resumable.Fifo
import Resumable.Label
import Resumable.Log
import Resumable.Pin
import Resumable.Plugin
import Resumable.Plugin.Blink
import Resumable.Plugin.Latch
import Resumable.Plugin.Ramp
import Resumable.Proofs.Blocking
import Resumable.Proofs.Coherence
import Resumable.Proofs.Commands
import Resumable.Proofs.Isolation
import Resumable.Proofs.Queue
import Resumable.Proofs.Reset
import Resumable.Proofs.Resume
import Resumable.Proofs.Running
import Resumable.Proofs.Schedule
import Resumable.Proofs.Serve
import Resumable.Proofs.Waits
import Resumable.Proofs.Workload
import Resumable.Reply
import Resumable.Request
import Resumable.Routine
import Resumable.Routine.Resume
import Resumable.Session
import Resumable.Time
import Resumable.Traced
import Resumable.Wait
import Resumable.Wait.Table
import Resumable.Wait.Waiter
import Resumable.Proofs.Pace
import Resumable.Proofs.Drain
import Resumable.Proofs.Notices
import Resumable.Proofs.Signals
import Resumable.Proofs.Outputs
import Resumable.Proofs.Reuse
import Resumable.Proofs.Tally
import Resumable.Proofs.RampScore
import Resumable.Proofs.Ring
import Resumable.Proofs.BlinkScore
import Resumable.Proofs.WaitHistory
import Resumable.Proofs.Tick
import Resumable.Proofs.Deadlines
import Resumable.Proofs.Renewal
import Resumable.Proofs.Reading
import Resumable.Proofs.Routing
import Resumable.Proofs.Counting
import Resumable.Proofs.Refusals
import Resumable.Proofs.Replies
