import AtmegaScheduler.Kernel.Dispatch
import AtmegaScheduler.Kernel.Scheduler
import AtmegaScheduler.Kernel.ReadyList
import AtmegaScheduler.Kernel.Context
import AtmegaScheduler.Kernel.Isolation
import AtmegaScheduler.Avr.Interrupt
import AtmegaScheduler.Kernel.Restore
import AtmegaScheduler.Kernel.Startup
import AtmegaScheduler.Avr.CallConv
import AtmegaScheduler.Kernel.Args
import AtmegaScheduler.Kernel.Frame
import AtmegaScheduler.Lib.Ring
import AtmegaScheduler.Drivers.Fifo
import AtmegaScheduler.Drivers.Exclusion
import AtmegaScheduler.Lib.Access
import AtmegaScheduler.Drivers.IpcFifo
import AtmegaScheduler.Drivers.Delivery
import AtmegaScheduler.Kernel.TimerFlags
import AtmegaScheduler.Kernel.Slices
import AtmegaScheduler.Kernel.TimeSlice
import AtmegaScheduler.Lib.RoundRobin
import AtmegaScheduler.Kernel.Fairness
import AtmegaScheduler.Kernel.Preempt
import AtmegaScheduler.Kernel.Bounds
import AtmegaScheduler.Kernel.Misuse
import AtmegaScheduler.Kernel.SelfRemoval
import AtmegaScheduler.Kernel.Critical
import AtmegaScheduler.Kernel.TwoRuns
import AtmegaScheduler.Kernel.Recreate
import AtmegaScheduler.Tools.FindOffset
import AtmegaScheduler.Tools.MutexTask
import AtmegaScheduler.Tools.PinWatch
import AtmegaScheduler.SlList.Handler
import AtmegaScheduler.Lib.HeadTail
import AtmegaScheduler.Lib.Preemption
import AtmegaScheduler.Drivers.Usart
import AtmegaScheduler.Drivers.UsartTx
import AtmegaScheduler.Drivers.UsartPutc
import AtmegaScheduler.Drivers.UsartRx
import AtmegaScheduler.Drivers.SerialLine
import AtmegaScheduler.Drivers.Progress
import AtmegaScheduler.Drivers.Timer
