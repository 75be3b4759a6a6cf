import AgxOpen.Uat.Hardware
import AgxOpen.Uat.Atomic
import AgxOpen.Uat.Physical
import AgxOpen.Uat.Outstanding
import AgxOpen.Handoff.Exclusion
import AgxOpen.Handoff.FlushProtocol
import AgxOpen.Rtkit.BufferReply
import AgxOpen.Rtkit.CrashReport
import AgxOpen.Rtbuddy.Shutdown
import AgxOpen.Rtbuddy.CleanBoot
import AgxOpen.Rtbuddy.Crash
import AgxOpen.Rtbuddy.Receive
import AgxOpen.Rtbuddy.Buffers
import AgxOpen.Rtbuddy.StoppedCpu
import AgxOpen.Mailbox.Senders
import AgxOpen.Mailbox.OneStep
import AgxOpen.Trace.Replay
import AgxOpen.Trace.Dump
import AgxOpen.Handoff.Outcomes
import AgxOpen.Handoff.SpinLimit
import AgxOpen.Handoff.Publication
import AgxOpen.Handoff.BusySlot
import AgxOpen.Handoff.Progress
import AgxOpen.Handoff.LockSteps
import AgxOpen.Display.Clients
import AgxOpen.Probe.Power
import AgxOpen.Probe.Unwinding
import AgxOpen.Interpretation
import AgxOpen.Rtkit.Carried
import AgxOpen.Rtbuddy.CoreSession
import AgxOpen.Rtbuddy.CrashFlag
import AgxOpen.Rtkit.FakeFirmware
import AgxOpen.Rtkit.Handshake
import AgxOpen.Rtbuddy.HandlerOrder
import AgxOpen.Rtkit.Requests
import AgxOpen.Rtbuddy.FirmwareBoot
import AgxOpen.Rtbuddy.BootEvidence
import AgxOpen.Rtbuddy.BootOutcome
import AgxOpen.Rtbuddy.BootProgress
import AgxOpen.Rtbuddy.BootCompletes
import AgxOpen.Rtbuddy.RemovalCompletes
