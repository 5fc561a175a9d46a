import AlkaliFw.Conv2DPacking
import AlkaliFw.System
import AlkaliFw.Ramdisk
import AlkaliFw.Vendor
import AlkaliFw.Reset
import AlkaliFw.GiveUp
import AlkaliFw.Engine
import AlkaliFw.Flash
import AlkaliFw.Blocks
import AlkaliFw.Lifecycle
import AlkaliFw.Forward
import AlkaliFw.Fetch
import AlkaliFw.Completion
import AlkaliFw.Success
import AlkaliFw.Dispatch
import AlkaliFw.QueueCommands
import AlkaliFw.Csts
import AlkaliFw.Doorbell
import AlkaliFw.Answer
import AlkaliFw.Lists
import AlkaliFw.Identity
import AlkaliFw.PrpRuns
import AlkaliFw.RingRuns
import AlkaliFw.LiveQueues
import AlkaliFw.Download
import AlkaliFw.RamdiskWindow
import AlkaliFw.RunOutcome
import AlkaliFw.FwStore
import AlkaliFw.LogPage
import AlkaliFw.PermuteDims
import AlkaliFw.Requantization
import AlkaliFw.Continuations
import AlkaliFw.Allotment
import AlkaliFw.DeviceRun
import AlkaliFw.Delegate
import AlkaliFw.AdditionResult
import AlkaliFw.ForceSerial
import AlkaliFw.VirtualMemory
import AlkaliFw.ReadBack
