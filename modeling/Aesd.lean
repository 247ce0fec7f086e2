import Aesd.Runs
import Aesd.CriticalSections
import Aesd.ExclusiveUse
import Aesd.RingBuffer
import Aesd.CharDriver
import Aesd.LockReturn
import Aesd.DeviceStore
import Aesd.BlockOwnership
import Aesd.DeviceContents
import Aesd.FailedWrites
import Aesd.Delimited
import Aesd.CommandBoundaries
import Aesd.Offsets
import Aesd.RingLookup
import Aesd.DeviceReads
import Aesd.RingIntact
import Aesd.ReadToEnd
import Aesd.SeekArithmetic
import Aesd.SeekCommand
import Aesd.DriverThreads
import Aesd.DeviceSpec
import Aesd.ModuleLife
import Aesd.EchoWorker
import Aesd.FileRead
import Aesd.PacketReassembly
import Aesd.SeekNumbers
import Aesd.WorkerPool
import Aesd.SharedDevice
import Aesd.TurnSnapshot
import Aesd.Replies
import Aesd.ServerFreeze
import Aesd.SeekReplies
import Aesd.ServerMain
import Aesd.Waiting
import Aesd.StreamLifetime
import Aesd.ThreadList
import Aesd.Shutdown
import Aesd.Reclaim
import Aesd.JoinedOnce
import Aesd.Intake
import Aesd.StrandedClients
import Aesd.WholeServer
import Aesd.SystemCalls
import Aesd.ObtainingMutex
