import Aesd.AllocationLedger
import Aesd.Lib.Replay
import Aesd.AcceptLoop
import Aesd.Lib.SList
import Aesd.ConnectionOrder
import Aesd.PeerInput
import Aesd.LookupAgreement
import Aesd.MessageChunks
import Aesd.ServerReply
import Aesd.SocketServer
import Aesd.Lib.CString
import Aesd.TruthfulWrites
import Aesd.WriteInterleaving
import Aesd.Lib.Interleaving
import Aesd.FilePositions
import Aesd.ReadDisclosure
import Aesd.DeviceRuns
import Aesd.SeekCommand
import Aesd.SeekIsolation
import Aesd.WriteOwnership
import Aesd.Lib.Runs
import Aesd.LineFraming
import Aesd.ReadDelivery
import Aesd.DeviceStore
import Aesd.WriteSteps
import Aesd.EntryLookup
import Aesd.RecentEntries
import Aesd.CharDevice
import Aesd.ReadHelper
import Aesd.KernelServices
import Aesd.BufferRefinement
import Aesd.CircularBuffer
import Aesd.Lib.FixedWidth
import Aesd.Lib.Concat
import Aesd.Lib.Memory
import Aesd.Lib.RingBuffer
import Aesd.DeviceSimulation
import Aesd.FlushEquivalence
import Aesd.FileSeek
import Aesd.CallFailures
import Aesd.SeekGrammar
import Aesd.ControlSteps
import Aesd.ControlAtomicity
import Aesd.Descriptors
import Aesd.Lib.LockUse
import Aesd.MutexUse
import Aesd.JoinRoom
import Aesd.ServerProcess
import Aesd.ServedLines
import Aesd.ServerProgress
import Aesd.ConcurrentClients
import Aesd.MainTermination
import Aesd.ReadContents
import Aesd.LockedEffects
import Aesd.LockedCalls
import Aesd.LostBlocks
