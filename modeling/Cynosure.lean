import Cynosure.Lib.Machine
import Cynosure.Lib.Waker
import Cynosure.Lib.Prog
import Cynosure.Lib.Threads
import Cynosure.Lib.Layer
import Cynosure.Lib.Actions
import Cynosure.Lib.Word
import Cynosure.Lib.Ring
import Cynosure.Lib.Simulation
import Cynosure.Lib.Reentrant
import Cynosure.Lib.Inevitable
import Cynosure.Lib.Fair
import Cynosure.Blocking
import Cynosure.BlockingJobs
import Cynosure.BlockingSettles
import Cynosure.SiteC.WaitQueue
import Cynosure.SiteC.WaitTokens
import Cynosure.SiteC.Queue
import Cynosure.SiteC.QueueSpec
import Cynosure.SiteC.QueueList
import Cynosure.SiteC.QueueOwner
import Cynosure.SiteC.QueueClear
import Cynosure.SiteC.Mutex
import Cynosure.SiteC.MutexTurn
import Cynosure.SiteC.RwLock
import Cynosure.SiteC.RwLockSteps
import Cynosure.SiteC.RwLockTurn
import Cynosure.SiteC.RwLockDeference
import Cynosure.SiteC.Semaphore
import Cynosure.SiteC.SemaphoreFront
import Cynosure.SiteC.SemaphoreFair
import Cynosure.SiteC.SemaphoreCalls
import Cynosure.SiteC.BufferPool
import Cynosure.SiteC.WaitCells
import Cynosure.SiteC.WaitFrame
import Cynosure.SiteC.WaitIssued
import Cynosure.SiteC.Executor
import Cynosure.SiteC.MutexExecutor
import Cynosure.SiteC.WaitCalls
import Cynosure.SiteC.RwLockExecutor
import Cynosure.SiteC.SemaphoreExecutor
import Cynosure.SiteC.MutexCalls
import Cynosure.SiteC.RwLockCalls
import Cynosure.SiteD.Notify
import Cynosure.SiteD.NotifyInvariant
import Cynosure.SiteD.AtomicWaker
import Cynosure.SiteD.WaitLoop
import Cynosure.SiteD.SlotProg
import Cynosure.SiteD.SlotMoves
import Cynosure.SiteD.RingBuf
import Cynosure.SiteD.RingBufInvariant
import Cynosure.SiteD.RingBufProducer
import Cynosure.SiteD.RingBufConsumer
import Cynosure.SiteD.RingBufFifo
import Cynosure.SiteD.RingBufOuts
import Cynosure.SiteD.RingBufPushes
import Cynosure.SiteD.RingBufPops
import Cynosure.SiteD.RingBufCounts
import Cynosure.SiteD.RingBufBulk
import Cynosure.SiteD.RingBufCounted
import Cynosure.SiteD.RingBufWaits
import Cynosure.SiteD.RingBufFull
import Cynosure.SiteD.RingBufEmpty
import Cynosure.SiteD.RingBufAsleep
import Cynosure.SiteD.RingBufJobs
import Cynosure.SiteD.RingBufResults
import Cynosure.SiteD.RingBufMoves
import Cynosure.SiteD.RingBufBlocking
import Cynosure.SiteD.RingBufSettles
import Cynosure.SiteD.RingBufTransfers
import Cynosure.SiteD.BipBuffer
import Cynosure.SiteD.BipBufferInvariant
import Cynosure.SiteD.BipBufferProducer
import Cynosure.SiteD.BipBufferCommit
import Cynosure.SiteD.BipBufferConsumer
import Cynosure.SiteD.BipBufferStream
import Cynosure.SiteD.BipBufferLedger
import Cynosure.SiteD.BipBufferHandover
import Cynosure.SiteD.BipBufferGrants
import Cynosure.SiteD.BipBufferWaits
import Cynosure.SiteD.BipBufferReserve
import Cynosure.SiteD.BipBufferRead
import Cynosure.SiteD.BipBufferAsleep
import Cynosure.SiteD.BipBufferDrained
import Cynosure.SiteD.TripleBuffer
import Cynosure.SiteD.TripleBufferInvariant
import Cynosure.SiteD.TripleBufferWriter
import Cynosure.SiteD.TripleBufferReader
import Cynosure.SiteD.TripleBufferReports
import Cynosure.SiteD.TripleBufferHandoff
import Cynosure.SiteD.TripleBufferCancel
import Cynosure.SiteD.TripleBufferWaits
import Cynosure.SiteD.TripleBufferTakes
import Cynosure.SiteD.TripleBufferPublishes
import Cynosure.SiteD.TripleBufferAsleep
import Cynosure.SiteD.Oneshot
import Cynosure.SiteD.OneshotInvariant
import Cynosure.SiteD.OneshotSender
import Cynosure.SiteD.OneshotReceiver
import Cynosure.SiteD.OneshotOnce
import Cynosure.SiteD.MpscLight
import Cynosure.SiteD.MpscLightWaiters
import Cynosure.SiteD.MpscLightInvariant
import Cynosure.SiteD.MpscLightSender
import Cynosure.SiteD.MpscLightSend
import Cynosure.SiteD.MpscLightReceiver
import Cynosure.SiteD.MpscLightStream
import Cynosure.SiteD.MpscLightEnds
import Cynosure.SiteD.MpscLightLast
import Cynosure.SiteD.MpscLightClosure
