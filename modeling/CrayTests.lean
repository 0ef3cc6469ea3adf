import CrayTests.RankProgram
import CrayTests.RankContract
import CrayTests.CInteger
import CrayTests.KvsCodec
import CrayTests.KvsReceive
import CrayTests.KvsBijection
import CrayTests.CommittedStore
import CrayTests.PmiCollectives
import CrayTests.Tiling
import CrayTests.PmiCallEvents
import CrayTests.PmiJobEvents
import CrayTests.PmiDelivery
import CrayTests.OptionLoop
import CrayTests.Scatter
import CrayTests.Allgather
import CrayTests.AllgatherOrder
import CrayTests.ThreadBarrier
import CrayTests.ThreadBarrierInvariant
import CrayTests.EpisodeBarrier
import CrayTests.ThreadBarrierSafety
import CrayTests.SharedClock
import CrayTests.ShiftRegister
import CrayTests.RandomStream
import CrayTests.TableLayout
import CrayTests.UpdateStreams
import CrayTests.XorSum
import CrayTests.XorStore
import CrayTests.RandomAccess
import CrayTests.RandomAccessEvents
import CrayTests.TableRouting
import CrayTests.RandomAccessTable
import CrayTests.RandomAccessErrors
import CrayTests.RandomAccessRun
import CrayTests.AbortAgreement
import CrayTests.ObjectLog
import CrayTests.ProviderTeardown
import CrayTests.RdmOneSided
import CrayTests.RdmCalls
import CrayTests.RdmRuns
import CrayTests.RdmAlignment
import CrayTests.ProcessRuns
import CrayTests.RdmPingpong
import CrayTests.RdmMain
import CrayTests.RdmDomain
import CrayTests.StateContract
import CrayTests.Outbox
import CrayTests.DoublingBuffer
import CrayTests.PrintUtils
import CrayTests.PrintBuffers
import CrayTests.PrintCsv
import CrayTests.PrintLines
import CrayTests.PrintBounds
import CrayTests.PrintOnce
import CrayTests.PrintFini
import CrayTests.PrintConversion
import CrayTests.PrintErrors
import CrayTests.PrintRecovery
import CrayTests.PrintNoCsv
import CrayTests.Batches
import CrayTests.TestRunner
import CrayTests.TestCollection
import CrayTests.TestSummary
import CrayTests.WaitAll
import CrayTests.Messaging
import CrayTests.MessagingSchedule
import CrayTests.MessagingRounds
import CrayTests.MessagingRuns
import CrayTests.MessagingStages
import CrayTests.BandwidthTest
import CrayTests.BandwidthPlan
import CrayTests.BandwidthSchedule
import CrayTests.BandwidthWindow
import CrayTests.MessageRate
import CrayTests.TableSizing
import CrayTests.RdmBuffers
import CrayTests.Linking
import CrayTests.PmiStages
import CrayTests.CtpmCollectives
import CrayTests.CtpmStages
import CrayTests.CtpmRefinement
import CrayTests.CtpmClients
import CrayTests.MessagingColumns
import CrayTests.MessagingTurns
import CrayTests.PingpongTest
import CrayTests.PingpongProtocol
import CrayTests.EpochLog
import CrayTests.AuthKeyTest
import CrayTests.AuthKeyProtocol
import CrayTests.BoundedRuns
import CrayTests.LockTests
import CrayTests.LockTestInvariant
import CrayTests.LockTestProtocol
import CrayTests.ThreadBarrierWaits
import CrayTests.OneSidedTest
import CrayTests.OneSidedAccounts
import CrayTests.OneSidedRuns
import CrayTests.OneSidedProgress
import CrayTests.OneSidedPlan
import CrayTests.OneSidedPositions
import CrayTests.OneSidedBuffers
import CrayTests.OneSidedProtocol
