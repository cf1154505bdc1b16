import Aki.AkiBarrier
import Aki.AkiCommit
import Aki.AkiFile
import Aki.AkiFileRun
import Aki.AkiRecord
import Aki.AkiRecordRun
import Aki.AkiSegment
import Aki.Arena
import Aki.BigEndian
import Aki.Bisect
import Aki.ByteDevice
import Aki.ChainAppend
import Aki.ChainTrim
import Aki.CommonSubsequence
import Aki.CondWrite
import Aki.FairRun
import Aki.FieldTable
import Aki.FieldTableMap
import Aki.FieldTableSpec
import Aki.Glob
import Aki.HashEnum
import Aki.HopQueue
import Aki.HopQueueWake
import Aki.HotTable
import Aki.HotTableRefusal
import Aki.Intent
import Aki.IntentInv
import Aki.IntentLiveness
import Aki.Lcs
import Aki.LeaseFold
import Aki.LeaseFoldPrime
import Aki.LeaseGate
import Aki.LittleEndian
import Aki.ManifestPublisher
import Aki.ManifestPublisherRun
import Aki.ManifestSelect
import Aki.MintLease
import Aki.MintLeaseRun
import Aki.MultiState
import Aki.Pel
import Aki.RawGroup
import Aki.RecordCodec
import Aki.Resp
import Aki.SetTable
import Aki.Slab
import Aki.StoreBatch
import Aki.StoreHistory
import Aki.StorePlace
import Aki.StoreRecord
import Aki.StoreReplaySpec
import Aki.StoreRun
import Aki.StreamGroupRead
import Aki.StreamId
import Aki.SwapList
import Aki.Swar
import Aki.SwissTable
import Aki.SwissTableMap
import Aki.TreeModel
import Aki.TriangularProbe
import Aki.Uvarint
import Aki.WalFlusher
import Aki.WalFlusherRun
import Aki.WalRestart
import Aki.Wildcard
import Aki.DownScan
import Aki.FieldScan
import Aki.Incremental
import Aki.RespParse
import Aki.ScoreKey
import Aki.StreamBlock
import Aki.ZsetWindow
import Aki.StreamCodec
import Aki.AkiCkpt
import Aki.AkiReplaySafe
import Aki.AkiShardSeq
import Aki.BackPointers
import Aki.BitField
import Aki.BitFieldSums
import Aki.Decimal
import Aki.MsbBits
import Aki.SlotHeap
import Aki.StreamIdText
import Aki.TimerHeap
import Aki.CollectionLog
import Aki.DoubleRounding
import Aki.KeyedReplay
import Aki.TreeBulk
import Aki.TreeBulkCheck
import Aki.BoundedScan
import Aki.SetIndex
import Aki.SetMerge
import Aki.StreamLog
import Aki.StreamLogOrder
import Aki.StreamRange
import Aki.StreamRefine
import Aki.StreamTrim
