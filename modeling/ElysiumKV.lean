import ElysiumKV.BlockCache
import ElysiumKV.Bloom
import ElysiumKV.CacheHistories
import ElysiumKV.CacheRemoval
import ElysiumKV.CheckInvariants
import ElysiumKV.CompactionOutputs
import ElysiumKV.CrashedEdit
import ElysiumKV.DeadFiles
import ElysiumKV.EncryptedObject
import ElysiumKV.LossHandling
import ElysiumKV.MergePasses
import ElysiumKV.Migration
import ElysiumKV.NumberRuns
import ElysiumKV.OrphanSweep
import ElysiumKV.PayloadAuthenticity
import ElysiumKV.ReadAhead
import ElysiumKV.Reconcile
import ElysiumKV.RecoverReads
import ElysiumKV.Retention
import ElysiumKV.RollRace
import ElysiumKV.ScanFaults
import ElysiumKV.Settling
import ElysiumKV.StagedOverlay
import ElysiumKV.Streams.Fetches
import ElysiumKV.Streams.TruncationFloor
import ElysiumKV.TruncationRuns
