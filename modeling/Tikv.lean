import Tikv.IngestReplay
import Tikv.CdcPcrSink
import Tikv.CdcResolvedTs
import Tikv.SpanIndex
import Tikv.CdcDeltaScan
import Tikv.MvccAsyncRead
import Tikv.MvccProtected
import Tikv.MvccIsolation
import Tikv.MvccPushed
import Tikv.MvccRcCheckTs
import Tikv.CdcLockHeap
import Tikv.RaftReadProgress
import Tikv.BackupFlush
import Tikv.BackupRegionHints
import Tikv.CompactRetire
import Tikv.MvccCompaction
import Tikv.MvccFlashbackRun
import Tikv.MvccPrewriterAnswer
import Tikv.RaftSimpleWrite
import Tikv.TxnLock
import Tikv.DecimalOrder
import Tikv.TimePacked
import Tikv.QueryScannedRange
import Tikv.ImportRawIngest
import Tikv.ImeIteratorView
import Tikv.IngestFailedFlush
import Tikv.CdcFullScan
import Tikv.ControlCutover
import Tikv.ControlGuard
import Tikv.IngestResume
import Tikv.SpanHex
import Tikv.CdcBuildResolver
import Tikv.StorageTxnStatus
import Tikv.CodecFirstLen
import Tikv.SpanTableKeys
import Tikv.TxnKeyCompare
import Tikv.RaftLease
import Tikv.StorageLockWait
import Tikv.KeysRewrite
import Tikv.RaftSplitObserver
