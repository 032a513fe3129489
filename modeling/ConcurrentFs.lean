import ConcurrentFs.Layout
import ConcurrentFs.Lib.Durable
import ConcurrentFs.Crc32
import ConcurrentFs.WalLog
import ConcurrentFs.WalRoundTrip
import ConcurrentFs.Recovery
import ConcurrentFs.StorageCrash
import ConcurrentFs.CacheWriteAhead
import ConcurrentFs.CacheTransparent
import ConcurrentFs.GroupCommitLimit
import ConcurrentFs.EngineThreads
import ConcurrentFs.MountGate
import ConcurrentFs.Mkfs
import ConcurrentFs.DirectoryMap
import ConcurrentFs.Holders
import ConcurrentFs.Spec
import ConcurrentFs.FsckSafe
import ConcurrentFs.Locks
import ConcurrentFs.ScanSafe
import ConcurrentFs.LayoutPlan
import ConcurrentFs.BitmapSet
import ConcurrentFs.CrcBurst
import ConcurrentFs.WalBatch
import ConcurrentFs.PathSplit
import ConcurrentFs.CacheLoad
import ConcurrentFs.CacheLru
import ConcurrentFs.CacheWriteBack
import ConcurrentFs.Offsets
import ConcurrentFs.Lookup
import ConcurrentFs.Alone
import ConcurrentFs.Session
import ConcurrentFs.Chunks
import ConcurrentFs.Transfers
