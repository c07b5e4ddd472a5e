import LuksAndroid.Btrfs.Alloc.Proofs
import LuksAndroid.Btrfs.Cow.Proofs
import LuksAndroid.Btrfs.Cursor.Proofs
import LuksAndroid.Btrfs.Visits.Proofs
import LuksAndroid.Btrfs.Dir.Code
import LuksAndroid.Btrfs.Txn.Csum
import LuksAndroid.Btrfs.Raw.Proofs
import LuksAndroid.Btrfs.Alloc.Mirror
import LuksAndroid.Btrfs.Csum.Build
import LuksAndroid.Btrfs.File.Proofs
import LuksAndroid.Btrfs.Extent.Proofs
import LuksAndroid.Btrfs.Batch
import LuksAndroid.Btrfs.ChunkAlloc.Proofs
import LuksAndroid.Btrfs.Super.Proofs
import LuksAndroid.Btrfs.Verify
import LuksAndroid.Ext4.DirBlock.Proofs
import LuksAndroid.Ext4.Mapping.Proofs
import LuksAndroid.Ext4.Rename.Proofs
import LuksAndroid.Ext4.Uninit.Proofs
import LuksAndroid.Luks.Contained
import LuksAndroid.Usb.Conform
import LuksAndroid.Usb.Refine
import LuksAndroid.Usbfs.Exact
import LuksAndroid.Usbfs.Threads
import LuksAndroid.Bridge.Fence
import LuksAndroid.Bridge.Device
import LuksAndroid.App.Transfer.Mutex
import LuksAndroid.App.Transfer.States
import LuksAndroid.App.Documents.Pending
import LuksAndroid.App.Session
import LuksAndroid.App.Transfer.Loss
import LuksAndroid.App.Documents.Grant
import LuksAndroid.Btrfs.IntervalSet
import LuksAndroid.Btrfs.Extent.Lzo
import LuksAndroid.App.Transfer.Unique
import LuksAndroid.FileDevice
import LuksAndroid.Bridge.Benchmark
import LuksAndroid.TwoCopies
import LuksAndroid.Luks.Format
import LuksAndroid.Luks.Recovery
import LuksAndroid.Volume
import LuksAndroid.Bridge.Registry
import LuksAndroid.Btrfs.Cache
import LuksAndroid.Btrfs.Damage
import LuksAndroid.Btrfs.Trim.Proofs
