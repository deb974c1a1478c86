import DmCdp.Daemon.Feed
import DmCdp.Daemon.Gap
import DmCdp.Daemon.Copy
import DmCdp.Daemon.Park
import DmCdp.Daemon.Reboot
import DmCdp.Daemon.Fail
import DmCdp.Daemon.Threads
import DmCdp.Kernel.Tally
import DmCdp.Kernel.Durable
import DmCdp.Daemon.Debt
import DmCdp.Daemon.Mark
import DmCdp.Daemon.Rebuild
import DmCdp.Daemon.SeedPoint
import DmCdp.Daemon.Consume
import DmCdp.Tools.Recover
import DmCdp.Kernel.Drained
import DmCdp.Tools.Bitmap
import DmCdp.Kernel.Clear
import DmCdp.Daemon.Base
import DmCdp.Daemon.Pieces
import DmCdp.Daemon.Restore
import DmCdp.Daemon.Manifest
import DmCdp.Manager.RebuildApi
import DmCdp.Daemon.DeviceError
import DmCdp.Daemon.Adopt
import DmCdp.Kernel.Params
import DmCdp.Tools.Range
import DmCdp.Tools.Parsers
import DmCdp.Daemon.ShortWrite
import DmCdp.Daemon.SeedRace
import DmCdp.Daemon.Recovery
import DmCdp.Daemon.SeedChunks
import DmCdp.Kernel.Readable
import DmCdp.Kernel.Wakeup
import DmCdp.Daemon.Throttle
import DmCdp.Manager.Overlay
import DmCdp.Manager.RebuildMain
import DmCdp.Daemon.Freeze
import DmCdp.Daemon.Watermark
import DmCdp.Daemon.Torn
import DmCdp.Kernel.Lifetime
import DmCdp.Kernel.Commits
import DmCdp.Tools.Episodes
import DmCdp.Kernel.Registry
import DmCdp.Tools.Drain
import DmCdp.Daemon.Settle
import DmCdp.Daemon.Ioctl
