import Chicago95.Kernel.SyscallRuns
import Chicago95.Kernel.Slab
import Chicago95.Kernel.Fcache
import Chicago95.Kernel.HeapSizes
import Chicago95.Kernel.Lifetimes
import Chicago95.Kernel.Scheduling
import Chicago95.Kernel.Fairness
import Chicago95.Kernel.ContextSwitch
import Chicago95.Kernel.WaitOwnership
import Chicago95.Kernel.RawDisk
import Chicago95.Stage2.FileRuns
import Chicago95.Kernel.HandleRuns
import Chicago95.Kernel.VfsResolve
import Chicago95.Kernel.UserHeap
import Chicago95.Stage2.PmmRuns
import Chicago95.Stage2.Encfs
import Chicago95.Stage2.MpiPower
import Chicago95.Stage2.DirRuns
import Chicago95.Stage2.FirewallRuns
import Chicago95.Stage2.Poly1305
import Chicago95.Stage2.SigPacket
import Chicago95.Stage2.KeyPacket
import Chicago95.Stage2.PgpBounds
import Chicago95.Stage2.NetguardRing
import Chicago95.Stage2.Wpa2Frames
import Chicago95.Stage2.SaeFrames
import Chicago95.Stage2.AesStandard
import Chicago95.Stage2.GcmStandard
import Chicago95.Stage2.ChachaStandard
import Chicago95.Stage2.Pbkdf2
import Chicago95.Stage2.TorTables
import Chicago95.Stage2.Socks5
import Chicago95.Stage2.AwkMatching
import Chicago95.Stage2.AwkPrecedence
import Chicago95.Stage2.LbaScramble
import Chicago95.Kernel.Dispatch
import Chicago95.Kernel.Pipes
import Chicago95.Kernel.UserPointers
import Chicago95.Kernel.ExecLoads
import Chicago95.Stage2.DirWalks
import Chicago95.Stage2.Truncate
import Chicago95.Stage2.FormatGeometry
import Chicago95.Stage2.FdOffsets
import Chicago95.Stage2.PageScan
import Chicago95.Stage2.MapRange
import Chicago95.Stage2.Ata
import Chicago95.Kernel.NetReceive
import Chicago95.Kernel.UdpRoundTrip
import Chicago95.Stage2.RateWindow
import Chicago95.Stage2.MbrScramble
import Chicago95.Stage2.JohnBrute
import Chicago95.Stage2.NanoRoundTrip
import Chicago95.Stage2.FishPath
import Chicago95.Stage2.FishLine
import Chicago95.Stage2.MathRoundTrip
