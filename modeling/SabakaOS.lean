import SabakaOS.Library.Word
import SabakaOS.Library.Bitmap
import SabakaOS.Library.Run
import SabakaOS.Library.Pool
import SabakaOS.Library.Loop
import SabakaOS.Library.Ring
import SabakaOS.Library.ByteMemory
import SabakaOS.Library.Overlap
import SabakaOS.Library.Prog
import SabakaOS.Library.Chain
import SabakaOS.Library.Fold
import SabakaOS.Memory.Pmm
import SabakaOS.Memory.FrameAccounting
import SabakaOS.Memory.Heap
import SabakaOS.Memory.BlockList
import SabakaOS.Memory.BlockOps
import SabakaOS.Memory.HeapTiling
import SabakaOS.Process.Scheduler
import SabakaOS.Process.SingleRunner
import SabakaOS.Network.Tcp
import SabakaOS.Network.TcpStream
import SabakaOS.Fat32.Device
import SabakaOS.Fat32.Table
import SabakaOS.Fat32.Names
import SabakaOS.Fat32.Directory
import SabakaOS.Fat32.Driver
import SabakaOS.Fat32.Volume
import SabakaOS.Fat32.Primitives
import SabakaOS.Fat32.Consistency
import SabakaOS.Fat32.Walks
import SabakaOS.Fat32.Lookup
import SabakaOS.Fat32.Entries
import SabakaOS.Fat32.Growth
import SabakaOS.Fat32.Placement
import SabakaOS.Fat32.Operations
import SabakaOS.Fat32.System
import SabakaOS.Fat32.ShortNames
import SabakaOS.Fat32.ShortRoundTrip
import SabakaOS.Fat32.Mounted
import SabakaOS.Fat32.SlotLists
import SabakaOS.Fat32.FaultTolerance
import SabakaOS.Fat32.CreateFind
import SabakaOS.Fat32.UniqueNames
import SabakaOS.Fat32.Regions
import SabakaOS.Process.ProcessTable
import SabakaOS.Process.Occupancy
import SabakaOS.Process.EndOfInterrupt
import SabakaOS.Network.Deadline
import SabakaOS.Memory.Paging
import SabakaOS.Memory.Translation
import SabakaOS.Memory.IdentityWindow
import SabakaOS.Network.TcpCalls
import SabakaOS.Network.TcpSender
import SabakaOS.Network.Retransmission
import SabakaOS.Network.FinOrder
import SabakaOS.Library.OpenFiles
import SabakaOS.Vfs.Node
import SabakaOS.Vfs.Calls
import SabakaOS.Vfs.Tree
import SabakaOS.Vfs.Syscalls
import SabakaOS.Vfs.Descriptors
import SabakaOS.Process.Mutex
import SabakaOS.Process.Pipe
import SabakaOS.Process.PipeEnd
import SabakaOS.Network.Queue
import SabakaOS.Network.Frame
import SabakaOS.Network.FrameBounds
import SabakaOS.Library.NameTree
import SabakaOS.Vfs.Paths
import SabakaOS.Vfs.Mount
import SabakaOS.Vfs.BackEnds
import SabakaOS.Memory.AddressSpace
import SabakaOS.Process.ElfLoader
import SabakaOS.Process.LoadRun
import SabakaOS.Process.LoadIsolation
import SabakaOS.Process.SegmentContents
import SabakaOS.Fat32.FileData
import SabakaOS.Fat32.FileWrite
import SabakaOS.Fat32.FileRead
import SabakaOS.Fat32.FileContents
import SabakaOS.Fat32.LongNames
import SabakaOS.Process.NoBypass
import SabakaOS.Memory.HeapAllocation
import SabakaOS.Fat32.TableCache
import SabakaOS.Network.PortAllocation
import SabakaOS.Network.UdpListen
import SabakaOS.Network.UdpRouting
import SabakaOS.Network.Rtl8139
import SabakaOS.Usb.Descriptors
import SabakaOS.Usb.Transfers
import SabakaOS.Usb.Keyboard
import SabakaOS.Graphics.Surface
import SabakaOS.Graphics.Painter
import SabakaOS.Graphics.Clipping
import SabakaOS.Graphics.BlitClipping
import SabakaOS.Graphics.BlitRect
import SabakaOS.Graphics.Lines
import SabakaOS.Graphics.Circles
import SabakaOS.Graphics.Framebuffer
import SabakaOS.Graphics.Cursor
import SabakaOS.Fat32.SharedEntry
import SabakaOS.Vfs.Lookup
import SabakaOS.Vfs.SharedFile
import SabakaOS.Library.Rooted
import SabakaOS.Fat32.DirTree
import SabakaOS.Fat32.TreeRuns
import SabakaOS.Library.OnesComplement
import SabakaOS.Library.Numeral
import SabakaOS.Strings.Moves
import SabakaOS.Strings.Numbers
import SabakaOS.Network.Checksum
import SabakaOS.Library.Dotted
import SabakaOS.Network.Dns
import SabakaOS.Network.DnsBounds
import SabakaOS.Network.DnsNames
import SabakaOS.Network.DnsResolver
import SabakaOS.Network.Addresses
import SabakaOS.Memory.HeapBytes
import SabakaOS.Memory.HeapUndo
import SabakaOS.Memory.HeapFrame
import SabakaOS.Process.FileReads
import SabakaOS.Network.FinSwitch
import SabakaOS.Memory.RegionFrames
import SabakaOS.Memory.AllocRegion
import SabakaOS.Memory.PageEntries
import SabakaOS.Memory.ProgramBreak
import SabakaOS.Library.SlotTable
import SabakaOS.Library.X86
import SabakaOS.Network.ArpCache
import SabakaOS.Network.Lan
import SabakaOS.Network.IpPackets
import SabakaOS.Network.Echo
import SabakaOS.Network.Segments
import SabakaOS.Network.Peers
import SabakaOS.Network.Wget
import SabakaOS.Network.DnsCache
import SabakaOS.Fat32.Onward
import SabakaOS.Fat32.Divisors
import SabakaOS.Fat32.ReadClamp
import SabakaOS.Network.DnsAnswers
import SabakaOS.Shell.Copy
import SabakaOS.Vfs.FileNodes
import SabakaOS.Vfs.NameCopies
import SabakaOS.Fat32.Removal
import SabakaOS.Vfs.Listing
import SabakaOS.Shell.Remove
import SabakaOS.Shell.Osmath
import SabakaOS.Shell.Arithmetic
import SabakaOS.Shell.Parse
import SabakaOS.Shell.Terminal
import SabakaOS.Shell.History
import SabakaOS.Shell.VgaScreen
import SabakaOS.Shell.ScreenBounds
import SabakaOS.Shell.EnvVars
import SabakaOS.Process.NestedLocks
import SabakaOS.Process.Semaphore
import SabakaOS.Process.Sleep
import SabakaOS.Vfs.Resolution
import SabakaOS.Vfs.OpenCreate
import SabakaOS.Fat32.SlotNumbers
import SabakaOS.Vfs.MountedTree
import SabakaOS.Vfs.MountedWalks
import SabakaOS.Vfs.CwdPath
import SabakaOS.Process.ContextSwitch
import SabakaOS.Process.InterruptStubs
import SabakaOS.Process.UserMode
import SabakaOS.Process.Descriptors
