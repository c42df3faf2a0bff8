import NetbsdAvr32.PmapPageProtect
import NetbsdAvr32.PmapStats
import NetbsdAvr32.LockfAccount
import NetbsdAvr32.AmapSwapOff
import NetbsdAvr32.PropReleaseExact
import NetbsdAvr32.IpReassExact
import NetbsdAvr32.TcpPoints
import NetbsdAvr32.TcpSender
import NetbsdAvr32.RwExact
import NetbsdAvr32.PipeAccount
import NetbsdAvr32.FfsInode
import NetbsdAvr32.FfsRun
import NetbsdAvr32.SemWakeup
import NetbsdAvr32.SemStore
import NetbsdAvr32.MsgAim
import NetbsdAvr32.PmapAlias
import NetbsdAvr32.PmapDirty
import NetbsdAvr32.At32Clock
import NetbsdAvr32.At32Intc
import NetbsdAvr32.BusSpace
import NetbsdAvr32.CacheOps
import NetbsdAvr32.DevMem
import NetbsdAvr32.LockfRange
import NetbsdAvr32.PmapSegtab
import NetbsdAvr32.CalloutHalt
import NetbsdAvr32.CopyUser
import NetbsdAvr32.BlistBounds
import NetbsdAvr32.ExtentFit
import NetbsdAvr32.ExtentLock
import NetbsdAvr32.QdivremExact
import NetbsdAvr32.VmemFitExact
import NetbsdAvr32.ClistNdqb
import NetbsdAvr32.PropDataText
import NetbsdAvr32.PropLocks
import NetbsdAvr32.TcpSackChoice
import NetbsdAvr32.TcpSackMeaning
import NetbsdAvr32.AmapExtend
import NetbsdAvr32.PropDictWalk
import NetbsdAvr32.TcpReassFin
import NetbsdAvr32.TcpReassHeld
import NetbsdAvr32.TcpOptions
import NetbsdAvr32.TcpDatapkt
import NetbsdAvr32.SubrTime
import NetbsdAvr32.UfsBmap
import NetbsdAvr32.FfsAlloc
import NetbsdAvr32.UfsLookup
