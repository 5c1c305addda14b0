import DemandPaging.Exec.Fresh
import DemandPaging.Paging.Appends
import DemandPaging.Exec.Failure
import DemandPaging.Paging.ForkFail
import DemandPaging.FileSys.Admission
import DemandPaging.FileSys.Coherence
import DemandPaging.FileSys.Boot
import DemandPaging.FileSys.Holders
import DemandPaging.Lru.Emptied
import DemandPaging.Paging.Oldest
import DemandPaging.Ipc.References
import DemandPaging.Process.Family
import DemandPaging.Process.Killed
import DemandPaging.Paging.Regrowth
import DemandPaging.Paging.Transparent
import DemandPaging.Paging.Inherit
import DemandPaging.Swap.Agreement
import DemandPaging.Exec.Arguments
import DemandPaging.Memory.Walk
import DemandPaging.Memory.Words
import DemandPaging.FileSys.Paths
import DemandPaging.FileSys.Chunks
import DemandPaging.Ipc.Console
import DemandPaging.User.Grep
import DemandPaging.Process.AddressSpace
import DemandPaging.User.Terminate
import DemandPaging.FileSys.Disk
import DemandPaging.Process.Wakeup
