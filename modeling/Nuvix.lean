import Nuvix.Mm.ForkIsolation
import Nuvix.Fs.PipeStream
import Nuvix.Kernel.SchedInvariant
import Nuvix.Kernel.StopContinueInvariant
import Nuvix.Mm.MmStructInvariant
import Nuvix.Kernel.PidSectionsInvariant
import Nuvix.Mm.MappingPurge
import Nuvix.Fs.IcacheInvariant
import Nuvix.Drivers.VirtioBlkInvariant
import Nuvix.Kernel.Mutex
import Nuvix.Kernel.SignalWakeup
import Nuvix.Kernel.TimerInvariant
import Nuvix.Kernel.CompletionInvariant
import Nuvix.Mm.BuddyBoot
import Nuvix.Mm.SlubRun
import Nuvix.Fs.Ext2File
import Nuvix.Kernel.ImagePaging
import Nuvix.Drivers.TtyInvariant
import Nuvix.Drivers.TtyOutput
import Nuvix.Mm.MapCalls
import Nuvix.Fs.BlockPath
