import CompositeRtos.Scf.Malformed
import CompositeRtos.Scf.SelfDeadlock
import CompositeRtos.Scf.QueueLayout
import CompositeRtos.Scf.ForwardedRead
import CompositeRtos.Uintr.Stranded
import CompositeRtos.Uintr.Transparency
import CompositeRtos.Uintr.Apic
import CompositeRtos.Uintr.Xsave
import CompositeRtos.Uintr.Eflags
import CompositeRtos.Nimbos.LoadImage
import CompositeRtos.Nimbos.UpidLifetime
import CompositeRtos.Nimbos.ConsoleWrite
import CompositeRtos.Nimbos.Exec
import CompositeRtos.Nimbos.LockHandoff
import CompositeRtos.Nimbos.Clock
import CompositeRtos.Nimbos.FreeListSet
import CompositeRtos.Nimbos.BitSet
import CompositeRtos.Nimbos.Fprintf
import CompositeRtos.Rvm.ErrorReport
import CompositeRtos.Rvm.Reuse
import CompositeRtos.Rvm.HvPageTable
import CompositeRtos.Rvm.OffsetRegion
import CompositeRtos.Rvm.CloneSharing
import CompositeRtos.Rvm.MsrBitmap
import CompositeRtos.Rvm.Cpuid
import CompositeRtos.Rvm.StartPhases
import CompositeRtos.Rvm.RtCpus
import CompositeRtos.Rvm.Frames
import CompositeRtos.Rvm.GuestAccess
import CompositeRtos.Driver.MemoryMap
import CompositeRtos.Driver.Enable
