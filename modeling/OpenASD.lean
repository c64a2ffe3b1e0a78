import OpenASD.Arch.Fault
import OpenASD.Arch.Identity
import OpenASD.Arch.Isolation
import OpenASD.Arch.Mmap
import OpenASD.Arch.Stdio
import OpenASD.Block.Checksum
import OpenASD.Block.Retry
import OpenASD.Boot.Cmdline
import OpenASD.Boot.Handoff
import OpenASD.Boot.Uki
import OpenASD.Drv.Adf
import OpenASD.Drv.Layout
import OpenASD.Drv.VirtioBlk
import OpenASD.Init.Installer
import OpenASD.Init.Persist
import OpenASD.Init.Waves
import OpenASD.Ipc.Blocking
import OpenASD.Mm.Failures
import OpenASD.Mm.Kfree
import OpenASD.Mm.RegionLinks
import OpenASD.Mm.Translation
import OpenASD.Sched.Balance
import OpenASD.Sched.Context
import OpenASD.Sched.Steal
import OpenASD.Sched.Wait
import OpenASD.Security.Entropy
import OpenASD.Security.SlidingWindow
import OpenASD.Usr.Lines
import OpenASD.Vfs.Buffers
import OpenASD.Vfs.Descriptors
import OpenASD.Vfs.FatPath
import OpenASD.Vfs.InPlace
import OpenASD.Vfs.Listing
import OpenASD.Vfs.Mounts
import OpenASD.Vfs.Spelling
import OpenASD.Arch.UserCopy
import OpenASD.Security.RateLimit
