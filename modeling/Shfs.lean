import Shfs.Accounting
import Shfs.Chunks
import Shfs.Resync
import Shfs.Transparency
import Shfs.LostWrites
import Shfs.Truncation
import Shfs.SameFile
import Shfs.Shfsmount
import Shfs.LsLine
import Shfs.ShellReplies
import Shfs.Agreement
import Shfs.CutShort
import Shfs.Slots
import Shfs.LockDiscipline
import Shfs.LongPaths
import Shfs.SlowRead
import Shfs.Names
import Shfs.Symlink
import Shfs.ReadOnly
import Shfs.KeptMode
import Shfs.Overrun
import Shfs.RecentTimes
import Shfs.Proto
import Shfs.CacheWords
import Shfs.WriteTruth
import Shfs.Offsets
import Shfs.StatReply
import Shfs.PerlLoops
import Shfs.ReadLines
import Shfs.QuoteInPlace
import Shfs.DirColumns
import Shfs.Template
import Shfs.Arrays
import Shfs.ToolReadln
import Shfs.RootLine
import Shfs.OptionString
import Shfs.Ageing
import Shfs.Dentries
import Shfs.DirCache
import Shfs.ReaddirOnce
import Shfs.GetName
import Shfs.ReaddirComplete
import Shfs.Callers
import Shfs.Mtab
import Shfs.RemoteFile
import Shfs.ShellCall
import Shfs.Handshake
import Shfs.RemoteListing
import Shfs.Persistent
import Shfs.Unmount
