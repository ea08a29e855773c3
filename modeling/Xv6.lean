import Xv6.Fs.FileOps
import Xv6.Sys.TagOps
import Xv6.Fs.DirSpec
import Xv6.Fs.Names
import Xv6.Lib.Machine
import Xv6.Proc.Pipe
import Xv6.Proc.Sleep
import Xv6.Proc.Table
import Xv6.Proc.TableInv
import Xv6.Proc.Family
import Xv6.Proc.Kill
import Xv6.Dev.Bio
import Xv6.Dev.BioSafe
import Xv6.Dev.BioBound
import Xv6.Fs.Refs
import Xv6.Lib.Holders
import Xv6.Sys.Calls
import Xv6.Sys.Counts
import Xv6.Sys.Keep
import Xv6.Sys.Runs
import Xv6.Tools.Mkfs
import Xv6.Tools.MkfsImage
import Xv6.Tools.MkfsBoot
import Xv6.Tools.MkfsTree
import Xv6.Fs.DirMap
import Xv6.Fs.Ops
import Xv6.Fs.Sequences
import Xv6.Sys.TagAnswer
import Xv6.Sys.TagFind
import Xv6.Dev.Console
import Xv6.Mm.UserPages
import Xv6.Fs.Paths
import Xv6.Fs.Undo
import Xv6.Sys.Failed
import Xv6.Sys.TagTouch
import Xv6.Mm.Tables
import Xv6.Mm.Copy
import Xv6.Mm.Image
import Xv6.Mm.Argv
import Xv6.Mm.Args
import Xv6.Mm.ExecArgs
import Xv6.Sys.TagScan
import Xv6.Mm.Memmove
import Xv6.Mm.KernelMap
import Xv6.Mm.Copyout
import Xv6.Mm.Resize
import Xv6.User.Grep
import Xv6.User.GrepLines
import Xv6.User.Parse
import Xv6.User.Grammar
import Xv6.User.Strings
import Xv6.Lib.Segment
import Xv6.User.Umalloc
import Xv6.User.HeapRuns
import Xv6.User.MallocSize
import Xv6.Dev.Ide
import Xv6.Dev.IdeQueue
import Xv6.Dev.Mp
import Xv6.Proc.Spinlock
