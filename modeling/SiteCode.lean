import SiteCode.Lib.Ring
import SiteCode.ListHead.Ops
import SiteCode.ListHead.Lists
import SiteCode.ListHead.Refine
import SiteCode.ListHead.Runs
import SiteCode.Hlist.Ops
import SiteCode.Hlist.Refine
import SiteCode.Hlist.Runs
import SiteCode.Hashtable.Hash
import SiteCode.Hashtable.Table
import SiteCode.Hashtable.Runs
import SiteCode.Hashtable.Paths
import SiteCode.Fibonacci
import SiteCode.Malloc.Wrappers
import SiteCode.Malloc.Transparent
import SiteCode.Lib.Comp
import SiteCode.Malloc.Recursion
import SiteCode.Malloc.Hook
import SiteCode.Malloc.HookRuns
import SiteCode.Lib.Machine
import SiteCode.Longjmp.Coroutine
import SiteCode.Longjmp.Exception
import SiteCode.Longjmp.ExceptionRuns
import SiteCode.Hashtable.Index
import SiteCode.Hashtable.Delete
import SiteCode.Hlist.Safe
import SiteCode.Hashtable.Safe
import SiteCode.ListHead.Cut
import SiteCode.ListHead.Safe
import SiteCode.Lib.Paging
import SiteCode.Phymap
import SiteCode.Dup
import SiteCode.Lib.Lines
import SiteCode.Hugo
import SiteCode.CodeFile
import SiteCode.ListHead.Calls
import SiteCode.ListHead.Iterate
import SiteCode.ListHead.Reset
import SiteCode.Hlist.Calls
import SiteCode.Hlist.Iterate
import SiteCode.Hashtable.Spread
import SiteCode.Hashtable.Steps
import SiteCode.Lib.Rely
import SiteCode.PosixShm
import SiteCode.Lib.Overlay
import SiteCode.PhymapRuns
import SiteCode.Popen
import SiteCode.Malloc.Trace
import SiteCode.FibonacciCosts
import SiteCode.CodeFileOutcomes
import SiteCode.Lib.Writes
import SiteCode.ListHead.Writes
import SiteCode.ListHead.Careful
import SiteCode.Hashtable.Example
import SiteCode.ListHead.Plain
import SiteCode.DupCommand
