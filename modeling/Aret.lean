import Aret.Ir
import Aret.Analysis
import Aret.BuildIr
import Aret.BuildIrControl
import Aret.BuildIrShape
import Aret.ParentMap
import Aret.Dom
import Aret.Simulation
import Aret.IrSem
import Aret.Ssa
import Aret.SsaPlace
import Aret.SsaRename
import Aret.SsaWalk
import Aret.SsaSound
import Aret.SsaEntry
import Aret.Opt
import Aret.Destruct
import Aret.DestructSound
import Aret.SsaDestruct
import Aret.ObjCache
import Aret.ObjCacheSound
import Aret.PathBytes
import Aret.ReadTree
import Aret.Fiber
import Aret.FiberRun
import Aret.FiberWait
import Aret.FiberShape
import Aret.FiberLock
import Aret.FiberLockRun
import Aret.GnuEh
import Aret.GnuEhNest
import Aret.ThreadState
import Aret.Alu
import Aret.BitScan
import Aret.Lift
import Aret.LiftRun
import Aret.LiftArith
import Aret.AluShift
import Aret.LiftShift
import Aret.LiftMul
import Aret.RingBuffer
import Aret.MsgQueue
import Aret.Runs
import Aret.MsgPump
import Aret.MsgExact
import Aret.WinOwn
import Aret.WinTable
import Aret.WinView
import Aret.WinFresh
import Aret.Percent
import Aret.Txn
import Aret.MemoryText
import Aret.MemoryRows
import Aret.MemorySql
import Aret.MemoryOps
import Aret.MemoryLife
import Aret.MemoryFrame
import Aret.MemoryNames
import Aret.MemoryWork
import Aret.MemoryKept
import Aret.MemoryRelations
import Aret.MemoryResume
import Aret.SoftWide
import Aret.Overlap
import Aret.Memcall
import Aret.MemcallExact
import Aret.Fields
import Aret.SubReg
import Aret.Eflags
import Aret.Place
import Aret.BitInsn
import Aret.BitExact
import Aret.MagicDiv
import Aret.Magic
import Aret.Fold
import Aret.FoldSound
import Aret.CondEnd
import Aret.Rounds
import Aret.StringInsn
import Aret.StringExact
import Aret.MagicExact
import Aret.Dominance
import Aret.DomExact
import Aret.FrontierExact
import Aret.Alias
import Aret.AliasRun
import Aret.StrictSsa
import Aret.PropSound
import Aret.LiftedText
import Aret.Dataflow
import Aret.DataflowChains
import Aret.DataflowLive
import Aret.DataflowCode
import Aret.DataflowRun
import Aret.DceSound
import Aret.ConstSound
import Aret.DeadCode
import Aret.FoldRun
import Aret.OptLoop
import Aret.Checked
import Aret.EhFrame
import Aret.EhFrameSafe
import Aret.LsdaExact
import Aret.ByteBuf
import Aret.ImportDir
import Aret.ImportDirExact
import Aret.Fips180
import Aret.Sha256
import Aret.Forest
import Aret.Types
import Aret.TypeJoin
import Aret.TypeOrder
import Aret.BlockForm
import Aret.ImportRegs
import Aret.Image
import Aret.PseudoReloc
import Aret.MergeModules
import Aret.Worklist
import Aret.RetJumps
import Aret.JumpTable
import Aret.Drain
import Aret.FrameHelper
import Aret.Rounding
import Aret.Growing
import Aret.FpReturning
import Aret.TypeMatch
import Aret.JmpBuf
import Aret.OutBuf
import Aret.LexPath
import Aret.TranslatePath
import Aret.Lzss
import Aret.Szdd
import Aret.LzFile
import Aret.Lines
import Aret.Ini
import Aret.IniEdit
import Aret.IniExact
import Aret.Slots
import Aret.NtFile
import Aret.ShiftSort
import Aret.OffsetChain
import Aret.DirQuery
import Aret.Overlay
import Aret.Snapshot
import Aret.MapMemory
import Aret.CStream
import Aret.Stdio
import Aret.StdioStreams
import Aret.StdioCalls
import Aret.StdioLawful
import Aret.FormatRef
import Aret.Vformat
import Aret.VformatParse
import Aret.VformatExact
import Aret.Printf
import Aret.Strto
import Aret.Wcsto
import Aret.Named
import Aret.SortKey
import Aret.Collate
import Aret.Raster
import Aret.GitScope
import Aret.Continues
import Aret.Atoms
import Aret.Blit
import Aret.Regions
import Aret.Pipeline
