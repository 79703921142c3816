import RaptorKernel.Theory.Mem
import RaptorKernel.Theory.Run
import RaptorKernel.Theory.Tiling
import RaptorKernel.Theory.Chain
import RaptorKernel.Theory.Search
import RaptorKernel.Base
import RaptorKernel.Lib.StringC
import RaptorKernel.Mm.Kheap
import RaptorKernel.Mm.Blocks
import RaptorKernel.Mm.KheapRep
import RaptorKernel.Mm.KheapRuns
import RaptorKernel.Mm.KheapInvariant
import RaptorKernel.Mm.KheapClients
import RaptorKernel.Mm.FirstFit
import RaptorKernel.Mm.DoubleFree
import RaptorKernel.Theory.Forest
import RaptorKernel.Fs.Ramfs
import RaptorKernel.Theory.Fields
import RaptorKernel.Fs.RamfsTree
import RaptorKernel.Fs.Walk
import RaptorKernel.Fs.FreeTree
import RaptorKernel.Fs.RamfsInv
import RaptorKernel.Fs.RamfsRelink
import RaptorKernel.Fs.RamfsRuns
import RaptorKernel.Fs.Resolve
import RaptorKernel.Fs.Names
import RaptorKernel.Fs.Path
import RaptorKernel.Lib.Kprintf
import RaptorKernel.Theory.Numeral
import RaptorKernel.Lib.Formats
import RaptorKernel.Lib.Console
import RaptorKernel.Shell.Commands
import RaptorKernel.Shell.Shell
import RaptorKernel.Fs.Calls
import RaptorKernel.Fs.Visits
import RaptorKernel.Fs.Create
import RaptorKernel.Fs.Delete
import RaptorKernel.Fs.Move
import RaptorKernel.Fs.History
import RaptorKernel.Fs.UnixPaths
import RaptorKernel.Shell.CommandRuns
import RaptorKernel.Shell.ShellRuns
import RaptorKernel.Shell.Cwd
import RaptorKernel.Shell.ShellNames
import RaptorKernel.Shell.SplitParent
import RaptorKernel.Shell.Cp
import RaptorKernel.Shell.Redirect
import RaptorKernel.Shell.Tokenize
import RaptorKernel.Shell.Words
import RaptorKernel.Theory.RingBuf
import RaptorKernel.Drivers.Keyboard
import RaptorKernel.Lib.ConsoleInput
import RaptorKernel.Shell.ReadLine
import RaptorKernel.Shell.Rounds
import RaptorKernel.Drivers.LetterCase
import RaptorKernel.Theory.Bitmap
import RaptorKernel.Mm.Pmm
import RaptorKernel.Mm.Paging
import RaptorKernel.Theory.Terminal
import RaptorKernel.Drivers.Vga
import RaptorKernel.Theory.Grid
import RaptorKernel.Drivers.VgaGrid
import RaptorKernel.Shell.LineScreen
import RaptorKernel.Lib.Numbers
import RaptorKernel.Shell.Grep
import RaptorKernel.Shell.Hexdump
import RaptorKernel.Shell.NumericArgs
import RaptorKernel.Theory.Calendar
import RaptorKernel.Drivers.Rtc
import RaptorKernel.Drivers.RtcDecode
import RaptorKernel.Lib.SerialConsole
import RaptorKernel.Kernel.Panic
import RaptorKernel.Theory.X86
import RaptorKernel.Kernel.Isr
import RaptorKernel.Kernel.Gdt
import RaptorKernel.Theory.Pic
import RaptorKernel.Kernel.Idt
import RaptorKernel.Kernel.Irq
import RaptorKernel.Theory.PathMap
import RaptorKernel.Theory.Uart
import RaptorKernel.Drivers.Serial
import RaptorKernel.Fs.View
import RaptorKernel.Fs.Refinement
import RaptorKernel.Fs.Undo
import RaptorKernel.Shell.MapShell
import RaptorKernel.Shell.MapCommands
import RaptorKernel.Shell.Typing
import RaptorKernel.Shell.MapRedirect
import RaptorKernel.Lib.StringReads
import RaptorKernel.Shell.Footprint
import RaptorKernel.Kernel.Main
import RaptorKernel.Theory.Pit
import RaptorKernel.Drivers.Timer
