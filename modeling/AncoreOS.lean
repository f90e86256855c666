import AncoreOS.Library.ByteMemory
import AncoreOS.Library.Chain
import AncoreOS.Library.Loop
import AncoreOS.Mm.Pmm
import AncoreOS.Mm.PmmInvariant
import AncoreOS.Mm.PmmRun
import AncoreOS.Library.Radix
import AncoreOS.Mm.Vmm
import AncoreOS.Mm.VmmTree
import AncoreOS.Mm.VmmDescend
import AncoreOS.Mm.VmmSpec
import AncoreOS.Mm.VmmOom
import AncoreOS.Mm.VmmRun
import AncoreOS.Mm.VmmRefine
import AncoreOS.Mm.VmmPermission
import AncoreOS.Mm.VmmFrame
import AncoreOS.Library.WordStack
import AncoreOS.Arch.Cpu
import AncoreOS.Arch.Isr
import AncoreOS.Kernel.Keyboard
import AncoreOS.Kernel.KeyboardChars
import AncoreOS.Kernel.Getc
import AncoreOS.Drivers.ApicIrq
import AncoreOS.Drivers.Ata
import AncoreOS.Drivers.AtaDrive
import AncoreOS.Drivers.AtaTransfer
import AncoreOS.Drivers.AtaRecord
import AncoreOS.Drivers.AtaCover
import AncoreOS.Drivers.Atapi
import AncoreOS.Drivers.Sata
import AncoreOS.Drivers.Storage
import AncoreOS.Drivers.SectorMoves
import AncoreOS.Drivers.DriveRead
import AncoreOS.Drivers.StorageInit
import AncoreOS.Drivers.SataCompletion
import AncoreOS.Library.CallTree
import AncoreOS.Drivers.Pci
import AncoreOS.Drivers.PciScan
import AncoreOS.Drivers.Ehci
import AncoreOS.Drivers.EhciWords
import AncoreOS.Drivers.EhciPages
import AncoreOS.Drivers.EhciSchedule
import AncoreOS.Library.Scanner
import AncoreOS.Klibc.Stdio
import AncoreOS.Tools.Serial
import AncoreOS.Tools.LogInfo
import AncoreOS.Tools.FormatItems
import AncoreOS.Tools.FormatAgree
import AncoreOS.Library.Partition
import AncoreOS.Library.Quicksort
import AncoreOS.Klibc.Sort
import AncoreOS.Klibc.Bsearch
import AncoreOS.Klibc.QsortSteps
import AncoreOS.Klibc.Qsort
import AncoreOS.Klibc.Strtol
import AncoreOS.Library.Buffer
import AncoreOS.Klibc.Itoa
import AncoreOS.Tools.PrintfNumbers
import AncoreOS.Klibc.SprintFields
import AncoreOS.Klibc.Vsprintf
import AncoreOS.Library.Munch
import AncoreOS.Library.Cursor
import AncoreOS.Tools.SprintItems
import AncoreOS.Tools.FormatCursor
import AncoreOS.Tools.PaddedNumbers
import AncoreOS.Tools.LogBuffer
import AncoreOS.Tools.Printk
import AncoreOS.Klibc.Atoi
import AncoreOS.Klibc.StrtolEnd
import AncoreOS.Library.SignedArith
import AncoreOS.Klibc.StrtolRange
import AncoreOS.Klibc.StringMemory
import AncoreOS.Klibc.Strlcpy
import AncoreOS.Klibc.Strlcat
import AncoreOS.Klibc.StringCompare
import AncoreOS.Klibc.Limits
import AncoreOS.Klibc.Calloc
import AncoreOS.Kernel.Shell
import AncoreOS.Drivers.AtaIdentify
import AncoreOS.Drivers.AtaReady
import AncoreOS.Drivers.AtaSelect
import AncoreOS.Drivers.AtapiIdentify
import AncoreOS.Drivers.AhciLimits
import AncoreOS.Drivers.AtaCalls
import AncoreOS.Drivers.AtapiPhases
import AncoreOS.Drivers.RegisterAccess
import AncoreOS.Drivers.SearchReads
import AncoreOS.Drivers.EhciMap
import AncoreOS.Drivers.SearchPages
import AncoreOS.Drivers.PciBar
import AncoreOS.Library.Prefixes
import AncoreOS.Kernel.Modifiers
import AncoreOS.Library.TextLine
import AncoreOS.Kernel.LineEditor
import AncoreOS.Drivers.EhciQtd
import AncoreOS.Drivers.EhciPoll
import AncoreOS.Library.Records
import AncoreOS.Drivers.UsbDescriptors
import AncoreOS.Drivers.EhciControl
import AncoreOS.Drivers.MsdFind
import AncoreOS.Drivers.EhciFrame
import AncoreOS.Drivers.MsdRead
import AncoreOS.Arch.ListNodes
import AncoreOS.Mm.CacheFlush
import AncoreOS.Drivers.Pic
import AncoreOS.Tools.Pit
import AncoreOS.Kernel.ClockTime
import AncoreOS.Kernel.TscDelay
import AncoreOS.Arch.IsrExit
import AncoreOS.Kernel.Execute
import AncoreOS.Tools.Division
import AncoreOS.Library.SizeClasses
import AncoreOS.Library.WordCells
import AncoreOS.Library.LinkedLists
import AncoreOS.Library.BlockTiling
import AncoreOS.Heap.Tlsf
import AncoreOS.Heap.TlsfSizes
import AncoreOS.Heap.TlsfBlocks
import AncoreOS.Heap.TlsfLists
import AncoreOS.Heap.TlsfHeap
import AncoreOS.Heap.TlsfOps
import AncoreOS.Heap.TlsfCalls
import AncoreOS.Heap.TlsfInit
import AncoreOS.Heap.TlsfRun
import AncoreOS.Heap.TlsfFit
import AncoreOS.Heap.TlsfCheck
import AncoreOS.Heap.TlsfAlign
import AncoreOS.Heap.TlsfRefused
import AncoreOS.Library.Rv32
import AncoreOS.Drivers.RvVm
import AncoreOS.Drivers.RvVmStep
import AncoreOS.Drivers.RvVmRun
import AncoreOS.Library.PendingCells
import AncoreOS.Terminal.FbGrid
import AncoreOS.Terminal.FbScreen
import AncoreOS.Terminal.FbRun
import AncoreOS.Library.Strokes
import AncoreOS.Terminal.FbPixels
import AncoreOS.Terminal.FbDraw
import AncoreOS.Terminal.FbInsert
import AncoreOS.Library.IntervalTable
import AncoreOS.Terminal.FbText
