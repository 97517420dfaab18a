import MicroKernel.Lib.ByteMem
import MicroKernel.Lib.While
import MicroKernel.Lib.Reading
import MicroKernel.Machine.Word
import MicroKernel.Kernel.Multiboot
import MicroKernel.Kernel.Pmm
import MicroKernel.Spec.MemoryMap
import MicroKernel.Proofs.PmmWalk
import MicroKernel.Lib.Bump
import MicroKernel.Proofs.PmmAlloc
import MicroKernel.Proofs.PmmSafety
import MicroKernel.Machine.X86
import MicroKernel.Core.Interrupts
import MicroKernel.Kernel.Isr
import MicroKernel.Proofs.StubFrame
import MicroKernel.Proofs.IdtGates
import MicroKernel.Proofs.IsrStub
import MicroKernel.Lib.Numeral
import MicroKernel.Machine.Console
import MicroKernel.Core.Printf
import MicroKernel.Core.Shown
import MicroKernel.Spec.Format
import MicroKernel.Proofs.Printf
import MicroKernel.Lib.Split
import MicroKernel.Lib.CArray
import MicroKernel.Kernel.String
import MicroKernel.Kernel.Shell
import MicroKernel.Proofs.StringFns
import MicroKernel.Spec.LineEditor
import MicroKernel.Proofs.ShellExec
import MicroKernel.Proofs.ShellEdit
import MicroKernel.Proofs.ShellWords
import MicroKernel.Proofs.Strtok
import MicroKernel.Lib.DigitBuffer
import MicroKernel.Core.Panic
import MicroKernel.Kernel.Main
import MicroKernel.Core.Commands
import MicroKernel.Spec.Numerals
import MicroKernel.Proofs.Numerals
import MicroKernel.Proofs.HexText
import MicroKernel.Spec.Directive
import MicroKernel.Spec.DumpText
import MicroKernel.Proofs.PrintfBound
import MicroKernel.Spec.HexDump
import MicroKernel.Proofs.HexDump
import MicroKernel.Lib.History
import MicroKernel.Kernel.Keyboard
import MicroKernel.Spec.Typing
import MicroKernel.Proofs.Keyboard
import MicroKernel.Lib.Frame
import MicroKernel.Machine.System
import MicroKernel.Core.Vga
import MicroKernel.Spec.Terminal
import MicroKernel.Lib.Block
import MicroKernel.Machine.Calls
import MicroKernel.Proofs.VgaMemory
import MicroKernel.Proofs.VgaRoutines
import MicroKernel.Proofs.VgaChar
import MicroKernel.Lib.NulString
import MicroKernel.Proofs.Newline
import MicroKernel.Proofs.VgaString
import MicroKernel.Machine.Segments
import MicroKernel.Core.Install
import MicroKernel.Core.Start
import MicroKernel.Proofs.Timer
import MicroKernel.Proofs.ControlRegs
import MicroKernel.Machine.Paging
import MicroKernel.Proofs.Paging
import MicroKernel.Core.Detect
import MicroKernel.Proofs.Detect
import MicroKernel.Proofs.DumpText
import MicroKernel.Proofs.Backspace
import MicroKernel.Spec.PanicScreen
import MicroKernel.Proofs.PanicScreen
import MicroKernel.Proofs.StackTrace
import MicroKernel.Proofs.PanicDump
import MicroKernel.Spec.Cursor
import MicroKernel.Proofs.VgaTrace
import MicroKernel.Proofs.VgaCalls
import MicroKernel.Proofs.Install
import MicroKernel.Proofs.Start
import MicroKernel.Lib.PackedBits
import MicroKernel.Core.Bitmap
import MicroKernel.Spec.PageSet
import MicroKernel.Proofs.Bitmap
import MicroKernel.Proofs.Strcmp
import MicroKernel.Core.Memory
import MicroKernel.Proofs.Memcpy
import MicroKernel.Proofs.ScrollScreen
import MicroKernel.Proofs.PrintfScan
import MicroKernel.Core.Atoi
import MicroKernel.Proofs.Atoi
import MicroKernel.Core.Hal
import MicroKernel.Proofs.Cdecl
import MicroKernel.Lib.Events
import MicroKernel.Machine.Pic
import MicroKernel.Kernel.Idt
import MicroKernel.Proofs.Pic
import MicroKernel.Proofs.Irq
import MicroKernel.Proofs.KeyDelivery
import MicroKernel.Spec.Session
import MicroKernel.Proofs.ShellSession
import MicroKernel.Lib.Emits
import MicroKernel.Machine.Crtc
import MicroKernel.Machine.Control
import MicroKernel.Proofs.VgaPorts
import MicroKernel.Proofs.KernelMain
import MicroKernel.Lib.Regions
import MicroKernel.Proofs.Layout
import MicroKernel.Proofs.Effects
import MicroKernel.Proofs.TaskRegister
import MicroKernel.Proofs.Handover
import MicroKernel.Proofs.BootMasks
