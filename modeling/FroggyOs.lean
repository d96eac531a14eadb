import FroggyOs.Boot
import FroggyOs.Klibc.HeapPages
import FroggyOs.Klibc.NestedCalls
import FroggyOs.Drivers.Uart
import FroggyOs.Interrupts.Delivery
import FroggyOs.Interrupts.ExceptionFrame
import FroggyOs.Interrupts.Idt
import FroggyOs.Klibc.BucketContracts
import FroggyOs.Klibc.Krealloc
import FroggyOs.Klibc.SharedStore
import FroggyOs.Klibc.PlaceFree
import FroggyOs.Klibc.Races
import FroggyOs.Klibc.SpinlockCores
import FroggyOs.Library.Chain
import FroggyOs.Strings.Console
import FroggyOs.Strings.EndsWith
import FroggyOs.Strings.Ultoa
import FroggyOs.Strings.Printf
import FroggyOs.Strings.Strstr
import FroggyOs.Memory.BootMap
import FroggyOs.Memory.FrameStack
import FroggyOs.Paging.ActiveRoot
import FroggyOs.Paging.Contracts
import FroggyOs.Paging.KernelTables
import FroggyOs.Vga.ClearLine
import FroggyOs.Vga.Glyphs
import FroggyOs.Vga.TextTerminal
import FroggyOs.Vmm.Failure
import FroggyOs.Vmm.PagedMemory
import FroggyOs.Vmm.Growth
import FroggyOs.Vmm.Release
