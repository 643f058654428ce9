import FirstOs.Memory.Exclusive
import FirstOs.Memory.Undo
import FirstOs.Memory.Window
import FirstOs.Memory.Fork
import FirstOs.Heap.Blocks
import FirstOs.Heap.Cases
import FirstOs.Heap.Runs
import FirstOs.Heap.Ends
import FirstOs.Heap.Safety
import FirstOs.Heap.Integrity
import FirstOs.Heap.Balance
import FirstOs.Machine.Walk
import FirstOs.Machine.Clone
import FirstOs.Machine.Boot
import FirstOs.Machine.Tables
import FirstOs.Machine.Runs
import FirstOs.Console.Tail
import FirstOs.Console.Screen
import FirstOs.Console.Keyboard
import FirstOs.Console.Editing
import FirstOs.Console.Ring
import FirstOs.Console.Line
import FirstOs.Memory.Bounds
import FirstOs.Machine.MemoryMap
import FirstOs.Machine.Switch
import FirstOs.Memory.Outcome
import FirstOs.Memory.User
import FirstOs.Memory.Reserve
import FirstOs.Memory.FirstFit
import FirstOs.Library.Search
import FirstOs.Pci.Config
import FirstOs.Pci.Drivers
import FirstOs.Pci.Scan
import FirstOs.Disk.Handlers
import FirstOs.Disk.Ahci
import FirstOs.Disk.Commands
import FirstOs.Disk.Requests
import FirstOs.Idt.Stubs
import FirstOs.Pci.Write
import FirstOs.Console.Printf
import FirstOs.Console.Tabs
import FirstOs.Console.Sheet
import FirstOs.Console.Erase
import FirstOs.Console.Modifiers
import FirstOs.Console.LineEditor
import FirstOs.Heap.Create
import FirstOs.Heap.Refused
import FirstOs.Memory.Failure
import FirstOs.Memory.Secret
import FirstOs.Memory.Realloc
import FirstOs.Disk.Slots
import FirstOs.Library.Counter
import FirstOs.Machine.Release
import FirstOs.Gdt.Descriptors
import FirstOs.Pci.Header
import FirstOs.Gdt.Tss
import FirstOs.Disk.Ata
import FirstOs.Library.CString
import FirstOs.Strings.Strcpy
import FirstOs.Library.Numeral
import FirstOs.Strings.Itoa
import FirstOs.Console.Numbers
import FirstOs.Idt.Delivery
import FirstOs.Kernel.Devices
import FirstOs.Memory.Account
import FirstOs.Heap.Several
import FirstOs.Disk.InFlight
import FirstOs.Idt.Traps
import FirstOs.Machine.KernelMap
