import UnagiOs.Theory.Machine
import UnagiOs.Theory.Ring
import UnagiOs.Theory.Words
import UnagiOs.Theory.Slots
import UnagiOs.Theory.Loops
import UnagiOs.Theory.Layers
import UnagiOs.Theory.Painter
import UnagiOs.Theory.Bitmap
import UnagiOs.Theory.CycleRing
import UnagiOs.Theory.Transducer
import UnagiOs.Theory.BoundedQueue
import UnagiOs.Theory.BitField
import UnagiOs.Theory.PageWalk
import UnagiOs.Theory.Split
import UnagiOs.Theory.Account
import UnagiOs.Theory.NullChain
import UnagiOs.Theory.DepthFirst
import UnagiOs.Theory.LengthPrefixed
import UnagiOs.Theory.Rounding
import UnagiOs.Theory.ByteMemory
import UnagiOs.Theory.Scrollback
import UnagiOs.Theory.Sink
import UnagiOs.Theory.TypedInput
import UnagiOs.Theory.Conveyor
import UnagiOs.Util.Dlist
import UnagiOs.Util.DlistHeap
import UnagiOs.Util.Kutil
import UnagiOs.Util.Fifo
import UnagiOs.Util.ArrayQueue
import UnagiOs.Util.QueueRefine
import UnagiOs.Util.Error
import UnagiOs.Util.Printf
import UnagiOs.Util.PrintfText
import UnagiOs.Util.PrintfTypes
import UnagiOs.Util.PrintfNumber
import UnagiOs.Memory.Heapdl
import UnagiOs.Memory.Arena
import UnagiOs.Memory.HeapdlRefine
import UnagiOs.Memory.HeapdlOps
import UnagiOs.Memory.HeapdlRun
import UnagiOs.Memory.HeapdlCoalesce
import UnagiOs.Memory.HeapdlFit
import UnagiOs.Memory.HeapdlFrame
import UnagiOs.Memory.HeapdlStale
import UnagiOs.Memory.HeapdlOwn
import UnagiOs.Memory.HeapTable
import UnagiOs.Memory.HeapTableRun
import UnagiOs.Paging.FourLevel
import UnagiOs.Paging.Directory
import UnagiOs.Paging.DirectoryInit
import UnagiOs.Paging.SetPage
import UnagiOs.Pic.Requests
import UnagiOs.Pic.Timer
import UnagiOs.Pic.TimerQueue
import UnagiOs.Pic.TimerOps
import UnagiOs.Pic.TimerRun
import UnagiOs.Pic.TimerFiring
import UnagiOs.Pic.TimerEarly
import UnagiOs.Pic.TimerBlocks
import UnagiOs.Kernel.Process
import UnagiOs.Kernel.Sched
import UnagiOs.Kernel.SchedRun
import UnagiOs.Kernel.Executing
import UnagiOs.Kernel.RoundRobin
import UnagiOs.Kernel.LevelRoom
import UnagiOs.Kernel.Mprocessfifo
import UnagiOs.Kernel.Wakeup
import UnagiOs.Kernel.Gdt
import UnagiOs.Kernel.Keys
import UnagiOs.Graphic.Sheet
import UnagiOs.Graphic.SheetDraw
import UnagiOs.Graphic.SheetStack
import UnagiOs.Graphic.SheetUpdown
import UnagiOs.Graphic.SheetPixels
import UnagiOs.Graphic.SheetRun
import UnagiOs.Graphic.SheetPicture
import UnagiOs.Graphic.SheetZmap
import UnagiOs.Graphic.SheetVram
import UnagiOs.Graphic.SheetAccess
import UnagiOs.Graphic.Videomode
import UnagiOs.Graphic.Draw8
import UnagiOs.Graphic.LineBuffer
import UnagiOs.Graphic.Kfprint
import UnagiOs.Graphic.Textbox
import UnagiOs.Graphic.PixelWriter
import UnagiOs.Graphic.Console
import UnagiOs.Graphic.MouseCursor
import UnagiOs.Drivers.Ps2mouse
import UnagiOs.Drivers.MouseHandler
import UnagiOs.Drivers.Keyboard
import UnagiOs.Kernel.ConsoleMain
import UnagiOs.Kernel.Typing
import UnagiOs.Fs.Pathparser
import UnagiOs.Fs.PathHeap
import UnagiOs.Disk.Dstream
import UnagiOs.Frame.MemoryManager
import UnagiOs.Frame.BitmapRun
import UnagiOs.Frame.MemoryMap
import UnagiOs.Usb.Trb
import UnagiOs.Usb.Ring
import UnagiOs.Usb.RingRun
import UnagiOs.Usb.EventRing
import UnagiOs.Usb.PortConfig
import UnagiOs.Usb.PortRun
import UnagiOs.Usb.MainLoop
import UnagiOs.Usb.ArrayMap
import UnagiOs.Usb.ArrayMapRefine
import UnagiOs.Usb.Device
import UnagiOs.Usb.DeviceRun
import UnagiOs.Usb.Descriptor
import UnagiOs.Usb.InitPhase2
import UnagiOs.Usb.ConfigBlock
import UnagiOs.Usb.Memory
import UnagiOs.Usb.Keyboard
import UnagiOs.Usb.PackedPointer
import UnagiOs.Usb.Host
import UnagiOs.Usb.HostStage
import UnagiOs.Usb.HostRun
import UnagiOs.Pci.Config
import UnagiOs.Pci.Scan
import UnagiOs.Pci.Msi
import UnagiOs.Loader.Elf
