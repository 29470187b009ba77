import BasicOs.Lib.Run
import BasicOs.Lib.Bytes
import BasicOs.Lib.Screen
import BasicOs.State
import BasicOs.Paging
import BasicOs.Video
import BasicOs.Screens
import BasicOs.Filesystem
import BasicOs.Devices
import BasicOs.Terminal
import BasicOs.Syscall
import BasicOs.Descriptors
import BasicOs.Lib.Chunks
import BasicOs.FileReads
import BasicOs.Keyboard
import BasicOs.Process
import BasicOs.Lib.LinkedStack
import BasicOs.Machine
import BasicOs.Running
import BasicOs.Bracketing
import BasicOs.VidmapPage
import BasicOs.CtrlC
import BasicOs.Lib.LineBuffer
import BasicOs.LineEditor
import BasicOs.LineDiscipline
import BasicOs.History
import BasicOs.BufferSafety
import BasicOs.FileData
import BasicOs.ImageBounds
import BasicOs.Lookup
import BasicOs.ReadBounds
import BasicOs.CommandLine
import BasicOs.Loader
import BasicOs.AddressSpace
import BasicOs.Lib.Pic
import BasicOs.Directory
import BasicOs.Interference
import BasicOs.BootProtocol
import BasicOs.Cursor
import BasicOs.CursorSafety
import BasicOs.Admission
import BasicOs.Erasing
import BasicOs.Recall
import BasicOs.Navigation
import BasicOs.HistoryEvents
import BasicOs.HistoryRows
import BasicOs.HistoryLog
import BasicOs.Printf
import BasicOs.Completion
import BasicOs.KeySwitch
import BasicOs.Interrupts
import BasicOs.RtcWait
import BasicOs.TabKey
import BasicOs.Listing
import BasicOs.CompletionBounds
import BasicOs.Lib.BoundedStack
import BasicOs.EditorStack
import BasicOs.Lib.Numeral
import BasicOs.Numbers
import BasicOs.Lib.ByteCopy
import BasicOs.Lib.X86
import BasicOs.Memcpy
import BasicOs.Format
import BasicOs.Exceptions
import BasicOs.System
import BasicOs.UserMemory
import BasicOs.Lib.Threads
import BasicOs.ProcessStacks
import BasicOs.Lib.Client
import BasicOs.Programs
import BasicOs.Company
import BasicOs.UserPrograms
import BasicOs.Lib.Trap
import BasicOs.Lib.Nested
import BasicOs.Linkage
