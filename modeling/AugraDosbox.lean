import AugraDosbox.Lib.Chain
import AugraDosbox.Lib.PosixPath
import AugraDosbox.Lib.Tiling
import AugraDosbox.Lib.BitRegister
import AugraDosbox.Lib.LinkedList
import AugraDosbox.Lib.Ends
import AugraDosbox.Lib.Runs
import AugraDosbox.Hardware.Pages
import AugraDosbox.Hardware.PageChains
import AugraDosbox.Hardware.PageRuns
import AugraDosbox.Hardware.PageScatter
import AugraDosbox.Hardware.PageOverrun
import AugraDosbox.Ints.Xms
import AugraDosbox.Ints.XmsRuns
import AugraDosbox.Ints.XmsA20
import AugraDosbox.Hardware.PageBestFit
import AugraDosbox.Ints.XmsMove
import AugraDosbox.Ints.Ems
import AugraDosbox.Ints.EmsMapping
import AugraDosbox.Ints.EmsRuns
import AugraDosbox.Ints.EmsAnswers
import AugraDosbox.Ints.EmsPartial
import AugraDosbox.Lib.Transfer
import AugraDosbox.Ints.EmsRegion
import AugraDosbox.Cpu.LazyFlags
import AugraDosbox.Cpu.FlagsAgree
import AugraDosbox.Cpu.DynrecOps
import AugraDosbox.Cpu.NormalOps
import AugraDosbox.Cpu.DynrecAgree
import AugraDosbox.Cpu.Division
import AugraDosbox.Cpu.DynrecFlags
import AugraDosbox.Cpu.AluFlags
import AugraDosbox.Cpu.ShiftFlags
import AugraDosbox.Cpu.DynrecRmw
import AugraDosbox.Cpu.PagingAccess
import AugraDosbox.Cpu.PagingRuns
import AugraDosbox.Cpu.PagingFaults
import AugraDosbox.Cpu.PagingLinks
import AugraDosbox.Cpu.PagingReadOnly
import AugraDosbox.Cpu.PagingGrants
import AugraDosbox.Cpu.PagingDirty
import AugraDosbox.Dos.MountPolicy
import AugraDosbox.Dos.Mcb
import AugraDosbox.Dos.McbChain
import AugraDosbox.Dos.McbCompress
import AugraDosbox.Dos.McbCalls
import AugraDosbox.Dos.McbUpper
import AugraDosbox.Dos.McbRuns
import AugraDosbox.Dos.Fat
import AugraDosbox.Dos.FatTable
import AugraDosbox.Dos.FatNames
import AugraDosbox.Dos.FatDirectory
import AugraDosbox.Dos.FatFile
import AugraDosbox.Dos.FatFileBounds
import AugraDosbox.Dos.FatChains
import AugraDosbox.Dos.FatAlloc
import AugraDosbox.Dos.FatSearch
import AugraDosbox.Dos.FatShortNames
import AugraDosbox.Dos.FatResolve
import AugraDosbox.Dos.FatTermination
import AugraDosbox.Dos.McbAllocate
import AugraDosbox.Dos.McbResize
import AugraDosbox.Dos.McbUpperFirst
import AugraDosbox.Dos.MakeNamePaths
import AugraDosbox.Dos.Psp
import AugraDosbox.Dos.Files
import AugraDosbox.Dos.FileHandles
import AugraDosbox.Dos.FileOpenExtended
import AugraDosbox.Lib.StringBlock
import AugraDosbox.Dos.PspEnvironment
import AugraDosbox.Dos.ShortName
import AugraDosbox.Lib.Bisect
import AugraDosbox.Dos.CdAudio
import AugraDosbox.Dos.CdImage
import AugraDosbox.Dos.IsoFile
import AugraDosbox.Dos.CdTrackTable
import AugraDosbox.Dos.CueLayout
import AugraDosbox.Dos.CueSheet
import AugraDosbox.Dos.CueTracks
import AugraDosbox.Dos.DriveCache
import AugraDosbox.Dos.FileTableGrowth
import AugraDosbox.Dos.FileLocks
import AugraDosbox.Webserver.Bridge
import AugraDosbox.Webserver.WriteMemory
import AugraDosbox.Webserver.MemoryAccess
import AugraDosbox.Webserver.MemoryBounds
import AugraDosbox.Webserver.FrameReplay
import AugraDosbox.Lua.PatternGuard
import AugraDosbox.Misc.RwQueue
import AugraDosbox.Misc.RwQueueRuns
import AugraDosbox.Misc.RwQueueResize
import AugraDosbox.Hardware.Pic
import AugraDosbox.Hardware.PicSignals
import AugraDosbox.Hardware.PicRuns
import AugraDosbox.Hardware.SerialFifo
import AugraDosbox.Hardware.Serial
import AugraDosbox.Hardware.PicNesting
import AugraDosbox.Hardware.Dma
import AugraDosbox.Hardware.DmaTransfer
import AugraDosbox.Hardware.EventQueue
import AugraDosbox.Hardware.EventQueueLists
import AugraDosbox.Hardware.EventQueueRuns
import AugraDosbox.Hardware.NullModem
import AugraDosbox.Input.Keys
import AugraDosbox.Input.Intel8042
import AugraDosbox.Input.Ports
import AugraDosbox.Input.KeyboardHeard
import AugraDosbox.Input.KeyboardRuns
import AugraDosbox.Input.Transit
import AugraDosbox.Lua.TypeInput
import AugraDosbox.Lib.FileTree
import AugraDosbox.Dos.Overlay
import AugraDosbox.Dos.OverlayView
import AugraDosbox.Dos.OverlayChanges
import AugraDosbox.Dos.OverlayCalls
import AugraDosbox.Dos.OverlayRuns
import AugraDosbox.Capture.Zmbv
import AugraDosbox.Capture.ZmbvBlocks
import AugraDosbox.Capture.ZmbvFrames
import AugraDosbox.Capture.ZmbvRuns
import AugraDosbox.Capture.ZmbvAccesses
import AugraDosbox.Capture.ZmbvDecoderAccesses
import AugraDosbox.Lib.ByteOrder
import AugraDosbox.Network.IpxServer
import AugraDosbox.Lib.Ring
import AugraDosbox.Network.Ne2000
import AugraDosbox.Network.Ne2000Bounds
import AugraDosbox.Network.Ne2000Card
import AugraDosbox.Network.Ne2000Ring
import AugraDosbox.Network.Ne2000Runs
import AugraDosbox.Lib.FirstMatch
import AugraDosbox.Dos.FatView
import AugraDosbox.Dos.FatInsert
import AugraDosbox.Dos.FatDirCalls
import AugraDosbox.Dos.FatDirFiles
import AugraDosbox.Dos.FatDirMake
import AugraDosbox.Lib.Regex
import AugraDosbox.Shell.Redirection
import AugraDosbox.Shell.RedirectionResults
import AugraDosbox.Shell.ParseLine
import AugraDosbox.Shell.Pipelines
import AugraDosbox.Hardware.SerialReceive
import AugraDosbox.Hardware.SerialTransmit
import AugraDosbox.Lib.Decoding
import AugraDosbox.Misc.UnicodeEncodings
import AugraDosbox.Misc.Utf8
import AugraDosbox.Misc.Transcoding
import AugraDosbox.Misc.MessagesPo
import AugraDosbox.Lib.Trimming
import AugraDosbox.Misc.MessagesRoundTrip
import AugraDosbox.Shell.ReadCommand
import AugraDosbox.Shell.StandardHandles
import AugraDosbox.Shell.PipeFile
import AugraDosbox.Lib.StepRuns
import AugraDosbox.Hardware.PortContainers
import AugraDosbox.Hardware.PortDispatch
