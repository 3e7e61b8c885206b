import NativeLib.Hook.OrderedList
import NativeLib.Hook.Agreement
import NativeLib.Collections.Positions
import NativeLib.Hook.Initialisation
import NativeLib.Hook.Undo
import NativeLib.Interaction.Guarded
import NativeLib.Memory.AddressSpace
import NativeLib.Memory.Kernel
import NativeLib.Memory.Chains
import NativeLib.HideMaps.PmParser
import NativeLib.ProcMaps.MapsEntry
import NativeLib.ProcMaps.Scanf
import NativeLib.ProcMaps.Fgets
import NativeLib.ProcMaps.Buffers
import NativeLib.ProcMaps.Records
import NativeLib.ProcMaps.RecordList
import NativeLib.HideMaps.Listing
import NativeLib.HideMaps.Detection
import NativeLib.HideMaps.Stages
import NativeLib.HideMaps.Exits
import NativeLib.HideMaps.Backups
import NativeLib.HideMaps.Preservation
import NativeLib.HideMaps.Hiding
import NativeLib.Linker.LinkerHandler
import NativeLib.Linker.Ownership
import NativeLib.Tracer.MyLibc
import NativeLib.Tracer.TracerBase
import NativeLib.Tracer.Tracers
import NativeLib.Tracer.Stopping
import NativeLib.Tracer.Streams
import NativeLib.Tracer.Sharing
import NativeLib.Linker.Solist
import NativeLib.Linker.Symbol
import NativeLib.Linker.SymbolLookup
import NativeLib.Linker.StringTable
import NativeLib.Linker.GetAddr
import NativeLib.Interaction.Threads
import NativeLib.Adapter.Adapter
import NativeLib.Adapter.Caching
import NativeLib.Interaction.Nesting
import NativeLib.Linker.Loads
import NativeLib.Collections.Answers
import NativeLib.Interaction.Loops
import NativeLib.FindSyscall.BinarySyscallFinder
import NativeLib.FindSyscall.Scans
import NativeLib.Memory.Fields
import NativeLib.FindSyscall.Instructions
import NativeLib.Interaction.Sweeps
import NativeLib.FindSyscall.Aarch64Scan
import NativeLib.FindSyscall.ArmScan
import NativeLib.Collections.Batches
import NativeLib.FindSyscall.Breaking
import NativeLib.Tracer.JniInfo
import NativeLib.Tracer.Jnitrace
import NativeLib.Tracer.Transparency
import NativeLib.Calls.VaList
import NativeLib.Tracer.ArgsInfo
import NativeLib.Mangling.Names
import NativeLib.Mangling.Demangler
import NativeLib.Mangling.RoundTrip
import NativeLib.Calls.Registers
import NativeLib.Tracer.StringHooker
import NativeLib.HideMaps.ElfHeader
import NativeLib.HideMaps.HeaderClearing
import NativeLib.Utils.AppUtils
import NativeLib.Utils.Attribution
import NativeLib.Files.FileSystem
import NativeLib.Utils.FileUtils
import NativeLib.Utils.StreamReaders
import NativeLib.Collections.Occurrences
import NativeLib.Utils.StringUtils
import NativeLib.Tracer.Listing
import NativeLib.Netlink.MacAddress
import NativeLib.Files.Directories
import NativeLib.Utils.MakeDir
import NativeLib.Utils.TextFiles
import NativeLib.Utils.SaveFile
import NativeLib.Collections.Positional
import NativeLib.Utils.HexText
import NativeLib.Utils.Splitting
import NativeLib.Utils.HexDump
import NativeLib.Collections.Stores
import NativeLib.Tracer.IntText
import NativeLib.Collections.Groups
import NativeLib.Dlfc.ElfImg
import NativeLib.Dlfc.GnuLookup
import NativeLib.Collections.SortedMap
import NativeLib.Dlfc.PrefixLookup
import NativeLib.Dlfc.GnuSection
import NativeLib.Arm64.Agreement
import NativeLib.Arm64.Decoding
import NativeLib.ShadowHook.A64
import NativeLib.ShadowHook.Blocks
import NativeLib.ShadowHook.Detours
import NativeLib.Collections.Bitmap
import NativeLib.ShadowHook.Trampo
import NativeLib.ShadowHook.TrampoRuns
import NativeLib.ShadowHook.Guarantees
import NativeLib.Dlfc.Resolution
import NativeLib.ShadowHook.HubChains
import NativeLib.ShadowHook.HubProxies
import NativeLib.ShadowHook.Shared
import NativeLib.ShadowHook.SharedRuns
import NativeLib.Xunwind.FpArm64
import NativeLib.Xunwind.Unwinding
import NativeLib.ShadowHook.GapRuns
import NativeLib.ShadowHook.GapFit
