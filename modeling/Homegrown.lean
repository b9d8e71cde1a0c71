import Homegrown.Core.BitFields
import Homegrown.Core.Bytes
import Homegrown.Core.Cells
import Homegrown.Core.Chain
import Homegrown.Core.Crc
import Homegrown.Core.Fat32
import Homegrown.Core.FreeList
import Homegrown.Core.Gpt
import Homegrown.Core.HashTrie
import Homegrown.Core.LittleEndian
import Homegrown.Core.Loop
import Homegrown.Core.Move
import Homegrown.Core.Numeral
import Homegrown.Core.OpenAddressing
import Homegrown.Core.Outcome
import Homegrown.Core.Pieces
import Homegrown.Core.Radix
import Homegrown.Core.Registry
import Homegrown.Core.Resource
import Homegrown.Core.Ring
import Homegrown.Core.Span
import Homegrown.Core.StackWords
import Homegrown.Core.Walk
import Homegrown.Core.Word
import Homegrown.Efi.Rsdp
import Homegrown.Freestanding.Agreement
import Homegrown.Freestanding.Drawing
import Homegrown.Freestanding.Filling
import Homegrown.Freestanding.Layout
import Homegrown.Freestanding.Limit
import Homegrown.Freestanding.LineLookup
import Homegrown.Freestanding.Log
import Homegrown.Freestanding.LogicalLines
import Homegrown.Freestanding.Manipulation
import Homegrown.Freestanding.Passes
import Homegrown.Freestanding.Screen
import Homegrown.Freestanding.ScreenLines
import Homegrown.Freestanding.Scroll
import Homegrown.Freestanding.Scrollback
import Homegrown.Freestanding.Window
import Homegrown.ImageBuilder.BootVolume
import Homegrown.ImageBuilder.Configuration
import Homegrown.ImageBuilder.Crc32
import Homegrown.ImageBuilder.Directory
import Homegrown.ImageBuilder.Fat
import Homegrown.ImageBuilder.FreeClusters
import Homegrown.ImageBuilder.Geometry
import Homegrown.ImageBuilder.Gpt
import Homegrown.ImageBuilder.Integrity
import Homegrown.ImageBuilder.Mirror
import Homegrown.ImageBuilder.Partitions
import Homegrown.ImageBuilder.Readable
import Homegrown.ImageBuilder.Sections
import Homegrown.ImageBuilder.Sizes
import Homegrown.ImageBuilder.Stored
import Homegrown.ImageBuilder.Taken
import Homegrown.ImageBuilder.UEFIImage
import Homegrown.ImageBuilder.Verified
import Homegrown.ImageBuilder.Volume
import Homegrown.ImageBuilder.Within
import Homegrown.ImageBuilder.Writes
import Homegrown.Memory.Definitions
import Homegrown.Memory.Physical.BootPromotion
import Homegrown.Memory.Physical.Contiguous
import Homegrown.Memory.Physical.Custody
import Homegrown.Memory.Physical.Ends
import Homegrown.Memory.Physical.Exchange
import Homegrown.Memory.Physical.Free
import Homegrown.Memory.Physical.Growth
import Homegrown.Memory.Physical.Init
import Homegrown.Memory.Physical.Manager
import Homegrown.Memory.Physical.Ownership
import Homegrown.Memory.Physical.Partition
import Homegrown.Memory.Physical.Promotable
import Homegrown.Memory.Physical.Promotion
import Homegrown.Memory.Physical.Request
import Homegrown.Memory.Physical.Slots
import Homegrown.Memory.Physical.Updates
import Homegrown.Memory.Policy.Allocation
import Homegrown.Memory.Policy.Backing
import Homegrown.Memory.Policy.Chunks
import Homegrown.Memory.Policy.Freeing
import Homegrown.Memory.Policy.GiveBack
import Homegrown.Memory.Policy.Granted
import Homegrown.Memory.Policy.Handover
import Homegrown.Memory.Policy.LowerHalf
import Homegrown.Memory.Policy.Region
import Homegrown.Memory.Policy.Release
import Homegrown.Memory.Policy.Sound
import Homegrown.Memory.Policy.Tenancy
import Homegrown.Memory.Policy.TenancyRuns
import Homegrown.Memory.Virtual.Directory
import Homegrown.Memory.Virtual.Ends
import Homegrown.Memory.Virtual.Frame
import Homegrown.Memory.Virtual.Map
import Homegrown.Memory.Virtual.RoundTrip
import Homegrown.OsLoader.Boot
import Homegrown.OsLoader.BootServices
import Homegrown.OsLoader.DataReading
import Homegrown.OsLoader.DiskReading
import Homegrown.OsLoader.EfiMain
import Homegrown.OsLoader.Entry
import Homegrown.OsLoader.KernelLoading
import Homegrown.OsLoader.Placed
import Homegrown.Posix.Path
import Homegrown.Posix.WriteBuffer
import Homegrown.Shared.Hash.Msi
import Homegrown.Shared.Hash.MsiEquality
import Homegrown.Shared.Hash.StringAutoU16Map
import Homegrown.Shared.Hash.StringU16Map
import Homegrown.Shared.Hash.TrieInsert
import Homegrown.Shared.Hash.TrieIterator
import Homegrown.Shared.Hash.TrieSet
import Homegrown.Shared.Maths
import Homegrown.Shared.Memory.Arena
import Homegrown.Shared.Memory.ArrayRuns
import Homegrown.Shared.Memory.Buddy
import Homegrown.Shared.Memory.BuddyAlignment
import Homegrown.Shared.Memory.BuddyFind
import Homegrown.Shared.Memory.BuddyLoops
import Homegrown.Shared.Memory.BuddyReturn
import Homegrown.Shared.Memory.BuddySafety
import Homegrown.Shared.Memory.BuddySweep
import Homegrown.Shared.Memory.BuddyTiles
import Homegrown.Shared.Memory.DynamicArray
import Homegrown.Shared.Memory.Pool
import Homegrown.Shared.Power
import Homegrown.Shared.Text.Converter
import Homegrown.Shared.Text.Occurrence
import Homegrown.Shared.Text.Reference
import Homegrown.Shared.Text.Render
import Homegrown.Shared.Text.Search
import Homegrown.Shared.Text.Split
import Homegrown.Shared.Text.Tokens
import Homegrown.X86.DescriptorTables
import Homegrown.X86.Faults
import Homegrown.X86.Interrupts
import Homegrown.X86.Machine
import Homegrown.X86.Transparency
