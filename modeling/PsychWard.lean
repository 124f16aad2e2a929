import PsychWard.Common.Walk
import PsychWard.Common.ChainForest
import PsychWard.Common.Run
import PsychWard.Common.Program
import PsychWard.Common.Components
import PsychWard.Common.Scan
import PsychWard.Common.Word
import PsychWard.Common.Traced
import PsychWard.Common.Memory
import PsychWard.Common.Exchange
import PsychWard.Common.OnesComplement
import PsychWard.Fat32.Device
import PsychWard.Fat32.Table
import PsychWard.Fat32.Names
import PsychWard.Fat32.Directory
import PsychWard.Fat32.Files
import PsychWard.Fat32.Volume
import PsychWard.Fat32.EntrySpec
import PsychWard.Fat32.StoreSpec
import PsychWard.Fat32.OpSpec
import PsychWard.Fat32.PathSpec
import PsychWard.Fat32.Overwrite
import PsychWard.Fat32.RoundTrip
import PsychWard.Fat32.RemoveSpec
import PsychWard.Fat32.Consistency
import PsychWard.Fat32.Listing
import PsychWard.Fat32.CycleTest
import PsychWard.Fat32.TableSpec
import PsychWard.Fat32.DataSpec
import PsychWard.Fat32.WalkSpec
import PsychWard.Fat32.LongNames
import PsychWard.Fat32.Tree
import PsychWard.Fat32.Check
import PsychWard.Fat32.SlotSpec
import PsychWard.Fat32.CdSpec
import PsychWard.Fat32.Scanners
import PsychWard.Fat32.ShortNames
import PsychWard.Fat32.UniqueNames
import PsychWard.Fat32.NamedEntry
import PsychWard.Fat32.Descent
import PsychWard.Fat32.Directories
import PsychWard.Fat32.CurrentDir
import PsychWard.Fat32.Resolve
import PsychWard.Fat32.Copies
import PsychWard.Fat32.FreeChain
import PsychWard.Fat32.Allocation
import PsychWard.Fat32.Accesses
import PsychWard.Fat32.SectorBuffers
import PsychWard.Fat32.ClusterSectors
import PsychWard.Fat32.VolumeEnd
import PsychWard.Fat32.ListingText
import PsychWard.Fat32.Removal
import PsychWard.Clock.TimerDriver
import PsychWard.Clock.NtpClient
import PsychWard.Clock.Synchronisation
import PsychWard.Clock.Uptime
import PsychWard.Net.Checksum
import PsychWard.Net.CommandText
import PsychWard.Net.Transmit
import PsychWard.Net.Driver
import PsychWard.Net.Receive
import PsychWard.Net.Bounds
import PsychWard.Net.Frames
import PsychWard.Net.Solicited
import PsychWard.Net.BootSync
import PsychWard.Net.Mailbox
import PsychWard.Net.DnsName
import PsychWard.Net.DnsAnswer
import PsychWard.Net.Datagram
import PsychWard.Net.Pings
import PsychWard.Net.PingSeries
import PsychWard.Net.Console
import PsychWard.Net.Prints
import PsychWard.Blk.Server
import PsychWard.Blk.Clients
import PsychWard.Blk.Virtio
import PsychWard.Rootserver.Allocator
import PsychWard.Rootserver.SlotOwners
import PsychWard.Rootserver.Kernel
import PsychWard.Rootserver.State
import PsychWard.Rootserver.Spawn
import PsychWard.Rootserver.Dispatch
import PsychWard.Rootserver.LoadElf
import PsychWard.Rootserver.LoadSegments
import PsychWard.Rootserver.LibElf
import PsychWard.Rootserver.ExecBounds
import PsychWard.Rootserver.PipeFlow
import PsychWard.Rootserver.Quiet
import PsychWard.Rootserver.Life
import PsychWard.Rootserver.Waiters
import PsychWard.Rootserver.Badges
import PsychWard.Rootserver.Blind
import PsychWard.Rootserver.Pipes
import PsychWard.Rootserver.Writers
import PsychWard.Rootserver.Pager
import PsychWard.Rootserver.PipeCaps
import PsychWard.Rootserver.Recovery
import PsychWard.Rootserver.Slots
import PsychWard.Rootserver.ThreadSlots
import PsychWard.Rootserver.Ready
import PsychWard.Rootserver.Blocked
import PsychWard.Shell.WorkingDir
import PsychWard.Shell.Commands
import PsychWard.Shell.Grep
import PsychWard.Shell.Addresses
import PsychWard.Common.Calendar
import PsychWard.Common.Ring
import PsychWard.Shell.LocalTime
import PsychWard.Uart.Keyboard
import PsychWard.Rootserver.DeviceFrames
import PsychWard.Net.ClockRange
import PsychWard.Net.Pending
import PsychWard.Fat32.ShownNames
import PsychWard.Fat32.Aliases
import PsychWard.Fat32.FreeRuns
import PsychWard.Common.Terminal
import PsychWard.Uart.Console
import PsychWard.Uart.Clients
import PsychWard.Shell.CommandLoop
import PsychWard.Net.Packets
import PsychWard.Net.Station
import PsychWard.Net.Delivery
import PsychWard.Net.Answers
import PsychWard.Net.CarriedOut
import PsychWard.Blk.Medium
import PsychWard.Common.FreeRing
import PsychWard.Net.Arrivals
import PsychWard.Common.Custody
import PsychWard.Rootserver.Custody
import PsychWard.Rootserver.OneHolder
import PsychWard.Rootserver.Dealings
import PsychWard.Rootserver.Serving
