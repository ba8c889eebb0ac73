import DemandPaging.Address
import DemandPaging.Bytes
import DemandPaging.Descriptors
import DemandPaging.Device.Basic
import DemandPaging.Device.Disk
import DemandPaging.Device.Registry
import DemandPaging.Event
import DemandPaging.Executable.Image
import DemandPaging.Executable.Loader
import DemandPaging.Executable.Reader
import DemandPaging.Failure
import DemandPaging.File
import DemandPaging.Frame.CoreMap
import DemandPaging.Frame.Table
import DemandPaging.Lock
import DemandPaging.Machine.Backing
import DemandPaging.Machine.Basic
import DemandPaging.Machine.Fault
import DemandPaging.Machine.FileMapping
import DemandPaging.Machine.Frames
import DemandPaging.Machine.SpaceCopy
import DemandPaging.Machine.UserAccess
import DemandPaging.Numeral
import DemandPaging.Page
import DemandPaging.PageTable.Bits
import DemandPaging.PageTable.Directory
import DemandPaging.PageTable.Entry
import DemandPaging.Process
import DemandPaging.Proofs.Access
import DemandPaging.Proofs.Accounting
import DemandPaging.Proofs.Acquisition
import DemandPaging.Proofs.AlignedTables
import DemandPaging.Proofs.Arrivals
import DemandPaging.Proofs.Bindings
import DemandPaging.Proofs.CheckedLoading
import DemandPaging.Proofs.Clearing
import DemandPaging.Proofs.Contents
import DemandPaging.Proofs.Copying
import DemandPaging.Proofs.Cursors
import DemandPaging.Proofs.Cuts
import DemandPaging.Proofs.Directories
import DemandPaging.Proofs.DirtyMarks
import DemandPaging.Proofs.Entries
import DemandPaging.Proofs.Evictions
import DemandPaging.Proofs.Evolution
import DemandPaging.Proofs.FailedClaims
import DemandPaging.Proofs.FailedCopies
import DemandPaging.Proofs.FailedForks
import DemandPaging.Proofs.FaultOutcomes
import DemandPaging.Proofs.Faults
import DemandPaging.Proofs.FilePages
import DemandPaging.Proofs.FileWindow
import DemandPaging.Proofs.FileWrites
import DemandPaging.Proofs.FlatChanges
import DemandPaging.Proofs.FlatMemory
import DemandPaging.Proofs.FlatRuns
import DemandPaging.Proofs.Handles
import DemandPaging.Proofs.ImageLayout
import DemandPaging.Proofs.InPlace
import DemandPaging.Proofs.Isolation
import DemandPaging.Proofs.Leaks
import DemandPaging.Proofs.Ledger
import DemandPaging.Proofs.Lending
import DemandPaging.Proofs.Links
import DemandPaging.Proofs.LoadedImage
import DemandPaging.Proofs.LoadedPages
import DemandPaging.Proofs.Loading
import DemandPaging.Proofs.MapRequests
import DemandPaging.Proofs.Mapping
import DemandPaging.Proofs.Memory
import DemandPaging.Proofs.OpenFiles
import DemandPaging.Proofs.Operations
import DemandPaging.Proofs.Outcome
import DemandPaging.Proofs.Placement
import DemandPaging.Proofs.Processes
import DemandPaging.Proofs.RawMappings
import DemandPaging.Proofs.Reached
import DemandPaging.Proofs.Readings
import DemandPaging.Proofs.Removal
import DemandPaging.Proofs.Rereads
import DemandPaging.Proofs.Reserves
import DemandPaging.Proofs.Residence
import DemandPaging.Proofs.Residency
import DemandPaging.Proofs.Sealing
import DemandPaging.Proofs.Segments
import DemandPaging.Proofs.SharedMarks
import DemandPaging.Proofs.Sharing
import DemandPaging.Proofs.Shortages
import DemandPaging.Proofs.SlotOwnership
import DemandPaging.Proofs.Slots
import DemandPaging.Proofs.StackGrowth
import DemandPaging.Proofs.Standing
import DemandPaging.Proofs.Stores
import DemandPaging.Proofs.SuccessfulForks
import DemandPaging.Proofs.SwapRequests
import DemandPaging.Proofs.SwapStore
import DemandPaging.Proofs.SystemCalls
import DemandPaging.Proofs.Tables
import DemandPaging.Proofs.Transfers
import DemandPaging.Proofs.Turnover
import DemandPaging.Proofs.Unmapping
import DemandPaging.Proofs.Waiting
import DemandPaging.Proofs.WindowRuns
import DemandPaging.Proofs.WriteFaults
import DemandPaging.Proofs.WrittenPages
import DemandPaging.Replacement
import DemandPaging.Space
import DemandPaging.Swap
import DemandPaging.SystemCall
