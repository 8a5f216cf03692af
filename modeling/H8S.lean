import H8S.Instrument
import H8S.Main
import H8S.Proofs.Accesses
import H8S.Proofs.Operations
import H8S.Proofs.Encodings
import H8S.Proofs.Faults
import H8S.Proofs.Fetching
import H8S.Proofs.Steps
import H8S.Proofs.FailedSteps
import H8S.Proofs.InterruptDispatch
import H8S.Proofs.FlatMemory
import H8S.Proofs.Addresses
import H8S.Proofs.CallFrames
import H8S.Proofs.DeviceRanges
import H8S.Proofs.ProgramCounter
import H8S.Proofs.MachineRuns
import H8S.Proofs.DeviceMap
import H8S.Proofs.WideAccesses
import H8S.Proofs.Disassembly
import H8S.Proofs.Assembling
import H8S.Proofs.DistinctEncodings
import H8S.Proofs.StoppedMachines
import H8S.Proofs.DeviceIsolation
import H8S.Proofs.MemoryFrames
import H8S.Proofs.HaltFlag
import H8S.Proofs.RunBudgets
import H8S.Proofs.TickSlicing
import H8S.Proofs.WellFormedOperations
import H8S.Proofs.ByteAccesses
import H8S.Proofs.CheckedExecution
import H8S.Proofs.CycleAccounting
import H8S.Proofs.BusInvariants
import H8S.Proofs.StatusRegister
import H8S.Proofs.LimbChains
import H8S.Proofs.SerialQueues
import H8S.Proofs.ListingTexts
import H8S.Proofs.BootErasure
import H8S.Proofs.ArithmeticFlags
import H8S.Proofs.Comparisons
import H8S.Proofs.DecimalChains
import H8S.Proofs.Shifts
import H8S.Proofs.Products
import H8S.Proofs.PointerMoves
import H8S.Proofs.AccessBounds
import H8S.Proofs.BlockCopies
import H8S.Proofs.ListingTiles
import H8S.Proofs.Sleep
import H8S.Proofs.TimerCounts
import H8S.Proofs.RefreshPeriods
import H8S.Proofs.TransmitPacing
import H8S.Proofs.BlockTransfers
import H8S.Proofs.RegisterWrites
import H8S.Proofs.DeviceRequests
import H8S.Proofs.BoardLayout
import H8S.Proofs.RegisterArea
import H8S.Proofs.PlaceForms
import H8S.Proofs.ShortForms
import H8S.Proofs.Coalescing
import H8S.Proofs.BitOperations
import H8S.Proofs.CommandLines
