import Recompiler.Emulator.Run
import Recompiler.Guest.Semantics
import Recompiler.Proofs.Arena.Links
import Recompiler.Proofs.Store.LinkGraph
import Recompiler.Proofs.Compile.Emission
import Recompiler.Proofs.Guarded.Memory
import Recompiler.Proofs.Store.Coherent
import Recompiler.Proofs.Store.Compile
import Recompiler.Proofs.Arena.Forget
import Recompiler.Proofs.Compile.Follows
import Recompiler.Proofs.Compile.Leave
import Recompiler.Proofs.Compile.Settled
import Recompiler.Proofs.Emulator.Block
import Recompiler.Proofs.Emulator.Chain
import Recompiler.Proofs.Emulator.Forget
import Recompiler.Proofs.Emulator.History
import Recompiler.Proofs.Emulator.Refinement
import Recompiler.Proofs.Emulator.PageIndex
import Recompiler.Proofs.Store.Alignment
import Recompiler.Proofs.Guarded.Teardown
import Recompiler.Proofs.Store.Capacity
import Recompiler.Proofs.Emulator.Unfailing
import Recompiler.Proofs.Emulator.Unlinked
import Recompiler.Proofs.Emulator.Freed
import Recompiler.Proofs.Emulator.Destinations
import Recompiler.Proofs.Store.Age
import Recompiler.Proofs.Compile.Meaning
import Recompiler.Proofs.Compile.ReadBack
import Recompiler.Proofs.Emulator.Contents
import Recompiler.Proofs.Emulator.Pool
import Recompiler.Proofs.Emulator.Budget
import Recompiler.Proofs.Emulator.Unchanged
import Recompiler.Proofs.Store.Determined
import Recompiler.Proofs.Emulator.Scratch
import Recompiler.Proofs.Store.Overwritten
import Recompiler.Proofs.Guarded.Range
import Recompiler.Proofs.Emulator.Course
import Recompiler.Proofs.Emulator.Lifetime
import Recompiler.Proofs.Emulator.Stores
import Recompiler.Proofs.Store.Room
import Recompiler.Proofs.Compile.Calls
import Recompiler.Proofs.Emulator.Range
import Recompiler.Proofs.Store.Commute
import Recompiler.Proofs.Emulator.Heed
import Recompiler.Proofs.Emulator.Visits
import Recompiler.Proofs.Emulator.SelfModified
import Recompiler.Proofs.Store.Displaced
import Recompiler.Proofs.Emulator.Extent
import Recompiler.Proofs.Compile.Branches
import Recompiler.Proofs.Emulator.Outcome
import Recompiler.Proofs.Emulator.Flush
import Recompiler.Proofs.Emulator.Release
import Recompiler.Proofs.Emulator.Moves
import Recompiler.Proofs.Emulator.Ledger
