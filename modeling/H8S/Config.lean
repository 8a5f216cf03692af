import H8S.Address
import H8S.Listing.Text

/-!
# Configuration of a core

Where the core finds its vectors and the registers it consults itself, how large the memory is, and whether instructions are
traced.
-/

namespace H8S

structure Config where
  /-- Bytes of memory. -/
  memorySize : Nat := Address.spaceSize
  vectorBase : UInt32 := 0
  /-- The register that enables the interrupts 12 to 17; without one they are always enabled. -/
  ierAddress : Option UInt32 := some 0xFFFFF5
  /-- The register that shows the pending interrupts 12 to 17. -/
  isrAddress : Option UInt32 := some 0xFFFFF6
  /-- The system control register. -/
  syscrAddress : UInt32 := 0xFFFFF2
  clockHz : UInt64 := 16000000
  /-- How executed instructions are traced, if they are. -/
  trace : Option Listing.Options := none

end H8S
