import H8S.Cpu.Basic

/-!
# Register dumps

A dump shows the registers, the condition codes also as letters, and the cycle counter.
-/

namespace H8S.Cpu

/-- The letters of the flags that are set, from the highest bit down. -/
def flagLetters (f : ConditionCodes) : String :=
  let shown (flag : Bool) (letter : Char) : Char := if flag then letter else '-'
  String.ofList [shown f.i 'I', shown f.ui 'u', shown f.h 'H', shown f.u 'U', shown f.n 'N', shown f.z 'Z',
    shown f.v 'V', shown f.c 'C']

/-- One register, and what parts it from the next. -/
def registerText (r : Registers) (id : UInt8) : String :=
  "ER" ++ toString id.toNat ++ "=0x" ++ Hex.long (r.readLong id) ++ (if id = 3 ∨ id = 7 then "\n" else " ")

def dump (c : Cpu) : String :=
  "PC=0x" ++ Hex.address c.regs.pc ++ " CCR=0x" ++ Hex.byte c.regs.ccr.toByte ++ " [" ++ flagLetters c.regs.ccr
    ++ "] EXR=0x" ++ Hex.byte c.regs.exr ++ " cycles=" ++ toString c.cycles.toNat ++ "\n"
    ++ String.join ([0, 1, 2, 3, 4, 5, 6, 7].map (registerText c.regs))

end H8S.Cpu
