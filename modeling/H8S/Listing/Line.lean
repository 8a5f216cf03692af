import H8S.Listing.Text

/-!
# Lines of a listing

A line is the address, the bytes of the encoding in a column of fixed width where the options ask for it, and the text.
Traced lines are indented by two spaces for each call in progress.
-/

namespace H8S.Listing

/-- Width of the column of bytes. -/
def bytesColumn : Nat := 21

def bytesText (bytes : List UInt8) : String :=
  let shown := String.join (bytes.map fun b => Hex.byte b ++ " ")
  shown ++ String.ofList (List.replicate (bytesColumn - shown.length) ' ')

def indentedLine (o : Options) (i : Instruction) (depth : Nat) : String :=
  Hex.address i.addr ++ ": " ++ String.ofList (List.replicate (2 * depth) ' ')
    ++ (if o.showBytes then bytesText i.bytes else "") ++ text o i.op

def line (o : Options) (i : Instruction) : String := indentedLine o i 0

/-- The line written before an instruction is executed at a depth of calls, which counts only if positive. -/
def traceLine (o : Options) (i : Instruction) (depth : Int) : String :=
  indentedLine o i (if o.indentCalls then depth.toNat else 0)

/-- The line for two bytes that begin no instruction. -/
def wordLine (addr : UInt32) (hi lo : UInt8) : String :=
  Hex.address addr ++ ": .word 0x" ++ Hex.byte hi ++ Hex.byte lo

end H8S.Listing
