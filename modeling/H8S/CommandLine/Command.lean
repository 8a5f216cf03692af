import H8S.Text.Number

/-!
# Commands

The command line asks for one of two things: to run a firmware for a number of cycles, or to list its instructions from an
address on.  `Command.parse` reads the arguments that follow the program's name.
-/

namespace H8S

/-- How a firmware is run. -/
structure RunOptions where
  /-- The budget, by default a second on the default clock. -/
  cycles : UInt64 := 16000000
  trace : Bool := false
  /-- Whether the devices of a board are mapped. -/
  board : Bool := false
  deriving DecidableEq

inductive Command where
  | run (firmware : String) (options : RunOptions)
  | disassemble (firmware : String) (addr : UInt32) (count : Nat)
  deriving DecidableEq

/-- Why the arguments are no command. -/
inductive UsageError where
  | missingCommand
  | missingFirmware
  | missingAddress
  | invalidCycles (text : String) (cause : Number.Error)
  | invalidAddress (text : String) (cause : Number.Error)
  | invalidCount (text : String) (cause : Number.Error)
  | unknownCommand (name : String)
  deriving DecidableEq

def UsageError.message : UsageError → String
  | missingCommand => "missing command"
  | missingFirmware => "missing firmware path"
  | missingAddress => "missing address"
  | invalidCycles text cause => "invalid cycle count '" ++ text ++ "': " ++ cause.message
  | invalidAddress text cause => "invalid address '" ++ text ++ "': " ++ cause.message
  | invalidCount text cause => "invalid count '" ++ text ++ "': " ++ cause.message
  | unknownCommand name => "unknown command '" ++ name ++ "'"

namespace Command

def usage : String :=
  "usage:\n  h8emu run <firmware> [cycles] [--trace] [--board]\n  h8emu disasm <firmware> <hex-addr> [count]"

/-- How many instructions are listed unless a count is given. -/
def defaultCount : Nat := 32

def firmware : Command → String
  | run path _ => path
  | disassemble path _ _ => path

/-- Takes in one option of a run; a later cycle count replaces an earlier one. -/
def takeOption (o : RunOptions) (arg : String) : Except UsageError RunOptions :=
  if arg = "--trace" then .ok { o with trace := true }
  else if arg = "--board" then .ok { o with board := true }
  else
    match Number.read 10 UInt64.size arg.toList with
    | .ok n => .ok { o with cycles := n.toUInt64 }
    | .error e => .error (.invalidCycles arg e)

/-- An address without what marks it as hexadecimal, however often. -/
def dropMarks : List Char → List Char
  | '0' :: 'x' :: cs => dropMarks cs
  | cs => cs

def parseAddress (text : String) : Except UsageError UInt32 :=
  match Number.read 16 UInt32.size (dropMarks text.toList) with
  | .ok n => .ok n.toUInt32
  | .error e => .error (.invalidAddress text e)

/-- The count of a listing, and what follows it is not looked at. -/
def parseCount : List String → Except UsageError Nat
  | [] => .ok defaultCount
  | text :: _ =>
    match Number.read 10 UInt64.size text.toList with
    | .ok n => .ok n
    | .error e => .error (.invalidCount text e)

def parseRun (firmware : String) (args : List String) : Except UsageError Command := do
  return .run firmware (← args.foldlM takeOption {})

def parseDisassemble (firmware : String) : List String → Except UsageError Command
  | [] => .error .missingAddress
  | addr :: args => do return .disassemble firmware (← parseAddress addr) (← parseCount args)

def parse : List String → Except UsageError Command
  | [] => .error .missingCommand
  | [_] => .error .missingFirmware
  | name :: firmware :: args =>
    match name with
    | "run" => parseRun firmware args
    | "disasm" => parseDisassemble firmware args
    | other => .error (.unknownCommand other)

end Command

end H8S
