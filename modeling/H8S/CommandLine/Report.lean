import H8S.Board
import H8S.CommandLine.Command
import H8S.Cpu.Dump
import H8S.Listing.Image
import H8S.Machine
import H8S.Text.Fixed

/-!
# Reports

What a command writes for a firmware, and why it failed if it did.  A run writes what the serial channels of the board sent,
the registers and the time that went by; a run that faults also writes the longs around the stack pointer.
-/

namespace H8S

/-- Why a firmware cannot be read. -/
inductive ReadError where
  | notFound
  | failed (reason : String)
  deriving DecidableEq

def ReadError.message : ReadError → String
  | notFound => "No such file or directory (os error 2)"
  | failed reason => reason

/-- Why a command failed. -/
inductive CommandFailure where
  | unreadable (firmware : String) (cause : ReadError)
  | tooLarge (cause : ImageTooLarge)
  | unmapped (cause : MappingError)
  | unbooted (cause : Fault)
  | faulted (cause : Fault)
  deriving DecidableEq

def CommandFailure.message : CommandFailure → String
  | unreadable firmware cause => "failed to read firmware '" ++ firmware ++ "': " ++ cause.message
  | tooLarge cause => "failed to load firmware: " ++ cause.message
  | unmapped cause => "failed to map board: " ++ cause.message
  | unbooted cause => "boot failed: " ++ cause.message
  | faulted cause => "firmware faulted: " ++ cause.message

structure Report where
  output : String := ""
  failure : Option CommandFailure := none

namespace Report

def ofFailure (e : CommandFailure) : Report := { failure := some e }

/-! ### Runs -/

/-- How many longs are shown from the stack pointer on. -/
def shownWords : Nat := 8

def serialText (m : Machine Peripheral) (channel number : Nat) : String :=
  match m.bus.device? number with
  | some (.serial s) =>
    if s.output.isEmpty then ""
    else "serial " ++ toString channel ++ ": [" ++ ", ".intercalate (s.output.map Hex.byte) ++ "]\n"
  | _ => ""

def boardText (m : Machine Peripheral) : Option Board → String
  | some board => serialText m 0 board.serial0 ++ serialText m 1 board.serial1
  | none => ""

def timeText (m : Machine Peripheral) : String := "emulated time: " ++ Fixed.ofFloat 6 m.seconds ++ " s\n"

def stackText (m : Machine Peripheral) : String :=
  String.join ((Listing.stackLongs m.memory m.cpu.regs.sp shownWords).map fun entry =>
    "  " ++ Hex.address entry.1 ++ ": " ++ Hex.long entry.2 ++ "\n")

def summary (m : Machine Peripheral) (board : Option Board) : String := boardText m board ++ m.cpu.dump ++ timeText m

/-- A machine with a firmware in its memory. -/
def loaded (image : List UInt8) (trace : Bool) : Except CommandFailure (Machine Peripheral) :=
  match (Machine.new { trace := if trace then some {} else none }).load 0 image with
  | .ok m => .ok m
  | .error e => .error (.tooLarge e)

/-- Maps the standard board if it is asked for. -/
def mapped (m : Machine Peripheral) (board : Bool) : Except CommandFailure (Option Board × Machine Peripheral) :=
  if board then
    match Board.install id {} m.bus with
    | .ok board bus => .ok (some board, m.setBus bus)
    | .error e _ => .error (.unmapped e)
  else .ok (none, m)

def booted (m : Machine Peripheral) : Except CommandFailure (Machine Peripheral) :=
  match MachineM.boot m with
  | .ok _ m => .ok m
  | .error e _ => .error (.unbooted e)

/-- Devices are ticked only where there is a board. -/
def running (o : RunOptions) : MachineM Peripheral RunOutcome :=
  if o.board then MachineM.runWithDevices o.cycles else MachineM.run o.cycles

def ofRun (image : List UInt8) (o : RunOptions) : Except CommandFailure Report := do
  let (board, m) ← mapped (← loaded image o.trace) o.board
  match running o (← booted m) with
  | .ok _ m => return { output := summary m board }
  | .error e m => return { output := summary m board ++ stackText m, failure := some (.faulted e) }

/-! ### Listings -/

def ofListing (image : List UInt8) (addr : UInt32) (count : Nat) : Except CommandFailure Report := do
  let m ← loaded image false
  return { output := String.join ((Listing.listing {} m.memory addr count).map (· ++ "\n")) }

/-! ### Commands -/

/-- The report of a command on its firmware, or on the reason why that cannot be read. -/
def ofCommand (command : Command) (firmware : Except ReadError (List UInt8)) : Report :=
  match firmware with
  | .error e => ofFailure (.unreadable command.firmware e)
  | .ok image =>
    let result := match command with
      | .run _ options => ofRun image options
      | .disassemble _ addr count => ofListing image addr count
    match result with
    | .ok report => report
    | .error e => ofFailure e

end Report

end H8S
