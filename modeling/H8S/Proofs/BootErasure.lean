import H8S.Cpu.Dump
import H8S.Proofs.StoppedMachines
import H8S.Proofs.TwoRuns

/-!
# Boots and what was before them

Two machines with the same configuration and the same bus may have anything behind them: registers, interrupts that wait,
sleep, calls in progress, cycles and faults.  If they are booted, the first vector is read twice under the same conditions,
so either both boots end or both fail in the same way.  Boots that end leave the same core and no fault, and whatever the host
asks for from then on, both machines answer the same (`boot_forgets`).

Boots that fail leave the same core but for its clock.  A boot starts the clock again only after it has read the vector, so
after a failure each machine has the cycles and the timer from before, moved on by the reads that were made.  A machine whose
boots fail can be told from its dumps to have been booted before (`boot_keeps_clock`).
-/

namespace H8S

namespace Cpu

/-- The core while a boot reads the vector: only the clock is left. -/
def reset (c : Cpu) : Cpu := { c with regs := { ccr := { i := true } }, pending := {}, sleeping := false, depth := 0 }

/-- The core that a boot leaves. -/
def booted (target : UInt32) : Cpu := { regs := { ccr := { i := true }, pc := Address.even target } }

/-- The core with the reads of some bytes charged to its clock. -/
def fetching (c : Cpu) (addrs : List UInt32) : Cpu := addrs.foldl (fun c addr => c.charged .read addr) c

theorem fetching_eq (c : Cpu) (addrs : List UInt32) :
    c.fetching addrs = { c with cycles := (c.fetching addrs).cycles, timer := (c.fetching addrs).timer } := by
  induction addrs generalizing c with
  | nil => rfl
  | cons addr addrs ih => exact ih (c.charged .read addr)

/-- Only the clock of the reset core is left to be started again. -/
theorem booted_of_reset (c : Cpu) (addrs : List UInt32) (target : UInt32) :
    { (c.reset.fetching addrs).jumped target with cycles := 0, timer := {} } = booted target := by
  rw [fetching_eq]
  rfl

end Cpu

namespace CpuM

variable {β : Type} {c c' : Cpu} {lines lines' : Array String}

/-! ### Boots of the core -/

/-- The systems have these two cores, with the same reads charged to them, on one bus. -/
def Sharing (c c' : Cpu) (lines lines' : Array String) (made : List UInt32) (s t : System β) : Prop :=
  ∃ bus, s = ⟨c.fetching made, bus, lines⟩ ∧ t = ⟨c'.fetching made, bus, lines'⟩

theorem oblivious_sharing (h : c.pending = c'.pending) (made : List UInt32) :
    Oblivious (Sharing c c' lines lines' made : System β → System β → Prop) where
  bus := by
    rintro _ _ ⟨bus, rfl, rfl⟩
    rfl
  pending := by
    rintro _ _ ⟨bus, rfl, rfl⟩
    rw [Cpu.fetching_eq c, Cpu.fetching_eq c']
    exact h
  moved := by
    rintro _ _ ⟨_, rfl, rfl⟩ bus
    exact ⟨bus, rfl, rfl⟩

/-- What two runs of a long read come to: the same, after two bytes or after four. -/
inductive ReadTwice (c c' : Cpu) (lines lines' : Array String) (addr : UInt32) :
    EStateM.Result Fault (System β) UInt32 → EStateM.Result Fault (System β) UInt32 → Prop where
  | ok (v : UInt32) {s t : System β} : Sharing c c' lines lines' [addr, addr + 1, addr + 2, addr + 2 + 1] s t →
      ReadTwice c c' lines lines' addr (.ok v s) (.ok v t)
  | error (e : Fault) {made : List UInt32} {s t : System β} :
      made = [addr, addr + 1] ∨ made = [addr, addr + 1, addr + 2, addr + 2 + 1] →
      Sharing c c' lines lines' made s t → ReadTwice c c' lines lines' addr (.error e s) (.error e t)

theorem read32_twice [Bus β] (h : c.pending = c'.pending) (config : Config) (bus : β) (addr : UInt32) :
    ReadTwice c c' lines lines' addr (read32 addr config ⟨c, bus, lines⟩) (read32 addr config ⟨c', bus, lines'⟩) := by
  have hi : BusM.Matched (Sharing c c' lines lines' [addr, addr + 1]) (read16 addr config ⟨c, bus, lines⟩)
      (read16 addr config ⟨c', bus, lines'⟩) :=
    (oblivious_sharing h _).load16 addr config _ _ ⟨bus, rfl, rfl⟩
  unfold read32 widening
  rw [run_bind, run_bind]
  generalize read16 addr config ⟨c, bus, lines⟩ = x, read16 addr config ⟨c', bus, lines'⟩ = y at hi
  cases hi with
  | error e hs => exact .error _ (.inl rfl) hs
  | ok hi hs =>
    obtain ⟨bus, rfl, rfl⟩ := hs
    have lo : BusM.Matched (Sharing c c' lines lines' [addr, addr + 1, addr + 2, addr + 2 + 1])
        (read16 (addr + 2) config ⟨c.fetching [addr, addr + 1], bus, lines⟩)
        (read16 (addr + 2) config ⟨c'.fetching [addr, addr + 1], bus, lines'⟩) :=
      (oblivious_sharing h _).load16 (addr + 2) config _ _ ⟨bus, rfl, rfl⟩
    dsimp only
    rw [run_bind, run_bind]
    generalize read16 (addr + 2) config ⟨c.fetching [addr, addr + 1], bus, lines⟩ = x,
      read16 (addr + 2) config ⟨c'.fetching [addr, addr + 1], bus, lines'⟩ = y at lo
    cases lo with
    | ok lo hs => exact .ok _ hs
    | error e hs => exact .error _ (.inr rfl) hs

/-- What two boots come to. -/
inductive BootedTwice (c c' : Cpu) (lines lines' : Array String) (vector : UInt32) :
    EStateM.Result Fault (System β) Unit → EStateM.Result Fault (System β) Unit → Prop where
  | ok (target : UInt32) (bus : β) : BootedTwice c c' lines lines' vector (.ok () ⟨.booted target, bus, lines⟩)
      (.ok () ⟨.booted target, bus, lines'⟩)
  | error (e : Fault) (bus : β) {made : List UInt32} :
      made = [vector, vector + 1] ∨ made = [vector, vector + 1, vector + 2, vector + 2 + 1] →
      BootedTwice c c' lines lines' vector (.error e ⟨c.reset.fetching made, bus, lines⟩)
        (.error e ⟨c'.reset.fetching made, bus, lines'⟩)

theorem boot_eq [Bus β] (config : Config) (c : Cpu) (bus : β) (lines : Array String) :
    boot config ⟨c, bus, lines⟩ =
      (read32 config.vectorBase >>= fun target => modifyCpu fun c => { c.jumped target with cycles := 0, timer := {} })
        config ⟨c.reset, bus, lines⟩ :=
  rfl

theorem boot_twice [Bus β] (config : Config) (bus : β) :
    BootedTwice c c' lines lines' config.vectorBase (boot config ⟨c, bus, lines⟩) (boot config ⟨c', bus, lines'⟩) := by
  have hpending : c.reset.pending = c'.reset.pending := rfl
  have hread : ReadTwice c.reset c'.reset lines lines' config.vectorBase
      (read32 config.vectorBase config ⟨c.reset, bus, lines⟩) (read32 config.vectorBase config ⟨c'.reset, bus, lines'⟩) :=
    read32_twice hpending config bus config.vectorBase
  rw [boot_eq, boot_eq, run_bind, run_bind]
  generalize read32 config.vectorBase config ⟨c.reset, bus, lines⟩ = x,
    read32 config.vectorBase config ⟨c'.reset, bus, lines'⟩ = y at hread
  cases hread with
  | ok target hs =>
    obtain ⟨bus, rfl, rfl⟩ := hs
    simp only [run_modifyCpu, Cpu.booted_of_reset]
    exact .ok target bus
  | error e hmade hs =>
    obtain ⟨bus, rfl, rfl⟩ := hs
    exact .error e bus hmade

end CpuM

/-! ### Machines side by side -/

/-- The same configuration, core, bus and fault, whatever was traced. -/
structure Machine.Alike {δ : Type} (m n : Machine δ) : Prop where
  config : m.config = n.config
  system : CpuM.Alike m.system n.system
  fault : m.fault = n.fault

/-- What the host asks of a machine. -/
inductive HostRequest where
  | call (c : HostCall)
  | raise (n : UInt8)
  | tickDevices
  | dump
  | halt (asked : Bool)
  | boot

/-- What it is told. -/
inductive HostReply where
  | done
  | answered (a : HostAnswer)
  | shown (text : String)
  deriving DecidableEq

namespace MachineM

variable {δ α : Type}

/-- What is done next may depend on anything but the traced lines. -/
private theorem Alike.reading {f : Machine δ → MachineM δ α}
    (hf : ∀ m n, m.cpu = n.cpu → m.bus = n.bus → m.fault = n.fault → f m = f n)
    (hr : ∀ m, BusM.Respects Machine.Alike (f m)) : BusM.Respects Machine.Alike (get >>= f : MachineM δ α) :=
  .reading (fun m n h => hf m n h.system.cpu h.system.bus h.fault) hr

theorem Alike.recording {action : CpuM (DeviceBus δ) α} (h : CpuM.Blind action) :
    BusM.Respects Machine.Alike (MachineM.recording action) := by
  rintro ⟨config, s, fault⟩ ⟨_, t, _⟩ ⟨rfl, hs, rfl⟩
  have h := h config s t hs
  unfold MachineM.recording
  dsimp only
  generalize action config s = x, action config t = y at h
  cases h with
  | ok a h => exact .ok a ⟨rfl, h, rfl⟩
  | error e h => exact .error e ⟨rfl, h, rfl⟩

namespace Alike

variable [Device δ]

theorem step : BusM.Respects Machine.Alike (step : MachineM δ UInt32) := by
  refine reading (fun m n _ _ hf => by rw [hf]) fun m => ?_
  cases m.fault with
  | some e => exact .throw e
  | none => exact recording .step

theorem raise (n : UInt8) : BusM.Respects Machine.Alike (raise n : MachineM δ Unit) := recording (.raise n)

theorem tickDevices : BusM.Respects Machine.Alike (tickDevices : MachineM δ Unit) := by
  have raises : ∀ ns : List UInt8, BusM.Respects Machine.Alike (ns.forM MachineM.raise : MachineM δ Unit) := by
    intro ns
    induction ns with
    | nil => exact .pure ()
    | cons n ns ih => exact (raise n).bind fun _ => ih
  exact reading (fun m n hc _ _ => by rw [hc]) fun m => (recording (.onBus _)).bind fun raised => raises _

theorem runSteps {after : MachineM δ Unit} (hafter : BusM.Respects Machine.Alike after) (start target : UInt64) (fuel : Nat) :
    BusM.Respects Machine.Alike (runSteps start target after fuel) := by
  induction fuel with
  | zero => exact reading (fun m n hc _ _ => by rw [hc]) fun m => .pure _
  | succ fuel ih =>
    refine reading (fun m n hc hb _ => by rw [hc, hb]) fun m => ?_
    split
    · split
      · exact .pure _
      · exact step.bind fun _ => hafter.bind fun _ => ih
    · exact .pure _

theorem runWith {after : MachineM δ Unit} (hafter : BusM.Respects Machine.Alike after) (budget : UInt64) :
    BusM.Respects Machine.Alike (runWith after budget) :=
  reading (fun m n hc _ _ => by rw [hc]) fun _ => runSteps hafter _ _ _

theorem call (c : HostCall) : BusM.Respects Machine.Alike (call c : MachineM δ HostAnswer) := by
  cases c with
  | step => exact step.map _
  | run budget => exact (runWith (.pure ()) budget).map _
  | runWithDevices budget => exact (runWith tickDevices budget).map _

theorem boot : BusM.Respects Machine.Alike (boot : MachineM δ Unit) := by
  have hboot : CpuM.Blind (CpuM.boot : CpuM (DeviceBus δ) Unit) :=
    (CpuM.Blind.modifyCpu _).bind fun _ => CpuM.Respects.readConfig.bind fun _ =>
      (CpuM.Blind.read32 _).bind fun _ => CpuM.Blind.modifyCpu _
  exact (BusM.Respects.modify fun m n h => ⟨h.config, h.system, rfl⟩).bind fun _ => recording hboot

end Alike

/-! ### Requests -/

variable [Device δ]

def serve : HostRequest → MachineM δ HostReply
  | .call c => .answered <$> call c
  | .raise n => do
    raise n
    return .done
  | .tickDevices => do
    tickDevices
    return .done
  | .dump => return .shown (← get).cpu.dump
  | .halt asked => do
    modify (·.setHalted asked)
    return .done
  | .boot => do
    boot
    return .done

/-- What requests in turn come back with. -/
def replies (m : Machine δ) : List HostRequest → List (Except Fault HostReply)
  | [] => []
  | r :: rest => verdict (serve r m) :: replies (outcome (serve r m)) rest

theorem Alike.serve (r : HostRequest) : BusM.Respects Machine.Alike (serve r : MachineM δ HostReply) := by
  cases r with
  | call c => exact (Alike.call c).map _
  | raise n => exact (Alike.raise n).bind fun _ => .pure _
  | tickDevices => exact Alike.tickDevices.bind fun _ => .pure _
  | dump => exact Alike.reading (fun m n hc _ _ => by rw [hc]) fun m => .pure _
  | halt asked =>
    have hset : ∀ m n : Machine δ, Machine.Alike m n → Machine.Alike (m.setHalted asked) (n.setHalted asked) :=
      fun m n h => ⟨h.config, ⟨h.system.cpu, congrArg (fun bus => { bus with halted := asked }) h.system.bus⟩, h.fault⟩
    exact (BusM.Respects.modify hset).bind fun _ => .pure _
  | boot => exact Alike.boot.bind fun _ => .pure _

/-- Machines that differ only in what was traced answer every request alike. -/
theorem replies_of_alike {m n : Machine δ} (h : Machine.Alike m n) (requests : List HostRequest) :
    replies m requests = replies n requests := by
  induction requests generalizing m n with
  | nil => rfl
  | cons r rest ih =>
    have hr := Alike.serve r m n h
    rw [replies, replies, hr.verdict, ih hr.outcome]

/-! ### Boots -/

/-- The fault from before plays no part. -/
theorem boot_recorded (config : Config) (s : System (DeviceBus δ)) (fault : Option Fault) :
    boot ⟨config, s, fault⟩ = recording CpuM.boot ⟨config, s, none⟩ :=
  rfl

/-- Two machines with the same configuration and the same bus are booted, whatever their cores, the recorded faults and the
traced lines.  Either both boots end, with no fault recorded and the same core, of which all but the program counter is as in
a new core with interrupts masked.  From then on both answer every request alike.  Or both boots fail with one fault, which is
recorded.  The buses are the same again, and the cores but for their clocks.  These are not started again: each is as before
the boot, with the reads charged to it that were made. -/
theorem boot_forgets (config : Config) (bus : DeviceBus δ) (c c' : Cpu) (lines lines' : Array String)
    (fault fault' : Option Fault) :
    let m : Machine δ := ⟨config, ⟨c, bus, lines⟩, fault⟩
    let n : Machine δ := ⟨config, ⟨c', bus, lines'⟩, fault'⟩
    (∃ target bus',
      let m' : Machine δ := ⟨config, ⟨.booted target, bus', lines⟩, none⟩
      let n' : Machine δ := ⟨config, ⟨.booted target, bus', lines'⟩, none⟩
      boot m = .ok () m' ∧ boot n = .ok () n' ∧ ∀ requests, replies m' requests = replies n' requests) ∨
    ∃ e bus' made,
      let vector := config.vectorBase
      let m' : Machine δ := ⟨config, ⟨c.reset.fetching made, bus', lines⟩, some e⟩
      let n' : Machine δ := ⟨config, ⟨c'.reset.fetching made, bus', lines'⟩, some e⟩
      (made = [vector, vector + 1] ∨ made = [vector, vector + 1, vector + 2, vector + 2 + 1]) ∧
      boot m = .error e m' ∧ boot n = .error e n' ∧ step m' = .error e m' ∧ step n' = .error e n' := by
  intro m n
  have htwice : CpuM.BootedTwice c c' lines lines' config.vectorBase (CpuM.boot config ⟨c, bus, lines⟩)
      (CpuM.boot config ⟨c', bus, lines'⟩) := CpuM.boot_twice config bus
  rw [boot_recorded, boot_recorded]
  unfold MachineM.recording
  dsimp only
  generalize CpuM.boot config ⟨c, bus, lines⟩ = x, CpuM.boot config ⟨c', bus, lines'⟩ = y at htwice
  cases htwice with
  | ok target bus' => exact .inl ⟨target, bus', rfl, rfl, replies_of_alike ⟨rfl, ⟨rfl, rfl⟩, rfl⟩⟩
  | error e bus' hmade => exact .inr ⟨e, bus', _, hmade, rfl, rfl, step_of_fault rfl, step_of_fault rfl⟩

private theorem recording_of_error {β : Type} {action : CpuM (DeviceBus β) α} {config : Config} {s t : System (DeviceBus β)}
    {e : Fault} (h : action config s = .error e t) (fault : Option Fault) :
    recording action ⟨config, s, fault⟩ = .error e ⟨config, t, some e⟩ := by
  unfold MachineM.recording
  simp only [h]

/-- Without memory the first word of the vector cannot be read. -/
private theorem boot_without_memory (c : Cpu) (fault : Option Fault) :
    let config : Config := { memorySize := 0 }
    let bus : DeviceBus Peripheral := (Machine.new config).bus
    let e : Fault := .outOfRange 0 ⟨.read, 32⟩
    boot ⟨config, ⟨c, bus, #[]⟩, fault⟩ = .error e ⟨config, ⟨c.reset.fetching [0, 1], bus, #[]⟩, some e⟩ := by
  intro config bus e
  have hbus : (Bus.read16 0 : BusM (DeviceBus Peripheral) UInt16) bus = .error (.outOfRange 0 ⟨.read, 8⟩) bus := by
    with_unfolding_all rfl
  have hword : (CpuM.read16 0 : CpuM (DeviceBus Peripheral) UInt16) config ⟨c.reset, bus, #[]⟩ =
      .error (.outOfRange 0 ⟨.read, 16⟩) ⟨c.reset.fetching [0, 1], bus, #[]⟩ := by
    show CpuM.widening 16 (CpuM.onBus (Bus.read16 0)) config ⟨c.reset.fetching [0, 1], bus, #[]⟩ = _
    exact CpuM.widening_error.2 ⟨_, CpuM.onBus_error.2 ⟨bus, hbus, rfl⟩, rfl⟩
  have hlong : (CpuM.read32 0 : CpuM (DeviceBus Peripheral) UInt32) config ⟨c.reset, bus, #[]⟩ =
      .error (.outOfRange 0 ⟨.read, 32⟩) ⟨c.reset.fetching [0, 1], bus, #[]⟩ :=
    CpuM.widening_error.2 ⟨_, CpuM.bind_error.2 (.inl hword), rfl⟩
  have hboot : (CpuM.boot : CpuM (DeviceBus Peripheral) Unit) config ⟨c, bus, #[]⟩ =
      .error (.outOfRange 0 ⟨.read, 32⟩) ⟨c.reset.fetching [0, 1], bus, #[]⟩ :=
    (CpuM.boot_eq config c bus #[]).trans (CpuM.bind_error.2 (.inl hlong))
  exact (boot_recorded ..).trans (recording_of_error hboot none)

/-- A machine without memory is booted twice.  Both boots fail in the same way, but each time the first reads of the vector
have been charged, so that the second leaves another cycle counter, which the dumps show. -/
theorem boot_keeps_clock :
    ∃ (m m' m'' : Machine Peripheral) (e : Fault), m = Machine.new { memorySize := 0 } ∧
      m'.config = m.config ∧ m'.bus = m.bus ∧ boot m = .error e m' ∧ boot m' = .error e m'' ∧
      m'.cpu.cycles = 3 ∧ m''.cpu.cycles = 6 ∧ replies m' [.dump] ≠ replies m'' [.dump] := by
  refine ⟨_, _, _, _, rfl, ?_, ?_, boot_without_memory {} none, boot_without_memory _ _, ?_, ?_, ?_⟩
  · rfl
  · rfl
  · decide
  · decide
  · decide

end MachineM

end H8S
