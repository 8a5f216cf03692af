import H8S.Peripheral
import H8S.Proofs.Addresses
import H8S.Proofs.DeviceRanges
import H8S.Proofs.FailedSteps
import H8S.Proofs.InterruptDispatch
import Mathlib.Data.List.Chain

/-!
# The program counter in the address space

Jumps, returns and vectors cut the program counter to the address space and make it even.  Going on after an
instruction does not: an instruction whose encoding ends with the address space leaves the program counter at its
end.  On a bus inside the address space this is the only way out (`CarriesOut.nextPc_inside`), since bytes above it
are answered by the status register at most, and the length of an encoding is even.  So the program counter of a core
after a boot stays even and at most at the end of the address space, and it stays below exactly as long as no step
runs off.  What an exception saves above the program counter are the condition codes, except that the end of the
address space sets the carry bit in them.
-/

namespace H8S

namespace CpuM

section Bus

variable {β α γ : Type} {config : Config} {s t : System β}

private theorem coreView_pc (h : coreView t = coreView s) : t.cpu.regs.pc = s.cpu.regs.pc :=
  congrArg (fun v => v.1.pc) h

theorem outcome_map (f : α → γ) (m : CpuM β α) : outcome ((f <$> m) config s) = outcome (m config s) := by
  rw [run_map]
  cases m config s <;> rfl

private theorem Keeps.outcome {view : System β → γ} {m : CpuM β α}
    (h : Keeps view m) : view (outcome (m config s)) = view s := by
  cases hm : m config s with
  | ok a t => exact h.ok hm
  | error e t => exact h.error hm

variable [Bus β]

/-- The step carries out an instruction that ends with the address space, and control goes on after it. -/
def RunsOff (config : Config) (s t : System β) : Prop :=
  ∃ i l, CarriesOut config i s t ∧ i.nextPc.toNat = Address.spaceSize ∧ i.op.Lands s.cpu.regs.ccr l ∧ l.advances = true

private theorem Executes.pc_of_advances {i : Instruction} {log : List CoreAccess} {l : Landing}
    (h : Executes config s i log l t) (hl : l.advances = true) : t.cpu.regs.pc = i.nextPc := by
  have hpc := h.pc
  cases l with
  | onward => exact hpc
  | asleep => exact hpc
  | jumped target => cases hl
  | entered target => cases hl
  | left target => cases hl

theorem RunsOff.pc (h : RunsOff config s t) : t.cpu.regs.pc.toNat = Address.spaceSize := by
  obtain ⟨i, l, hcarry, hend, hl, hadv⟩ := h
  obtain ⟨log, l', hex⟩ := hcarry.executes
  rw [hex.pc_of_advances ((hex.lands.advances_eq hl).trans hadv)]
  exact hend

/-- A boot leaves an address of its vector in the program counter, or zero. -/
private theorem boot_pc : Address.Proper (outcome (boot config s)).cpu.regs.pc := by
  cases h : boot config s with
  | ok a u =>
    unfold boot at h
    rw [bind_of_ok (run_modifyCpu _), bind_of_ok run_read] at h
    obtain ⟨target, v, -, h⟩ := bind_ok.1 h
    cases h
    exact Address.even_proper target
  | error e u =>
    unfold boot at h
    rw [bind_of_ok (run_modifyCpu _), bind_of_ok run_read] at h
    rcases bind_error.1 h with h | ⟨_, _, _, ⟨⟩⟩
    have hpc : u.cpu.regs.pc = 0 := coreView_pc (congrArg Prod.fst ((read32_keeps _).error h))
    show Address.Proper u.cpu.regs.pc
    rw [hpc]
    exact ⟨rfl, by decide⟩

end Bus

section Devices

variable {δ : Type} [Device δ] {config : Config} {s t : System (DeviceBus δ)} {start : UInt32} {bytes : List UInt8}

/-! ### Instructions inside the address space -/

/-- Above the address space only the status register can be fetched. -/
private theorem Fetches.above (hb : s.bus.Inside) (hf : Fetches config s start bytes t) {k : Nat} (hk : k < bytes.length)
    (habove : Address.spaceSize ≤ (start + k.toUInt32).toNat) : config.isrAddress = some (start + k.toUInt32) := by
  obtain ⟨v, b, bus, ha, hl⟩ := hf.answers DeviceBus.kept_layout.toKeptByReads k hk
  unfold Answers at ha
  split at ha
  · next hisr => exact hisr
  · exact absurd ha ((hb.of_layout hl).not_answered habove)

/-- An instruction ends with the address space at the latest. -/
theorem CarriesOut.nextPc_inside {i : Instruction} (hb : s.bus.Inside) (h : CarriesOut config i s t) :
    i.nextPc.toNat % 2 = 0 ∧ i.nextPc.toNat ≤ Address.spaceSize := by
  obtain ⟨f, hd⟩ := h.decoded
  obtain ⟨ha, hw, hf⟩ := decode_ok hd
  have heven := Address.even_mod_two s.cpu.regs.pc
  have hlt := Address.even_lt s.cpu.regs.pc
  rw [← ha] at heven hlt
  have hlen := hw.1
  have hmax := hw.2.2
  rw [hw.nextPc_toNat hlt]
  refine ⟨by omega, Nat.le_of_not_lt fun hout => ?_⟩
  have toNat : ∀ k, k < i.bytes.length → (i.addr + k.toUInt32).toNat = i.addr.toNat + k := by
    intro k hk
    have hk' : k.toUInt32.toNat = k := by
      simp
      omega
    unfold Address.spaceSize at hlt
    rw [UInt32.toNat_add, hk']
    omega
  -- both ends are even, so that two bytes at least lie above the address space
  obtain ⟨k, hk, hend⟩ : ∃ k, k + 1 < i.bytes.length ∧ i.addr.toNat + k = Address.spaceSize := by
    unfold Address.spaceSize at *
    exact ⟨2 ^ 24 - i.addr.toNat, by omega, by omega⟩
  have h₀ := hf.above hb (k := k) (by omega) (by rw [toNat k (by omega)]; omega)
  have h₁ := hf.above hb (k := k + 1) hk (by rw [toNat (k + 1) hk]; omega)
  have h := congrArg UInt32.toNat (Option.some.inj (h₀.symm.trans h₁))
  rw [toNat k (by omega), toNat (k + 1) hk] at h
  omega

private theorem carriesOut_pc {i : Instruction} (hb : s.bus.Inside) (h : CarriesOut config i s t) :
    Address.Proper t.cpu.regs.pc ∨ RunsOff config s t := by
  obtain ⟨log, l, hex⟩ := h.executes
  obtain ⟨heven, hle⟩ := h.nextPc_inside hb
  have hpc := hex.pc
  cases hl : l.advances with
  | true =>
    rw [hex.pc_of_advances hl]
    rcases Nat.lt_or_eq_of_le hle with hlt | hend
    · exact .inl ⟨heven, hlt⟩
    · exact .inr ⟨i, l, h, hend, hex.lands, hl⟩
  | false =>
    refine .inl ?_
    cases l with
    | onward => cases hl
    | asleep => cases hl
    | jumped target =>
      rw [hpc]
      exact Address.even_proper target
    | entered target =>
      rw [hpc]
      exact Address.even_proper target
    | left target =>
      rw [hpc]
      exact Address.even_proper target

/-! ### Runs -/

/-- What can happen to a core with its devices, whether it ends or fails. -/
inductive Moves (config : Config) (s : System (DeviceBus δ)) : System (DeviceBus δ) → Prop where
  | happens (e : CoreEvent) : Moves config s (outcome (happen e config s))
  | ticks (now : UInt64) : Moves config s (outcome ((onBus (DeviceBus.tick now) : CpuM _ InterruptSet) config s))

private theorem step_pc (hb : s.bus.Inside) :
    (outcome (step config s)).cpu.regs.pc = s.cpu.regs.pc ∨ Address.Proper (outcome (step config s)).cpu.regs.pc ∨
      RunsOff config s (outcome (step config s)) := by
  cases h : step config s with
  | error e u => exact .inl (step_error_control h).1
  | ok c u =>
    rcases step_cases h with ⟨n, -, he⟩ | ⟨-, -, rfl⟩ | ⟨i, hcarry⟩
    · obtain ⟨_, target, _, _, _, -, -, -, rfl⟩ := enterInterrupt_ok he
      exact .inr (.inl (Address.even_proper target))
    · exact .inl rfl
    · exact .inr (carriesOut_pc hb hcarry)

private theorem Moves.pc (hb : s.bus.Inside) (h : Moves config s t) :
    t.cpu.regs.pc = s.cpu.regs.pc ∨ Address.Proper t.cpu.regs.pc ∨ RunsOff config s t := by
  cases h with
  | ticks now =>
    have hk : Keeps (fun s : System (DeviceBus δ) => s.cpu) (onBus (DeviceBus.tick now) : CpuM _ InterruptSet) :=
      .onBus fun _ _ => rfl
    exact .inl (congrArg (fun c : Cpu => c.regs.pc) hk.outcome)
  | happens e =>
    cases e with
    | raise n => exact .inl (coreView_pc (raise_keepsCore n).outcome)
    | step =>
      have hstep : outcome (happen .step config s) = outcome (step config s) := outcome_map _ _
      rw [hstep]
      exact step_pc hb
    | clearPending => exact .inl rfl
    | boot => exact .inr (.inl boot_pc)

private theorem Moves.inside (hb : s.bus.Inside) (h : Moves config s t) : t.bus.Inside := by
  have kept := DeviceBus.kept_layout (δ := δ)
  refine hb.of_layout ?_
  cases h with
  | ticks now => exact (Keeps.ofBus (DeviceBus.tick_keepsLayout now)).outcome
  | happens e =>
    cases e with
    | raise n => exact (raise_keepsBus kept n).outcome
    | step => exact ((step_keepsBus kept).map fun _ => ()).outcome
    | clearPending => rfl
    | boot => exact (boot_keepsBus kept).outcome

/-- The bus is inside the address space, and the program counter is even and at most at its end. -/
def Seated (s : System (DeviceBus δ)) : Prop :=
  s.bus.Inside ∧ s.cpu.regs.pc.toNat % 2 = 0 ∧ s.cpu.regs.pc.toNat ≤ Address.spaceSize

theorem Moves.seated (h : Moves config s t) (hs : Seated s) : Seated t := by
  obtain ⟨hb, hp⟩ := hs
  refine ⟨h.inside hb, ?_⟩
  rcases h.pc hb with hsame | ⟨heven, hlt⟩ | hoff
  · rw [hsame]
    exact hp
  · exact ⟨heven, Nat.le_of_lt hlt⟩
  · rw [hoff.pc]
    exact ⟨rfl, Nat.le_refl _⟩

theorem boot_seated (hb : s.bus.Inside) : Seated (outcome (boot config s)) :=
  ⟨(Moves.happens .boot).inside hb, boot_pc.1, Nat.le_of_lt boot_pc.2⟩

private theorem run_seated {run : List (System (DeviceBus δ))} (hs : Seated s) (h : (s :: run).IsChain (Moves config)) :
    ∀ t ∈ s :: run, Seated t := by
  induction run generalizing s with
  | nil =>
    intro t ht
    rw [List.mem_singleton.1 ht]
    exact hs
  | cons t run ih =>
    obtain ⟨hmove, hrun⟩ := List.isChain_cons_cons.1 h
    intro u hu
    rcases List.mem_cons.1 hu with rfl | hu
    · exact hs
    · exact ih (hmove.seated hs) hrun u hu

/-- The program counter stays inside the address space as long as no step runs off. -/
private theorem run_proper_iff {run : List (System (DeviceBus δ))} (hb : s.bus.Inside)
    (hp : Address.Proper s.cpu.regs.pc) (h : (s :: run).IsChain (Moves config)) :
    (∀ t ∈ s :: run, t.cpu.regs.pc.toNat < Address.spaceSize) ↔
      (s :: run).IsChain fun t u => ¬RunsOff config t u := by
  induction run generalizing s with
  | nil => simp [hp.2]
  | cons t run ih =>
    obtain ⟨hmove, hrun⟩ := List.isChain_cons_cons.1 h
    -- one step either runs off, and is seen by its program counter, or the rest of the run begins properly again
    have hstay : ¬RunsOff config s t → Address.Proper t.cpu.regs.pc := by
      intro hoff
      rcases hmove.pc hb with hsame | hproper | hoff'
      · rw [hsame]
        exact hp
      · exact hproper
      · exact absurd hoff' hoff
    rw [List.isChain_cons_cons]
    constructor
    · intro hall
      have hoff : ¬RunsOff config s t := fun hoff => by
        have hlt := hall t (List.mem_cons_of_mem s List.mem_cons_self)
        rw [hoff.pc] at hlt
        exact Nat.lt_irrefl _ hlt
      exact ⟨hoff, (ih (hmove.inside hb) (hstay hoff) hrun).1 fun u hu => hall u (List.mem_cons_of_mem s hu)⟩
    · rintro ⟨hoff, hchain⟩ u hu
      rcases List.mem_cons.1 hu with rfl | hu
      · exact hp.2
      · exact (ih (hmove.inside hb) (hstay hoff) hrun).2 hchain u hu

/-! ### Frames -/

/-- The condition codes that a frame saves are as they were, unless the end of the address space lies below them. -/
theorem frame_flags {r : Registers} (h : r.pc.toNat ≤ Address.spaceSize) :
    (Cpu.frame r >>> 24).toUInt8 = if r.pc.toNat < Address.spaceSize then r.ccr.toByte else r.ccr.toByte ||| 1 := by
  unfold Cpu.frame
  rcases Nat.lt_or_eq_of_le h with hlt | hend
  · rw [if_pos hlt]
    exact Address.packed_byte _ hlt
  · rw [if_neg (by omega)]
    exact Address.packed_byte_of_end _ hend

/-- The program counter in the address space.  The host keeps memory and devices inside the address space.  From a
boot on, under any requests, steps, clearings, further boots and ticks, each ending or failing, the program counter is
even and at most the end of the address space; it stays below as long as no step runs off; and a frame that is pushed
for an exception holds the condition codes as they are if its return address lies below the end, and with the carry
bit set if it is the end. -/
theorem pc_in_space (config : Config) :
    (∀ m : Machine δ, m.Prepared → m.bus.Inside) ∧
    ∀ (s₀ s : System (DeviceBus δ)) (run : List (System (DeviceBus δ))), s₀.bus.Inside →
      boot config s₀ = .ok () s → (s :: run).IsChain (Moves config) →
      (∀ t ∈ s :: run, t.cpu.regs.pc.toNat % 2 = 0 ∧ t.cpu.regs.pc.toNat ≤ Address.spaceSize) ∧
      ((∀ t ∈ s :: run, t.cpu.regs.pc.toNat < Address.spaceSize) ↔
        (s :: run).IsChain fun t u => ¬RunsOff config t u) ∧
      ∀ t ∈ s :: run, ∀ u,
        ((∃ n c, t.cpu.dueInterrupt? = some n ∧ step config t = .ok c u) ∨
          ∃ i n, i.op = .trapa n ∧ CarriesOut config i t u) →
        ∃ ra frame, PushesFrame config ra frame t u ∧ ra.toNat ≤ Address.spaceSize ∧
          (frame >>> 24).toUInt8 =
            if ra.toNat < Address.spaceSize then t.cpu.regs.ccr.toByte else t.cpu.regs.ccr.toByte ||| 1 := by
  refine ⟨fun m hm => hm.inside, fun s₀ s run hb₀ hboot hrun => ?_⟩
  have hs : s = outcome (boot config s₀) := by rw [hboot]; rfl
  have hseat : Seated s := by
    rw [hs]
    exact boot_seated hb₀
  have hp : Address.Proper s.cpu.regs.pc := by
    rw [hs]
    exact boot_pc
  have hseated := run_seated hseat hrun
  refine ⟨fun t ht => (hseated t ht).2, run_proper_iff hseat.1 hp hrun, ?_⟩
  intro t ht u hexc
  obtain ⟨htb, -, hle⟩ := hseated t ht
  rcases hexc with ⟨n, c, hdue, hstep⟩ | ⟨i, n, hop, hcarry⟩
  · exact ⟨_, _, interrupt_pushesFrame hdue hstep, hle, frame_flags hle⟩
  · have hnext := (hcarry.nextPc_inside htb).2
    exact ⟨_, _, trap_pushesFrame hop hcarry, hnext, frame_flags (r := { t.cpu.regs with pc := i.nextPc }) hnext⟩

/-! ### A machine that runs off -/

/-- Without devices the memory answers. -/
private theorem read8_unmapped (addr : UInt32) (hm : s.bus.mappings = []) (hin : addr.toNat < s.bus.memory.size) :
    (Bus.read8 addr : BusM (DeviceBus δ) UInt8) s.bus = .ok (s.bus.memory.get addr) s.bus := by
  have hfree := DeviceBus.mapping?_of_unmapped addr hm
  have hc : s.bus.memory.contains addr = true := decide_eq_true hin
  change DeviceBus.read8 addr s.bus = _
  unfold DeviceBus.read8
  rw [hfree]
  simp [Memory.read?, hc]

private theorem read16_unmapped (addr : UInt32) (hm : s.bus.mappings = []) (hin : addr.toNat + 2 ≤ s.bus.memory.size)
    (hle : addr.toNat + 2 ≤ 2 ^ 32) :
    (Bus.read16 addr : BusM (DeviceBus δ) UInt16) s.bus =
      .ok (wordOf (s.bus.memory.get addr) (s.bus.memory.get (addr + 1))) s.bus := by
  have hfree : s.bus.wordMapping? addr = none := by
    unfold DeviceBus.wordMapping?
    rw [DeviceBus.mapping?_of_unmapped addr hm]
  have hnext : addressAfter addr = addr + 1 := by
    unfold addressAfter
    refine if_neg fun h => ?_
    rw [h] at hle
    exact absurd hle (by decide)
  have h1 : (1 : UInt32).toNat = 1 := rfl
  have ha : (addr + 1).toNat = addr.toNat + 1 := by
    rw [UInt32.toNat_add]
    omega
  change DeviceBus.read16 addr s.bus = _
  unfold DeviceBus.read16
  rw [hfree, hnext]
  exact BusM.bind_ok.2 ⟨_, _, read8_unmapped _ hm (by omega), BusM.bind_ok.2 ⟨_, _, read8_unmapped _ hm (by omega), rfl⟩⟩

private theorem run_read16_unmapped (addr : UInt32) (hm : s.bus.mappings = []) (hin : addr.toNat + 2 ≤ s.bus.memory.size)
    (hle : addr.toNat + 2 ≤ 2 ^ 32) (hc : coversStatus config addr 2 = false) :
    read16 addr config s = .ok (wordOf (s.bus.memory.get addr) (s.bus.memory.get (addr + 1)))
      { s with cpu := (s.cpu.charged .read addr).charged .read (addr + 1) } := by
  unfold read16 load16
  rw [bind_of_ok (run_charge .read addr), bind_of_ok (run_charge .read (addr + 1)), bind_of_ok run_read, hc,
    if_neg (by decide)]
  exact widening_ok.2 (onBus_ok.2 ⟨_, read16_unmapped addr hm hin hle, rfl⟩)

private theorem run_read32_unmapped (hm : s.bus.mappings = []) (hin : 4 ≤ s.bus.memory.size)
    (hc₀ : coversStatus config 0 2 = false) (hc₂ : coversStatus config 2 2 = false) :
    read32 0 config s = .ok (s.bus.memory.longAt 0) { s with cpu := s.cpu.chargedLong .read 0 } := by
  have h₀ := run_read16_unmapped 0 hm (Nat.le_trans (by decide) hin) (by decide) hc₀
  have h₂ := run_read16_unmapped (s := { s with cpu := (s.cpu.charged .read 0).charged .read (0 + 1) }) 2 hm hin
    (by decide) hc₂
  exact widening_ok.2 (bind_ok.2 ⟨_, _, h₀, bind_ok.2 ⟨_, _, h₂, rfl⟩⟩)

/-- A boot without devices takes the first vector from the memory. -/
private theorem boot_unmapped (hm : s.bus.mappings = []) (hin : 4 ≤ s.bus.memory.size) :
    ∃ t, boot {} s = .ok () t ∧ t.bus = s.bus ∧ t.cpu.regs.pc = Address.even (s.bus.memory.longAt 0) ∧
      t.cpu.pending = {} ∧ t.cpu.sleeping = false := by
  let c : Cpu := { s.cpu with regs := { ccr := { i := true } }, pending := {}, sleeping := false, depth := 0 }
  have hr : read32 ({} : Config).vectorBase {} { s with cpu := c } = .ok (s.bus.memory.longAt 0) _ :=
    run_read32_unmapped hm hin rfl rfl
  have h : boot {} s = .ok () _ :=
    (bind_of_ok (run_modifyCpu _)).trans ((bind_of_ok run_read).trans ((bind_of_ok hr).trans (run_modifyCpu _)))
  exact ⟨_, h, rfl, rfl, rfl, rfl⟩

/-- Where no byte is set there is an instruction of two bytes that does nothing. -/
private theorem step_nop (hm : s.bus.mappings = []) (hsize : s.bus.memory.size = Address.spaceSize)
    (hpc : s.cpu.regs.pc = 0xFFFFFE) (h₀ : s.bus.memory.get 0xFFFFFE = 0) (h₁ : s.bus.memory.get 0xFFFFFF = 0)
    (hp : s.cpu.pending = {}) (ha : s.cpu.sleeping = false) :
    ∃ c u, step {} s = .ok c u ∧ u.cpu.regs.pc = 0x1000000 := by
  have haddr : Address.even s.cpu.regs.pc = 0xFFFFFE := by
    rw [hpc]
    rfl
  have b₀ := read8_unmapped 0xFFFFFE hm (by rw [hsize]; decide)
  have b₁ := read8_unmapped 0xFFFFFF hm (by rw [hsize]; decide)
  rw [h₀] at b₀
  rw [h₁] at b₁
  have f₀ : Fetches {} s (Address.even s.cpu.regs.pc) ([] ++ [0]) _ := .snoc 0 s.bus .nil (by rw [haddr]; exact b₀)
  have f₁ : Fetches {} s (Address.even s.cpu.regs.pc) ([] ++ [0] ++ [0]) _ := .snoc 0 s.bus f₀ (by rw [haddr]; exact b₁)
  have hd : Instruction.decode read8 s.cpu.regs.pc {} s = .ok ⟨_, .nop, _⟩ _ := decode_of_fetches f₁ rfl
  have hn := executeNext_ok.2 ⟨_, _, _, hd, rfl, rfl⟩
  have hdue := Cpu.dueInterrupt?_eq_none (c := s.cpu) (.inr hp)
  rw [← advance_of_awake hdue ha] at hn
  refine ⟨_, _, step_ok.2 ⟨hn, rfl⟩, ?_⟩
  show Instruction.nextPc ⟨Address.even s.cpu.regs.pc, .nop, [0, 0]⟩ = _
  rw [haddr]
  rfl

end Devices

end CpuM

namespace Machine

/-- The first vector points to the last word of the address space, where there is nothing. -/
def atEnd : Machine Peripheral :=
  (Machine.new {}).setMemory (({ size := Address.spaceSize } : Memory).storeAll 0 [0x00, 0xFF, 0xFF, 0xFE])

private theorem atEnd_runs :
    ∃ c t u, CpuM.boot {} atEnd.system = .ok () t ∧ t.cpu.regs.pc = 0xFFFFFE ∧ CpuM.step {} t = .ok c u ∧
      u.cpu.regs.pc = 0x1000000 := by
  let memory := ({ size := Address.spaceSize } : Memory).storeAll 0 [0x00, 0xFF, 0xFF, 0xFE]
  have hget : ∀ a : UInt32, 4 ≤ a.toNat → memory.get a = 0 := by
    intro a ha
    have hne : ∀ k : UInt32, k.toNat < 4 → k ≠ a := fun k hk h => by
      rw [h] at hk
      omega
    have hempty : ({ size := Address.spaceSize } : Memory).get a = 0 := by simp [Memory.get]
    simp only [memory, Memory.storeAll, Memory.get_store]
    rw [if_neg (hne _ (by decide)), if_neg (hne _ (by decide)), if_neg (hne _ (by decide)), if_neg (hne _ (by decide)),
      hempty]
  have hlong : memory.longAt 0 = 0xFFFFFE := by
    simp [memory, Memory.longAt, Memory.storeAll, Memory.get_store]
    rfl
  obtain ⟨t, hboot, hbus, hpc, hpend, hsleep⟩ := CpuM.boot_unmapped (s := atEnd.system) rfl (by decide)
  have hpc : t.cpu.regs.pc = 0xFFFFFE := by
    rw [hpc]
    exact congrArg Address.even hlong
  have hmappings : t.bus.mappings = [] := by rw [hbus]; rfl
  have hmemory : t.bus.memory = memory := by rw [hbus]; rfl
  have h₀ : t.bus.memory.get 0xFFFFFE = 0 := by rw [hmemory]; exact hget _ (by decide)
  have h₁ : t.bus.memory.get 0xFFFFFF = 0 := by rw [hmemory]; exact hget _ (by decide)
  obtain ⟨c, u, hstep, hu⟩ := CpuM.step_nop hmappings (by rw [hmemory]; rfl) hpc h₀ h₁ hpend hsleep
  exact ⟨c, t, u, hboot, hpc, hstep, hu⟩

/-- The step that runs off is found by its program counter. -/
theorem pc_in_space_at_end :
    ∃ t u : System (DeviceBus Peripheral), CpuM.boot {} atEnd.system = .ok () t ∧ CpuM.Moves {} t u ∧
      u.cpu.regs.pc.toNat = Address.spaceSize ∧ CpuM.RunsOff {} t u := by
  obtain ⟨c, t, u, hboot, -, hstep, hu⟩ := atEnd_runs
  have hmove : CpuM.Moves {} t u := by
    have h : CpuM.Moves {} t (outcome (CpuM.happen .step {} t)) := .happens .step
    rw [show outcome (CpuM.happen .step {} t) = outcome (CpuM.step {} t) from CpuM.outcome_map _ _, hstep] at h
    exact h
  have hpc : u.cpu.regs.pc.toNat = Address.spaceSize := congrArg UInt32.toNat hu
  obtain ⟨hinside, hruns⟩ := CpuM.pc_in_space (δ := Peripheral) {}
  have hload : (Machine.new {} : Machine Peripheral).load 0 [0x00, 0xFF, 0xFF, 0xFE] = .ok atEnd := rfl
  have hloaded : atEnd.Prepared := .load (.new {} (Nat.le_refl _)) hload
  obtain ⟨-, hiff, -⟩ := hruns _ t [u] (hinside _ hloaded) hboot (List.isChain_pair.2 hmove)
  refine ⟨t, u, hboot, hmove, hpc, Classical.byContradiction fun hoff => ?_⟩
  have hlt := hiff.2 (List.isChain_pair.2 hoff) u (by simp)
  rw [hpc] at hlt
  exact Nat.lt_irrefl _ hlt

private theorem run_boot {δ : Type} [Device δ] {m : Machine δ} {t : System (DeviceBus δ)}
    (h : CpuM.boot m.config m.system = .ok () t) : MachineM.boot m = .ok () ⟨m.config, t, none⟩ := by
  show MachineM.recording CpuM.boot { m with fault := none } = _
  unfold MachineM.recording
  simp only [h]

private theorem run_step {δ : Type} [Device δ] {m : Machine δ} {c : UInt32} {t : System (DeviceBus δ)}
    (hf : m.fault = none) (h : CpuM.step m.config m.system = .ok c t) : MachineM.step m = .ok c { m with system := t } := by
  obtain ⟨config, system, fault⟩ := m
  obtain rfl : fault = none := hf
  show MachineM.recording CpuM.step ⟨config, system, none⟩ = _
  unfold MachineM.recording
  simp only [h]

/-- After its boot and one step the program counter of the machine is the end of the address space. -/
theorem pc_at_end_of_space :
    ∃ (m₁ m₂ m₃ : Machine Peripheral) (c : UInt32), (Machine.new {}).load 0 [0x00, 0xFF, 0xFF, 0xFE] = .ok m₁ ∧
      MachineM.boot m₁ = .ok () m₂ ∧ m₂.cpu.regs.pc = 0xFFFFFE ∧ MachineM.step m₂ = .ok c m₃ ∧
      m₃.cpu.regs.pc.toNat = Address.spaceSize := by
  obtain ⟨c, t, u, hboot, hpc, hstep, hu⟩ := atEnd_runs
  exact ⟨atEnd, ⟨{}, t, none⟩, ⟨{}, u, none⟩, c, rfl, run_boot hboot, hpc, run_step rfl hstep,
    congrArg UInt32.toNat hu⟩

end Machine

end H8S
