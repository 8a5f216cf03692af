import H8S.Proofs.ByteAccesses

/-!
# Costs of steps

Operations are gone through once to see which bytes they access: every run of one has an account of its byte accesses
(`perform_accounted`), of which a block move has the most.  The addresses of words are cut to the address space, so that the
second byte always follows the first.  A step that ends is then an entry, an idle period or a fetch with an operation, and
its account says what it cost (`step_accounts`).

Every step that ends takes a cycle at least (`step_elapsed`).  Accesses may be free, but only at odd addresses
(`AccessTimer.charge_pos`); an instruction is fetched from an even address on, so that its first byte is paid for, whatever
was accessed before.
-/

namespace H8S

theorem Operation.internalCycles_le (op : Operation) : op.internalCycles.toNat ≤ 20 := by
  cases op with
  | mulDiv op width src dst => cases width <;> exact Nat.le_of_ble_eq_true rfl
  | mov width src dst =>
    change (if src.steps || dst.steps then 2 else 0 : UInt32).toNat ≤ 20
    split <;> decide
  | ldc src dst =>
    rcases src with id | value | ⟨p⟩ | ⟨p⟩ | ⟨p⟩ | ⟨disp, base⟩ | ⟨addr⟩ <;> exact Nat.le_of_ble_eq_true rfl
  | stc src dst =>
    rcases dst with id | value | ⟨p⟩ | ⟨p⟩ | ⟨p⟩ | ⟨disp, base⟩ | ⟨addr⟩ <;> exact Nat.le_of_ble_eq_true rfl
  | bcc cond target wide => cases wide <;> exact Nat.le_of_ble_eq_true rfl
  | bsr target wide => cases wide <;> exact Nat.le_of_ble_eq_true rfl
  | jmp target => cases target <;> exact Nat.le_of_ble_eq_true rfl
  | jsr target => cases target <;> exact Nat.le_of_ble_eq_true rfl
  | _ => exact Nat.le_of_ble_eq_true rfl

namespace CpuM

variable {β α γ : Type} {config : Config} {s t u : System β} {bound bound' n k : Nat}

/-! ### Actions without accesses -/

private theorem meter_ignoresRegs : IgnoresRegs (meter : System β → UInt64 × AccessTimer × β) := fun _ _ => rfl

private theorem enter_keepsMeter (target : UInt32) : Keeps meter (do jump target; modifyCpu Cpu.entered : CpuM β Unit) :=
  .bind (.modifyCpu fun _ => rfl) fun _ => .modifyCpu fun _ => rfl

private theorem leave_keepsMeter (target : UInt32) : Keeps meter (do jump target; modifyCpu Cpu.left : CpuM β Unit) :=
  .bind (.modifyCpu fun _ => rfl) fun _ => .modifyCpu fun _ => rfl

/-! ### Addresses of operands -/

/-- Operands lie in the address space, where a long has room. -/
private theorem room {addr : UInt32} (h : addr.toNat < Address.spaceSize) : addr.toNat + 4 ≤ 2 ^ 32 := by
  unfold Address.spaceSize at h
  omega

private theorem resolve_lt {m : MemOperand} {width : Width} {addr : UInt32}
    (h : resolve m width config s = .ok addr t) : addr.toNat < Address.spaceSize := by
  cases h
  cases m <;> exact Address.trunc_lt _

private theorem destinationAddress_lt {width : Width} {dst : Operand} {addr : Option UInt32}
    (h : destinationAddress width dst config s = .ok addr t) : ∀ a, addr = some a → a.toNat < Address.spaceSize := by
  intro a ha
  cases dst with
  | mem m =>
    cases h
    cases ha
    cases m <;> exact Address.trunc_lt _
  | reg id =>
    cases h
    cases ha
  | imm value =>
    cases h
    cases ha

namespace Accounted

variable [Bus β]

/-! ### Parts of operations -/

/-- An operand is resolved without an access. -/
private theorem resolving {m : MemOperand} {width : Width} {f : UInt32 → CpuM β γ}
    (hf : ∀ addr : UInt32, addr.toNat < Address.spaceSize → Accounted bound (f addr)) :
    Accounted bound (resolve m width >>= f) :=
  after_of (meter_ignoresRegs.resolve m width) resolve_lt hf

theorem loadOperand (m : MemOperand) (width : Width) : Accounted 4 (loadOperand m width : CpuM β UInt32) :=
  resolving fun _ haddr => (readSized width (room haddr)).before fun value =>
    (meter_ignoresRegs.modifyRegs _).bind fun _ => .pure value

theorem readOperand (width : Width) (operand : Operand) : Accounted 4 (readOperand width operand : CpuM β UInt32) := by
  cases operand with
  | reg id => exact of_keeps (Keeps.getRegs.bind fun _ => .pure _)
  | imm value => exact of_keeps (.pure _)
  | mem m => exact loadOperand m width

theorem push32 (value : UInt32) : Accounted 4 (push32 value : CpuM β Unit) :=
  after Keeps.getRegs fun _ => after (meter_ignoresRegs.modifyRegs _) fun _ => write32 (room (Address.trunc_lt _)) value

theorem pop32 : Accounted 4 (pop32 : CpuM β UInt32) :=
  after Keeps.getRegs fun _ => (read32 (room (Address.trunc_lt _))).before fun _ =>
    (meter_ignoresRegs.modifyRegs _).bind fun _ => .pure _

theorem deliver (width : Width) (dst : Operand) {addr : Option UInt32}
    (haddr : ∀ a, addr = some a → a.toNat < Address.spaceSize) (value : UInt32) :
    Accounted 4 (deliver width dst addr value : CpuM β Unit) := by
  cases addr with
  | some a => exact writeSized width (room (haddr a rfl)) value
  | none =>
    cases dst with
    | reg id =>
      have hwrite : Accounted 4 (modifyRegs (·.write width id value) : CpuM β Unit) :=
        of_keeps (meter_ignoresRegs.modifyRegs _)
      exact hwrite
    | imm value => exact of_keeps (.pure ())
    | mem m => exact of_keeps (.pure ())

theorem sourceValue (width : Width) (src : Operand) : Accounted 4 (sourceValue width src : CpuM β UInt32) := by
  cases src with
  | mem m => exact resolving fun _ haddr => readSized width (room haddr)
  | reg id => exact of_keeps (Keeps.getRegs.bind fun _ => .pure _)
  | imm value => exact of_keeps (.pure _)

theorem move (width : Width) (src dst : Operand) : Accounted 8 (move width src dst : CpuM β Unit) :=
  after_of (meter_ignoresRegs.destinationAddress width dst) destinationAddress_lt fun _ haddr =>
    (sourceValue width src).bind fun value => after (meter_ignoresRegs.modifyRegs _) fun _ =>
      (deliver width dst haddr value).before fun _ => meter_ignoresRegs.advanceSource width src

theorem pushRegisters (count : Nat) (first : UInt8) :
    Accounted (4 * count) (pushRegisters first count : CpuM β Unit) := by
  induction count generalizing first with
  | zero => exact of_keeps (.pure ())
  | succ n ih =>
    have h : Accounted (4 + 4 * n) (CpuM.pushRegisters first (n + 1) : CpuM β Unit) :=
      after Keeps.getRegs fun _ => (push32 _).bind fun _ => ih (first + 1)
    exact h.mono (by omega)

theorem popRegisters (count : Nat) (last : UInt8) : Accounted (4 * count) (popRegisters last count : CpuM β Unit) := by
  induction count generalizing last with
  | zero => exact of_keeps (.pure ())
  | succ n ih =>
    have h : Accounted (4 + 4 * n) (CpuM.popRegisters last (n + 1) : CpuM β Unit) :=
      pop32.bind fun value => after (meter_ignoresRegs.modifyRegs _) fun _ => ih (last - 1)
    exact h.mono (by omega)

theorem copyBlock (width : Width) (count : Nat) : Accounted (2 * count) (copyBlock width count : CpuM β Unit) := by
  induction count with
  | zero => exact of_keeps (.pure ())
  | succ n ih =>
    have h : Accounted (1 + (1 + 2 * n)) (CpuM.copyBlock width (n + 1) : CpuM β Unit) :=
      after Keeps.getRegs fun _ => (read8 _).bind fun byte => (write8 _ byte).bind fun _ =>
        after (meter_ignoresRegs.modifyRegs _) fun _ => ih
    exact h.mono (by omega)

/-- A block has no more bytes than its counter can count. -/
theorem blockMove (width : Width) : Accounted (2 * width.mask.toNat) (blockMove width : CpuM β Unit) where
  ok {config s a t} hr := by
    have hcount := UInt32.le_iff_toNat_le.1 (s.cpu.regs.read_le_mask (blockCounter width) width)
    exact ((copyBlock width _).mono (Nat.mul_le_mul_left 2 hcount)).ok hr

theorem testAndSet (pointer : UInt8) : Accounted 2 (testAndSet pointer : CpuM β Unit) :=
  after Keeps.getRegs fun _ => (read8 _).bind fun _ => after (meter_ignoresRegs.modifyRegs _) fun _ => write8 _ _

theorem loadControl (src : Operand) (dst : ControlReg) : Accounted 4 (loadControl src dst : CpuM β Unit) := by
  refine before ?_ fun _ => meter_ignoresRegs.modifyRegs _
  cases src with
  | reg id => exact of_keeps (Keeps.getRegs.bind fun _ => .pure _)
  | imm value => exact of_keeps (.pure _)
  | mem m => exact (loadOperand m .word).before fun _ => .pure _

theorem storeControl (src : ControlReg) (dst : Operand) : Accounted 2 (storeControl src dst : CpuM β Unit) := by
  refine after Keeps.getRegs fun regs => ?_
  cases dst with
  | reg id => exact of_keeps (meter_ignoresRegs.modifyRegs _)
  | imm value => exact of_keeps (.pure ())
  | mem m => exact resolving fun _ haddr => write16 (Nat.le_trans (Nat.le_add_right _ 2) (room haddr)) _

theorem operateBit (op : BitOp) (mask byte : UInt8) {writeBack : UInt8 → CpuM β Unit}
    (h : ∀ value, Accounted bound (writeBack value)) : Accounted bound (operateBit op mask byte writeBack) := by
  rw [operateBit_eq]
  split
  · exact after Keeps.getRegs fun _ => h _
  · exact of_keeps (meter_ignoresRegs.modifyRegs _)

theorem bitOperation (op : BitOp) (number : BitNumber) (target : BitTarget) :
    Accounted 2 (bitOperation op number target : CpuM β Unit) := by
  refine after Keeps.getRegs fun regs => ?_
  cases target with
  | reg id =>
    exact after Keeps.getRegs fun _ => operateBit op _ _ fun value => of_keeps (meter_ignoresRegs.modifyRegs _)
  | mem m =>
    exact resolving fun addr _ => (read8 addr).bind fun byte => operateBit op _ byte (write8 addr)

theorem jumpAddress (target : JumpTarget) : Accounted 4 (jumpAddress target : CpuM β UInt32) := by
  cases target with
  | indirect p => exact of_keeps (Keeps.getRegs.bind fun _ => .pure _)
  | absolute addr => exact of_keeps (.pure addr)
  | stored addr =>
    have hpage := (addr &&& 0xFE).toNat_lt
    exact read32 (by rw [UInt8.toNat_toUInt32]; omega)

theorem userEnable : Accounted 1 (userEnable : CpuM β Bool) :=
  after .readConfig fun config => (read8 config.syscrAddress).before fun _ => .pure _

/-! ### Calls, traps and returns -/

theorem call (target : UInt32) : Accounted 4 (call target : CpuM β Unit) :=
  after Keeps.getRegs fun _ => (push32 _).before fun _ => enter_keepsMeter target

/-- What a trap ends with. -/
private theorem enterThrough (vector : UInt32) :
    Accounted 4 (do jumpThrough vector; modifyCpu Cpu.entered : CpuM β Unit) := by
  unfold jumpThrough
  rw [bind_assoc]
  exact (read32 (room (Address.trunc_lt _))).before fun target => enter_keepsMeter target

theorem trap (n : UInt8) : Accounted 9 (trap n : CpuM β Unit) :=
  have pushed : Accounted 4 (pushFrame : CpuM β Unit) := after Keeps.getRegs fun _ => push32 _
  pushed.bind fun _ => userEnable.bind fun _ => after (meter_ignoresRegs.modifyRegs _) fun _ => enterThrough _

theorem returnFromCall : Accounted 4 (returnFromCall : CpuM β Unit) :=
  pop32.before fun target => leave_keepsMeter target

theorem returnFromException : Accounted 4 (returnFromException : CpuM β Unit) :=
  pop32.before fun frame => (meter_ignoresRegs.modifyRegs _).bind fun _ => leave_keepsMeter frame

end Accounted

variable [Bus β]

/-! ### Operations -/

/-- The most bytes that an operation accesses.  A register list is counted by a byte. -/
def mostAccesses : Operation → Nat
  | .eepmov width => 2 * width.mask.toNat
  | _ => 4 * 255

theorem perform_accounted (op : Operation) : Accounted (mostAccesses op) (perform op : CpuM β Unit) := by
  have small : ∀ {bound : Nat} {m : CpuM β Unit}, Accounted bound m → bound ≤ 4 * 255 → Accounted (4 * 255) m :=
    fun h hb => h.mono hb
  have regs : ∀ f : Registers → Registers, Accounted (4 * 255) (modifyRegs f : CpuM β Unit) :=
    fun f => .of_keeps (meter_ignoresRegs.modifyRegs f)
  unfold perform
  cases op with
  | nop => exact .of_keeps (.pure ())
  | sleep => exact .of_keeps (.modifyCpu fun _ => rfl)
  | mov width src dst => exact small (.move width src dst) (by decide)
  | alu op width src dst =>
    exact small ((Accounted.readOperand width src).before fun _ => meter_ignoresRegs.modifyRegs _) (by decide)
  | adds amount dst => exact regs _
  | subs amount dst => exact regs _
  | inc width amount dst => exact regs _
  | dec width amount dst => exact regs _
  | unary op width dst => exact regs _
  | daa dst => exact regs _
  | das dst => exact regs _
  | mulDiv op width src dst => exact regs _
  | shift op width count dst => exact regs _
  | bit op number target => exact small (.bitOperation op number target) (by decide)
  | bcc cond target wide =>
    exact .of_keeps (Keeps.getRegs.bind fun _ => .ite (.modifyCpu fun _ => rfl) (.pure ()))
  | bsr target wide => exact small (.call target) (by decide)
  | jmp target => exact small ((Accounted.jumpAddress target).before fun _ => .modifyCpu fun _ => rfl) (by decide)
  | jsr target => exact small ((Accounted.jumpAddress target).bind fun addr => .call addr) (by decide)
  | rts => exact small .returnFromCall (by decide)
  | rte => exact small .returnFromException (by decide)
  | trapa n => exact small (.trap n) (by decide)
  | ldc src dst => exact small (.loadControl src dst) (by decide)
  | stc src dst => exact small (.storeControl src dst) (by decide)
  | controlLogic op imm dst => exact regs _
  | ldm last count =>
    have hcount := count.toNat_lt
    exact small (.popRegisters count.toNat last) (by omega)
  | stm first count =>
    have hcount := count.toNat_lt
    exact small (.pushRegisters count.toNat first) (by omega)
  | tas pointer => exact small (.testAndSet pointer) (by decide)
  | eepmov width => exact .blockMove width

/-- A request reads the enable register at most. -/
theorem raise_accounted (n : UInt8) : Accounted 1 (raise n : CpuM β Unit) := by
  have enabled : Accounted 1 (isEnabled n : CpuM β Bool) := by
    refine .after .readConfig fun config => ?_
    cases config.ierAddress with
    | none => exact .of_keeps (.pure _)
    | some addr =>
      dsimp only
      split
      · exact (Accounted.read8 addr).before fun _ => .pure _
      · exact .of_keeps (.pure _)
  unfold raise
  split
  · exact enabled.before fun _ => .ite (.modifyCpu fun _ => rfl) (.pure _)
  · exact .of_keeps (.pure _)

/-! ### Steps -/

/-- So many bytes fetched from an address on. -/
def fetchesFrom (start : UInt32) (n : Nat) : List BusAccess := (List.range n).map fun k => .read (start + k.toUInt32)

theorem fetchesFrom_succ (start : UInt32) (n : Nat) :
    fetchesFrom start (n + 1) = fetchesFrom start n ++ [.read (start + n.toUInt32)] := by
  rw [fetchesFrom, List.range_succ, List.map_append]
  rfl

theorem length_fetchesFrom (start : UInt32) (n : Nat) : (fetchesFrom start n).length = n := by
  rw [fetchesFrom, List.length_map, List.length_range]

theorem Fetches.accounts {start : UInt32} {bytes : List UInt8} (h : Fetches config s start bytes t) :
    Accounts config (fetchesFrom start bytes.length) 0 s t := by
  induction h with
  | nil => exact .of_meter rfl
  | @snoc bytes t b bus hf ha ih =>
    have hread := read8_accounts (read8_ok.2 ⟨bus, ha, rfl⟩)
    rw [List.length_append, List.length_singleton, fetchesFrom_succ]
    exact ih.trans hread

/-- The bytes of the instruction are fetched before any that it accesses. -/
theorem CarriesOut.accounts {i : Instruction} (h : CarriesOut config i s u) :
    ∃ rest, Accounts config (fetchesFrom i.addr i.bytes.length ++ rest) i.op.internalCycles.toNat s u ∧
      rest.length ≤ mostAccesses i.op := by
  obtain ⟨-, -, t, v, hd, hp, rfl⟩ := carriesOut_iff.1 h
  obtain ⟨-, -, hf⟩ := decode_ok hd
  have hmeter : meter (t.begun config i) = meter t := by
    rw [meter, System.begun_bus]
    rfl
  have hbegun : Accounts config [] 0 t (t.begun config i) := .of_meter hmeter
  obtain ⟨rest, hrun, hlen⟩ := (perform_accounted i.op).ok hp
  have hspent : Accounts config [] _ v (v.spent i.op.internalCycles.toUInt64) := .spent v _
  have hsum := ((hf.accounts.trans hbegun).trans hrun).trans hspent
  rw [List.append_nil, List.append_nil, UInt32.toNat_toUInt64, Nat.zero_add] at hsum
  exact ⟨rest, hsum, hlen⟩

/-- An entry reads the system control register, writes a long and reads a long. -/
private theorem enterInterrupt_accounts {number : UInt8} (h : enterInterrupt number config s = .ok () u) :
    ∃ made, Accounts config made 4 s u ∧ made.length ≤ 9 := by
  obtain ⟨syscr, target, s₁, s₂, s₃, h₁, h₂, h₃, rfl⟩ := enterInterrupt_ok h
  have a₁ := read8_accounts h₁
  obtain ⟨frame, a₂, l₂⟩ := (Accounted.write32 (room (Address.trunc_lt _)) _).ok h₂
  obtain ⟨vector, a₃, l₃⟩ := (Accounted.read32 (room (Address.trunc_lt _))).ok h₃
  have htaking : Accounts config [] 0 s₁ { s₁ with cpu := s₁.cpu.taking number } := .of_meter rfl
  have hspent : Accounts config [] 4 s₂ (s₂.spent 4) := .spent s₂ 4
  have hshielded : Accounts config [] 0 (s₂.spent 4) { s₂ with cpu := s₂.cpu.shielded syscr } := .of_meter rfl
  have hentered : Accounts config [] 0 s₃ { s₃ with cpu := (s₃.cpu.jumped target).entered } := .of_meter rfl
  refine ⟨_, (((((a₁.trans htaking).trans a₂).trans hspent).trans hshielded).trans a₃).trans hentered, ?_⟩
  simp only [List.length_append, List.length_nil, List.length_singleton]
  omega

/-- The account of a step that ends: an entry takes four cycles inside the core, an idle period two without an access, and an
instruction its internal ones. -/
theorem step_accounts {c : UInt32} (h : step config s = .ok c u) :
    ∃ made own, Accounts config made own s u ∧
      ((∃ number, s.cpu.dueInterrupt? = some number ∧ made.length ≤ 9 ∧ own = 4) ∨
      (s.cpu.dueInterrupt? = none ∧ s.cpu.sleeping = true ∧ made = [] ∧ own = 2) ∨
      ∃ i rest, CarriesOut config i s u ∧ made = fetchesFrom i.addr i.bytes.length ++ rest ∧
        rest.length ≤ mostAccesses i.op ∧ own = i.op.internalCycles.toNat) := by
  rcases step_cases h with ⟨number, hdue, hentry⟩ | ⟨hdue, hs, rfl⟩ | ⟨i, hi⟩
  · obtain ⟨made, ha, hlen⟩ := enterInterrupt_accounts hentry
    exact ⟨made, 4, ha, .inl ⟨number, hdue, hlen, rfl⟩⟩
  · exact ⟨[], 2, .spent s idleCycles, .inr (.inl ⟨hdue, hs, rfl, rfl⟩)⟩
  · obtain ⟨rest, ha, hlen⟩ := hi.accounts
    exact ⟨_, _, ha, .inr (.inr ⟨i, rest, hi, rfl, hlen, rfl⟩)⟩

/-! ### Bounds -/

/-- A fetch from an even address takes a cycle at least. -/
private theorem cost_fetchesFrom_pos (t : AccessTimer) {start : UInt32} (heven : start.toNat % 2 = 0) (hn : n ≠ 0) :
    1 ≤ t.cost (fetchesFrom start n) := by
  obtain ⟨k, rfl⟩ := Nat.exists_eq_succ_of_ne_zero hn
  have hfirst : (start + (0 : Nat).toUInt32).toNat % 2 = 0 := by
    have hzero : start + (0 : Nat).toUInt32 = start := UInt32.add_zero start
    rw [hzero, heven]
  rw [fetchesFrom, List.range_succ_eq_map, List.map_cons]
  exact Nat.le_trans (t.charge_pos .read hfirst) (Nat.le_add_right _ _)

/-- What the longest operation may take. -/
def longestOperation : Nat := 6 * 2 ^ 32

/-- What the longest step may take. -/
def longestStep : Nat := longestOperation + 50

private theorem mostAccesses_lt (op : Operation) : 3 * mostAccesses op < longestOperation := by
  unfold mostAccesses longestOperation
  split
  · next width =>
    have hmask := width.mask.toNat_lt
    omega
  · decide

/-- A step that ends takes a cycle at least, be it an entry, an idle period or an instruction. -/
theorem step_elapsed {c : UInt32} (h : step config s = .ok c u) : ∃ n, Elapsed n s u ∧ 1 ≤ n ∧ n ≤ longestStep := by
  obtain ⟨made, own, ha, hkind⟩ := step_accounts h
  have hcost := s.cpu.timer.cost_le made
  refine ⟨_, ha.elapsed, ?_⟩
  unfold longestStep
  rcases hkind with ⟨number, -, hlen, rfl⟩ | ⟨-, -, rfl, rfl⟩ | ⟨i, rest, hi, rfl, hlen, rfl⟩
  · exact ⟨by omega, by omega⟩
  · rw [List.length_nil] at hcost
    exact ⟨by omega, by omega⟩
  · obtain ⟨-, -, t, v, hd, -, -⟩ := carriesOut_iff.1 hi
    obtain ⟨haddr, ⟨-, hshort, hlong⟩, -⟩ := decode_ok hd
    have heven : i.addr.toNat % 2 = 0 := haddr ▸ Address.even_mod_two _
    have hfirst := cost_fetchesFrom_pos s.cpu.timer heven (n := i.bytes.length) (by omega)
    have hmost := mostAccesses_lt i.op
    have hinternal := i.op.internalCycles_le
    rw [List.length_append, length_fetchesFrom] at hcost
    rw [AccessTimer.cost_append] at hcost ⊢
    exact ⟨by omega, by omega⟩

end CpuM

end H8S
