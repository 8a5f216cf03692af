import H8S.Cpu.Step

/-!
# Runs of actions

How an action of the core runs on a system.  The simple actions have one equation each; a sequence of two actions is
taken apart by `bind_ok` and `bind_error`, which say that a fault of the first ends the sequence and that nothing is
undone.

`Keeps view m` says that a view of the system is the same after the action as before it, whether the action fails or
not; it is shown part by part, as the action is put together.
-/

namespace H8S

/-! ### Actions on a bus -/

namespace BusM

variable {β α γ : Type} {bus bus' : β} {m : BusM β α} {f : α → BusM β γ}

theorem bind_ok {c : γ} :
    (m >>= f : BusM β γ) bus = .ok c bus' ↔ ∃ a next, m bus = .ok a next ∧ f a next = .ok c bus' := by
  change EStateM.bind m f bus = .ok c bus' ↔ _
  unfold EStateM.bind
  cases m bus with
  | ok a next =>
    constructor
    · intro h
      exact ⟨a, next, rfl, h⟩
    · rintro ⟨_, _, ⟨⟩, h⟩
      exact h
  | error e next => simp

theorem bind_error {e : Fault} :
    (m >>= f : BusM β γ) bus = .error e bus' ↔
      m bus = .error e bus' ∨ ∃ a next, m bus = .ok a next ∧ f a next = .error e bus' := by
  change EStateM.bind m f bus = .error e bus' ↔ _
  unfold EStateM.bind
  cases m bus with
  | ok a next =>
    constructor
    · intro h
      exact .inr ⟨a, next, rfl, h⟩
    · rintro (h | ⟨_, _, hm, h⟩)
      · cases h
      · cases hm
        exact h
  | error e next => simp

theorem bind_of_ok {a : α} {next : β} (h : m bus = .ok a next) : (m >>= f : BusM β γ) bus = f a next := by
  change EStateM.bind m f bus = _
  unfold EStateM.bind
  rw [h]

end BusM

/-! ### Recorded actions -/

namespace Recorder

variable {β α : Type} {access : BusAccess} {m : BusM β α} {r r' : Recorder β}

/-- What is recorded ends as it does without a recorder, with an entry in the log. -/
theorem logged_ok {a : α} :
    logged access m r = .ok a r' ↔ ∃ bus, m r.bus = .ok a bus ∧ r' = ⟨bus, r.log.push access⟩ := by
  obtain ⟨below, log⟩ := r
  cases hm : m below with
  | ok b bus =>
    simp only [logged, hm]
    constructor
    · rintro ⟨⟩
      exact ⟨bus, rfl, rfl⟩
    · rintro ⟨_, ⟨⟩, rfl⟩
      rfl
  | error e bus => simp [logged, hm]

/-- So it does if it fails. -/
theorem logged_error {e : Fault} :
    logged access m r = .error e r' ↔ ∃ bus, m r.bus = .error e bus ∧ r' = ⟨bus, r.log.push access⟩ := by
  obtain ⟨below, log⟩ := r
  cases hm : m below with
  | ok b bus => simp [logged, hm]
  | error e' bus =>
    simp only [logged, hm]
    constructor
    · rintro ⟨⟩
      exact ⟨bus, rfl, rfl⟩
    · rintro ⟨_, ⟨⟩, rfl⟩
      rfl

end Recorder

namespace CpuM

variable {β α γ : Type} {config : Config} {s t u : System β} {e : Fault}

/-! ### Simple actions -/

@[simp] theorem run_pure (a : α) : (pure a : CpuM β α) config s = .ok a s := rfl

@[simp] theorem run_throw : (throw e : CpuM β α) config s = .error e s := rfl

@[simp] theorem run_read : (read : CpuM β Config) config s = .ok config s := rfl

@[simp] theorem run_get : (get : CpuM β (System β)) config s = .ok s s := rfl

@[simp] theorem run_getRegs : (getRegs : CpuM β Registers) config s = .ok s.cpu.regs s := rfl

@[simp] theorem run_modifyCpu (f : Cpu → Cpu) :
    (modifyCpu f : CpuM β Unit) config s = .ok () { s with cpu := f s.cpu } := rfl

@[simp] theorem run_modifyRegs (f : Registers → Registers) :
    (modifyRegs f : CpuM β Unit) config s = .ok () { s with cpu := { s.cpu with regs := f s.cpu.regs } } := rfl

@[simp] theorem run_setRegs (r : Registers) :
    (setRegs r : CpuM β Unit) config s = .ok () { s with cpu := { s.cpu with regs := r } } := rfl

@[simp] theorem run_spend (cycles : UInt64) :
    (spend cycles : CpuM β Unit) config s = .ok () { s with cpu := { s.cpu with cycles := s.cpu.cycles + cycles } } := rfl

@[simp] theorem run_jump (target : UInt32) :
    (jump target : CpuM β Unit) config s = .ok () { s with cpu := s.cpu.jumped target } := rfl

@[simp] theorem run_charge (direction : Direction) (addr : UInt32) :
    (charge direction addr : CpuM β Unit) config s = .ok () { s with cpu := s.cpu.charged direction addr } := rfl

/-! ### Sequences -/

theorem run_bind (m : CpuM β α) (f : α → CpuM β γ) :
    (m >>= f) config s =
      match m config s with
      | .ok a t => f a config t
      | .error e t => .error e t := by
  show EStateM.bind (m config) (fun a => f a config) s = _
  unfold EStateM.bind
  cases m config s <;> rfl

theorem bind_ok {m : CpuM β α} {f : α → CpuM β γ} {c : γ} :
    (m >>= f) config s = .ok c u ↔ ∃ a t, m config s = .ok a t ∧ f a config t = .ok c u := by
  rw [run_bind]
  constructor
  · intro h
    cases hm : m config s with
    | ok a t => rw [hm] at h; exact ⟨a, t, rfl, h⟩
    | error e t => rw [hm] at h; cases h
  · rintro ⟨a, t, hm, h⟩
    rw [hm]; exact h

theorem bind_error {m : CpuM β α} {f : α → CpuM β γ} :
    (m >>= f) config s = .error e u ↔
      m config s = .error e u ∨ ∃ a t, m config s = .ok a t ∧ f a config t = .error e u := by
  rw [run_bind]
  constructor
  · intro h
    cases hm : m config s with
    | ok a t => rw [hm] at h; exact .inr ⟨a, t, rfl, h⟩
    | error e' t => rw [hm] at h; cases h; exact .inl rfl
  · rintro (hm | ⟨a, t, hm, h⟩)
    · rw [hm]
    · rw [hm]; exact h

/-- An action that cannot fail is passed over. -/
theorem bind_of_ok {m : CpuM β α} {f : α → CpuM β γ} {a : α} (h : m config s = .ok a t) :
    (m >>= f) config s = f a config t := by
  rw [run_bind, h]

@[simp] theorem run_map (f : α → γ) (m : CpuM β α) :
    (f <$> m) config s =
      match m config s with
      | .ok a t => .ok (f a) t
      | .error e t => .error e t := by
  show EStateM.map f (m config) s = _
  unfold EStateM.map
  cases m config s <;> rfl

/-! ### Faults of a part -/

theorem widening_ok {m : CpuM β α} {width : Nat} {a : α} :
    widening width m config s = .ok a t ↔ m config s = .ok a t := by
  unfold widening
  cases m config s <;> simp

theorem widening_error {m : CpuM β α} {width : Nat} :
    widening width m config s = .error e t ↔ ∃ e', m config s = .error e' t ∧ e = e'.widen width := by
  unfold widening
  cases m config s with
  | ok a u => simp
  | error e' u =>
    constructor
    · rintro ⟨⟩; exact ⟨e', rfl, rfl⟩
    · rintro ⟨_, ⟨⟩, rfl⟩; rfl

theorem retreatingTo_ok {m : CpuM β α} {pc : UInt32} {a : α} :
    retreatingTo pc m config s = .ok a t ↔ m config s = .ok a t := by
  unfold retreatingTo
  cases m config s <;> simp

theorem retreatingTo_error {m : CpuM β α} {pc : UInt32} :
    retreatingTo pc m config s = .error e t ↔
      ∃ u, m config s = .error e u ∧ t = { u with cpu := { u.cpu with regs := { u.cpu.regs with pc := pc } } } := by
  unfold retreatingTo
  cases m config s with
  | ok a u => simp
  | error e' u =>
    constructor
    · rintro ⟨⟩; exact ⟨u, rfl, rfl⟩
    · rintro ⟨_, ⟨⟩, rfl⟩; rfl

@[simp] theorem run_onBus (m : BusM β α) :
    (onBus m : CpuM β α) config s =
      match m s.bus with
      | .ok a bus => .ok a { s with bus := bus }
      | .error e bus => .error e { s with bus := bus } := rfl

theorem onBus_ok {m : BusM β α} {a : α} :
    (onBus m : CpuM β α) config s = .ok a t ↔ ∃ bus, m s.bus = .ok a bus ∧ t = { s with bus := bus } := by
  rw [run_onBus]
  cases m s.bus with
  | ok b bus =>
    constructor
    · rintro ⟨⟩; exact ⟨bus, rfl, rfl⟩
    · rintro ⟨_, ⟨⟩, rfl⟩; rfl
  | error e' bus => simp

theorem onBus_error {m : BusM β α} :
    (onBus m : CpuM β α) config s = .error e t ↔ ∃ bus, m s.bus = .error e bus ∧ t = { s with bus := bus } := by
  rw [run_onBus]
  cases m s.bus with
  | ok b bus => simp
  | error e' bus =>
    constructor
    · rintro ⟨⟩; exact ⟨bus, rfl, rfl⟩
    · rintro ⟨_, ⟨⟩, rfl⟩; rfl

/-! ### What an action leaves alone -/

/-- Whatever comes of the action, a view of the system is as before. -/
structure Keeps (view : System β → γ) (m : CpuM β α) : Prop where
  ok : ∀ {config s a t}, m config s = .ok a t → view t = view s
  error : ∀ {config s e t}, m config s = .error e t → view t = view s

namespace Keeps

variable {δ : Type} {view : System β → δ}

theorem pure (a : α) : Keeps view (pure a : CpuM β α) where
  ok := by rintro _ _ _ _ ⟨⟩; rfl
  error := by rintro _ _ _ _ ⟨⟩

theorem bind {m : CpuM β α} {f : α → CpuM β γ} (hm : Keeps view m) (hf : ∀ a, Keeps view (f a)) :
    Keeps view (m >>= f) where
  ok := by
    intro config s c u h
    obtain ⟨a, t, h₁, h₂⟩ := bind_ok.1 h
    rw [(hf a).ok h₂, hm.ok h₁]
  error := by
    intro config s e u h
    rcases bind_error.1 h with h | ⟨a, t, h₁, h₂⟩
    · exact hm.error h
    · rw [(hf a).error h₂, hm.ok h₁]

theorem map {m : CpuM β α} (f : α → γ) (hm : Keeps view m) : Keeps view (f <$> m) := by
  rw [← bind_pure_comp]
  exact hm.bind fun a => .pure (f a)

theorem readConfig : Keeps view (read : CpuM β Config) where
  ok := by rintro _ _ _ _ ⟨⟩; rfl
  error := by rintro _ _ _ _ ⟨⟩

theorem get : Keeps view (get : CpuM β (System β)) where
  ok := by rintro _ _ _ _ ⟨⟩; rfl
  error := by rintro _ _ _ _ ⟨⟩

theorem getRegs : Keeps view (getRegs : CpuM β Registers) where
  ok := by rintro _ _ _ _ ⟨⟩; rfl
  error := by rintro _ _ _ _ ⟨⟩

theorem modifyCpu {f : Cpu → Cpu} (hf : ∀ s : System β, view { s with cpu := f s.cpu } = view s) :
    Keeps view (modifyCpu f) where
  ok := by rintro _ s _ _ ⟨⟩; exact hf s
  error := by rintro _ _ _ _ ⟨⟩

theorem onBus {m : BusM β α} (hv : ∀ (s : System β) bus, view { s with bus := bus } = view s) :
    Keeps view (onBus m) where
  ok := by
    intro config s a t h
    obtain ⟨bus, -, rfl⟩ := onBus_ok.1 h
    exact hv s bus
  error := by
    intro config s e t h
    obtain ⟨bus, -, rfl⟩ := onBus_error.1 h
    exact hv s bus

theorem widening {m : CpuM β α} (width : Nat) (hm : Keeps view m) : Keeps view (widening width m) where
  ok h := hm.ok (widening_ok.1 h)
  error h := by
    obtain ⟨e', h', -⟩ := widening_error.1 h
    exact hm.error h'

theorem ite {c : Prop} [Decidable c] {m n : CpuM β α} (hm : Keeps view m) (hn : Keeps view n) :
    Keeps view (if c then m else n) := by
  split
  · exact hm
  · exact hn

end Keeps

/-- A view of the system does not look at the registers, so that what only works on them leaves it alone. -/
def IgnoresRegs (view : System β → γ) : Prop :=
  ∀ (s : System β) r, view { s with cpu := { s.cpu with regs := r } } = view s

namespace IgnoresRegs

variable {view : System β → γ}

theorem modifyRegs (h : IgnoresRegs view) (f : Registers → Registers) : Keeps view (modifyRegs f : CpuM β Unit) :=
  .modifyCpu fun s => h s (f s.cpu.regs)

theorem jump (h : IgnoresRegs view) (target : UInt32) : Keeps view (jump target : CpuM β Unit) :=
  .modifyCpu fun s => h s { s.cpu.regs with pc := Address.even target }

theorem resolve (h : IgnoresRegs view) (m : MemOperand) (width : Width) : Keeps view (resolve m width : CpuM β UInt32) :=
  Keeps.getRegs.bind fun _ => (h.modifyRegs _).bind fun _ => .pure _

theorem destinationAddress (h : IgnoresRegs view) (width : Width) (dst : Operand) :
    Keeps view (destinationAddress width dst : CpuM β (Option UInt32)) := by
  cases dst with
  | mem m => exact (h.resolve m width).map some
  | reg id => exact .pure none
  | imm value => exact .pure none

theorem advanceSource (h : IgnoresRegs view) (width : Width) (src : Operand) :
    Keeps view (advanceSource width src : CpuM β Unit) := by
  cases src with
  | mem m => exact h.modifyRegs _
  | reg id => exact .pure ()
  | imm value => exact .pure ()

end IgnoresRegs

end CpuM

end H8S
