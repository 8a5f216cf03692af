import H8S.Proofs.BusInvariants

/-!
# Views of a bus

What the accesses of a bus leave alone, the core leaves alone too: it works on its bus only by accesses.
`Bus.Kept view` says that a view of the bus is the same after every access, and `Bus.KeptByReads view` that it is the
same after reads.  Both are carried from single accesses to fetches, and to whole steps, requests and boots, whether they
end or fail; for steps a view that is kept is an invariant (`CpuM.Invariant`).
-/

namespace H8S

variable {β α γ δ : Type}

/-! ### Actions on the bus -/

/-- Whatever comes of an action on the bus, a view of the bus is as before. -/
structure BusM.Keeps (view : β → δ) (m : BusM β α) : Prop where
  ok : ∀ {bus a bus'}, m bus = .ok a bus' → view bus' = view bus
  error : ∀ {bus e bus'}, m bus = .error e bus' → view bus' = view bus

namespace BusM.Keeps

variable {view : β → δ}

/-- What a view shows is an invariant. -/
theorem of_preserves {m : BusM β α} (hm : ∀ shown, BusM.Preserves (view · = shown) m) : BusM.Keeps view m where
  ok hr := (hm _).ok rfl hr
  error hr := (hm _).error rfl hr

theorem pure (a : α) : BusM.Keeps view (pure a : BusM β α) where
  ok := by rintro _ _ _ ⟨⟩; rfl
  error := by rintro _ _ _ ⟨⟩

theorem bind {m : BusM β α} {f : α → BusM β γ} (hm : BusM.Keeps view m) (hf : ∀ a, BusM.Keeps view (f a)) :
    BusM.Keeps view (m >>= f : BusM β γ) where
  ok := by
    intro bus c bus' h
    obtain ⟨a, next, h₁, h₂⟩ := BusM.bind_ok.1 h
    rw [(hf a).ok h₂, hm.ok h₁]
  error := by
    intro bus e bus' h
    rcases BusM.bind_error.1 h with h | ⟨a, next, h₁, h₂⟩
    · exact hm.error h
    · rw [(hf a).error h₂, hm.ok h₁]

end BusM.Keeps

/-- Reads leave a view of the bus alone. -/
structure Bus.KeptByReads [Bus β] (view : β → δ) : Prop where
  read8 : ∀ addr, BusM.Keeps view (Bus.read8 addr)
  read16 : ∀ addr, BusM.Keeps view (Bus.read16 addr)

/-- All accesses leave a view of the bus alone. -/
structure Bus.Kept [Bus β] (view : β → δ) : Prop extends Bus.KeptByReads view where
  write8 : ∀ addr value, BusM.Keeps view (Bus.write8 addr value)
  write16 : ∀ addr value, BusM.Keeps view (Bus.write16 addr value)

namespace CpuM

/-- A view of the bus as a view of the system. -/
def busView (view : β → δ) (s : System β) : δ := view s.bus

variable {view : β → δ}

theorem Keeps.ofBus {m : BusM β α} (hm : BusM.Keeps view m) : Keeps (busView view) (CpuM.onBus m : CpuM β α) where
  ok h := by
    obtain ⟨bus, hb, rfl⟩ := onBus_ok.1 h
    exact hm.ok hb
  error h := by
    obtain ⟨bus, hb, rfl⟩ := onBus_error.1 h
    exact hm.error hb

theorem Keeps.ofCpu (f : Cpu → Cpu) : Keeps (busView view) (CpuM.modifyCpu f : CpuM β Unit) :=
  .modifyCpu fun _ => rfl

variable [Bus β] {config : Config} {s t : System β} {start : UInt32} {bytes : List UInt8}

/-! ### Reads -/

section Reads

variable (h : Bus.KeptByReads view)
include h

private theorem load8_keepsBus (addr : UInt32) : Keeps (busView view) (load8 addr : CpuM β UInt8) := by
  refine .bind .readConfig fun config => .ite ?_ ?_
  · exact .bind .get fun s => .pure _
  · exact .ofBus (h.read8 addr)

theorem read8_keepsBus (addr : UInt32) : Keeps (busView view) (read8 addr : CpuM β UInt8) :=
  .bind (.ofCpu _) fun _ => load8_keepsBus h addr

theorem read16_keepsBus (addr : UInt32) : Keeps (busView view) (read16 addr : CpuM β UInt16) := by
  refine .bind (.ofCpu _) fun _ => .bind (.ofCpu _) fun _ => .bind .readConfig fun config => .ite ?_ ?_
  · exact (load8_keepsBus h addr).bind fun hi => (load8_keepsBus h (addr + 1)).bind fun lo => .pure _
  · exact .widening 16 (.ofBus (h.read16 addr))

theorem read32_keepsBus (addr : UInt32) : Keeps (busView view) (read32 addr : CpuM β UInt32) :=
  .widening 32 <| (read16_keepsBus h addr).bind fun _ => (read16_keepsBus h (addr + 2)).bind fun _ => .pure _

theorem Fetches.busView (hf : Fetches config s start bytes t) : view t.bus = view s.bus := by
  induction hf with
  | nil => rfl
  | snoc b bus hf ha ih => exact ((read8_keepsBus h _).ok (read8_ok.2 ⟨bus, ha, rfl⟩)).trans ih

/-- Each byte of a fetch was answered, by a bus whose view was the same. -/
theorem Fetches.answers (hf : Fetches config s start bytes t) (k : Nat) (hk : k < bytes.length) :
    ∃ v b bus, Answers config v (start + k.toUInt32) b bus ∧ view v.bus = view s.bus := by
  induction hf with
  | nil => cases hk
  | @snoc bytes t b bus hf ha ih =>
    -- the byte is one of those before, or the last
    by_cases hlt : k < bytes.length
    · exact ih hlt
    · have hk' : k = bytes.length := by
        rw [List.length_append, List.length_singleton] at hk
        omega
      rw [hk']
      exact ⟨t, b, bus, ha, hf.busView h⟩

end Reads

/-! ### All accesses -/

section Accesses

variable (h : Bus.Kept view)
include h

omit [Bus β] h in
private theorem preserves_shown {shown : δ} {m : BusM β α} (hm : BusM.Keeps view m) :
    BusM.Preserves (fun bus => view bus = shown) m where
  ok hv hr := (hm.ok hr).trans hv
  error hv hr := (hm.error hr).trans hv

/-- What a view shows is an invariant of the bus. -/
private theorem kept_invariant (shown : δ) : Invariant config fun _ bus => view bus = shown where
  acknowledge _ hv := hv
  read8 {addr} _ _ := preserves_shown (h.read8 addr)
  write8 {addr} _ value _ := preserves_shown (h.write8 addr value)
  read16 {addr} _ _ := preserves_shown (h.read16 addr)
  write16 {addr} _ value _ := preserves_shown (h.write16 addr value)

/-- A step changes the bus only by accesses. -/
theorem step_keepsBus : Keeps (CpuM.busView view) (step : CpuM β UInt32) where
  ok {_ s c _} hs := (kept_invariant h (view s.bus)).step_upholds (fun _ _ _ _ hv => hv) rfl (.inl ⟨c, hs⟩)
  error {_ s e _} hs := (kept_invariant h (view s.bus)).step_upholds (fun _ _ _ _ hv => hv) rfl (.inr ⟨e, hs⟩)

theorem raise_keepsBus (n : UInt8) : Keeps (CpuM.busView view) (raise n : CpuM β Unit) :=
  .raise (read8_keepsBus h.toKeptByReads) (fun _ _ => rfl) n

theorem boot_keepsBus : Keeps (CpuM.busView view) (boot : CpuM β Unit) :=
  (Keeps.ofCpu _).bind fun _ => Keeps.readConfig.bind fun config =>
    (read32_keepsBus h.toKeptByReads config.vectorBase).bind fun _ => Keeps.ofCpu _

end Accesses

end CpuM

end H8S
