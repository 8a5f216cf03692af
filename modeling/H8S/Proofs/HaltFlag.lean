import H8S.Instrument
import H8S.Proofs.MachineRuns

/-!
# Devices that leave the halt flag clear

A device that holds a handle of its machine may set the halt flag in any access to it and whenever it is ticked.  A kind of
devices, which is a property of their states, is quiet if none of them does: an access finds the flag clear and leaves it
clear, with a device of the same kind (`Device.Quiet`), and so do the programs of ticks, whatever the bus answers to them
(`TickProgram.Quiet`).  If all devices of a machine are of such a kind, its halt flag stays clear in every step
(`MachineM.step_running`) and in every tick (`MachineM.tickDevices_running`).  The devices on the chip are quiet, and so are
instruments until they are ticked.
-/

namespace H8S

variable {δ : Type} {Q : δ → Prop}

/-! ### Quiet devices -/

/-- A device of a kind is at work, and the halt flag is clear. -/
structure Active.Running (Q : δ → Prop) (d : Active δ) : Prop where
  kind : Q d.device
  clear : d.halted = false

/-- Accesses to devices of a kind leave the halt flag clear, and devices of this kind. -/
structure Device.Quiet [Device δ] (Q : δ → Prop) : Prop where
  read8 : ∀ {d : Active δ} addr, d.Running Q → (Device.read8 d addr).2.Running Q
  write8 : ∀ {d : Active δ} addr value, d.Running Q → (Device.write8 d addr value).Running Q
  read16 : ∀ {d : Active δ} addr, d.Running Q → (Device.read16 d addr).2.Running Q
  write16 : ∀ {d : Active δ} addr value, d.Running Q → (Device.write16 d addr value).Running Q

/-- Whatever the bus answers, a program leaves the halt flag clear, and it ends with a device of a kind. -/
def TickProgram.Quiet (Q : δ → Prop) : TickProgram δ → Prop
  | .ends d _ => Q d
  | .read8 _ next => ∀ answer, (next answer).Quiet Q
  | .write8 _ _ next => ∀ answer, (next answer).Quiet Q
  | .raise _ next => next.Quiet Q
  | .isHalted next => (next false).Quiet Q
  | .setHalted halted next => halted = false ∧ next.Quiet Q

theorem TickProgram.quiet_requesting {d : δ} {last : TickProgram δ} (hd : Q d) (hlast : last.Quiet Q)
    (requests : List TickRequest) : (TickProgram.requesting d requests last).Quiet Q := by
  induction requests with
  | nil => exact hlast
  | cons request requests ih =>
    cases request with
    | interrupt n => exact ih
    | copy src dst =>
      rintro (e | b)
      · exact hd
      · rintro (e | _)
        · exact hd
        · exact ih

section Chip

variable [ChipDevice δ]

/-- The devices on the chip hold no handle. -/
theorem ChipDevice.quiet : Device.Quiet fun _ : δ => True where
  read8 _ h := h
  write8 _ _ h := ⟨trivial, h.clear⟩
  read16 _ h := h
  write16 _ _ h := ⟨trivial, h.clear⟩

theorem ChipDevice.tick_quiet (d : δ) (now : UInt64) : (Device.tick d now).Quiet fun _ => True := by
  refine TickProgram.quiet_requesting ?_ ?_ _
  · trivial
  · trivial

end Chip

/-- Instruments use no handle when they are accessed. -/
theorem Instrumented.quiet : Device.Quiet fun _ : Instrumented => True where
  read8 _ h := ⟨trivial, h.clear⟩
  write8 _ _ h := ⟨trivial, h.clear⟩
  read16 _ h := ⟨trivial, h.clear⟩
  write16 _ _ h := ⟨trivial, h.clear⟩

/-! ### The halt flag of a bus -/

namespace DeviceBus

/-- The halt flag is clear, and all devices are of a kind. -/
structure Running (Q : δ → Prop) (bus : DeviceBus δ) : Prop where
  clear : bus.halted = false
  kind : ∀ n d, bus.device? n = some d → Q d

namespace Running

variable {bus : DeviceBus δ} {m : Mapping}

private theorem setDevice (h : bus.Running Q) (n : Nat) {d : δ} (hd : Q d) : (bus.setDevice n d).Running Q where
  clear := h.clear
  kind k e he := by
    simp only [device?, DeviceBus.setDevice, Array.getElem?_setIfInBounds] at he
    split at he
    · split at he
      · cases he
        exact hd
      · cases he
    · exact h.kind k e he

private theorem served (h : bus.Running Q) (n : Nat) {d : Active δ} (hd : d.Running Q) : (bus.served n d).Running Q :=
  ⟨hd.clear, (h.setDevice n hd.kind).kind⟩

private theorem serving (h : bus.Running Q) {d : Active δ} (hs : bus.serving? m = some d) : d.Running Q := by
  unfold serving? at hs
  split at hs
  · cases hs
  · obtain ⟨e, he, rfl⟩ := Option.map_eq_some_iff.1 hs
    exact ⟨h.kind _ e he, h.clear⟩

end Running

variable [Device δ] (hquiet : Device.Quiet Q)
include hquiet

private theorem steady_running : Steady (Running Q : DeviceBus δ → Prop) where
  store _ _ h := ⟨h.clear, h.kind⟩
  read8 addr hs h := h.served _ (hquiet.read8 addr (h.serving hs))
  write8 addr value hs h := h.served _ (hquiet.write8 addr value (h.serving hs))
  read16 addr hs h := h.served _ (hquiet.read16 addr (h.serving hs))
  write16 addr value hs h := h.served _ (hquiet.write16 addr value (h.serving hs))

private theorem running_invariant (config : Config) :
    CpuM.Invariant config fun _ (bus : DeviceBus δ) => bus.Running Q where
  acknowledge _ h := h
  read8 _ _ := (steady_running hquiet).byteRead _
  write8 _ value _ := (steady_running hquiet).byteWrite _ value
  read16 _ _ := (steady_running hquiet).wordRead _
  write16 _ value _ := (steady_running hquiet).wordWrite _ value

private theorem perform_running (m : Mapping) {program : TickProgram δ} (hp : program.Quiet Q) (raised : InterruptSet)
    {bus : DeviceBus δ} (h : bus.Running Q) : (outcome (perform m program raised bus)).Running Q := by
  induction program generalizing bus raised with
  | ends d result =>
    have hback : (bus.reopened m d).Running Q := ⟨h.clear, (h.setDevice m.device hp).kind⟩
    cases result with
    | ok => exact hback
    | error e => exact hback
  | read8 addr next ih => exact ih _ (hp _) raised (((steady_running hquiet).byteRead addr).outcome h)
  | write8 addr value next ih => exact ih _ (hp _) raised (((steady_running hquiet).byteWrite addr value).outcome h)
  | raise n next ih => exact ih hp _ h
  | isHalted next ih =>
    have hfound : (next bus.halted).Quiet Q := h.clear ▸ hp
    exact ih _ hfound raised h
  | setHalted halted next ih => exact ih hp.2 raised ⟨hp.1, h.kind⟩

theorem tick_running (hticks : ∀ d now, Q d → (Device.tick d now).Quiet Q) (now : UInt64) :
    BusM.Preserves (Running Q) (tick now : BusM (DeviceBus δ) InterruptSet) :=
  tick_preserves fun h hd => perform_running hquiet _ (hticks _ now (h.kind _ _ hd)) {} ⟨h.clear, h.kind⟩

end DeviceBus

/-! ### The halt flag of a machine -/

namespace MachineM

variable {m t : Machine δ} [Device δ] (hquiet : Device.Quiet Q)
include hquiet

/-- A step leaves the halt flag clear if no device sets it when it is accessed. -/
theorem step_running {c : UInt32} (h : step m = .ok c t) (hm : m.bus.Running Q) : t.bus.Running Q :=
  (DeviceBus.running_invariant hquiet m.config).step_upholds (fun _ _ _ _ hb => hb) hm (.inl ⟨c, step_runs h⟩)

private theorem raises_running {ns : List UInt8} (h : (ns.forM raise : MachineM δ Unit) m = .ok () t)
    (hm : m.bus.Running Q) : t.bus.Running Q := by
  induction ns generalizing m with
  | nil =>
    cases h
    exact hm
  | cons n ns ih =>
    obtain ⟨_, v, h₁, h₂⟩ := BusM.bind_ok.1 h
    have raised := (DeviceBus.running_invariant hquiet m.config).raise_upholds (n := n) (fun hb => hb)
    exact ih h₂ (raised.leads hm (.inl ⟨(), (recording_ok h₁).1⟩))

/-- A tick leaves the halt flag clear if no device sets it when it is accessed or ticked. -/
theorem tickDevices_running (hticks : ∀ d now, Q d → (Device.tick d now).Quiet Q) (h : tickDevices m = .ok () t)
    (hm : m.bus.Running Q) : t.bus.Running Q := by
  obtain ⟨raised, bus, v, hbus, hv, hraise⟩ := tickDevices_ok h
  have hticked : bus.Running Q := (DeviceBus.tick_running hquiet hticks _).ok hm hbus
  refine raises_running hquiet hraise ?_
  show v.system.bus.Running Q
  rw [hv]
  exact hticked

end MachineM

end H8S
