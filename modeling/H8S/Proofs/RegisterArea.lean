import H8S.Proofs.BoardLayout
import H8S.Proofs.DeviceIsolation
import H8S.Proofs.RegisterWrites
import H8S.Proofs.WideAccesses

/-!
# The register area

On a board every address of the register area is mapped once, and what no part covers is a byte of its own: it reads as it was
last written, whichever window of the store it lies in (`Board.register_area_covered`).  All windows share one store that keeps
its bytes by the low byte of their addresses.  That is enough, as the area is shorter than 256 bytes (`Board.storeIndex_inj`).

An access puts its bytes into the store one by one, also where a word begins before a window or ends after it
(`Board.Stored.access`), and so does a sequence of accesses.
-/

namespace H8S

namespace Board

open DeviceBus

variable {δ : Type} [Device δ] {wrap : Peripheral → δ} {c : BoardConfig} {start bus bus' : DeviceBus δ} {store : Nat}
  {bytes : Vector UInt8 256}

instance (p : Part) (addr : UInt32) : Decidable (p.Covers addr) := inferInstanceAs (Decidable (_ ∧ _))

instance (c : BoardConfig) (addr : UInt32) : Decidable (Free c addr) := inferInstanceAs (Decidable (_ ∧ _ ∧ _))

/-- The devices of the host that stand for those on the chip read and write bytes as these do. -/
structure Wraps (wrap : Peripheral → δ) : Prop where
  read8 : ∀ p halted addr, Device.read8 ⟨wrap p, halted⟩ addr = (p.read8 addr, ⟨wrap p, halted⟩)
  write8 : ∀ p halted addr b, Device.write8 ⟨wrap p, halted⟩ addr b = ⟨wrap (p.write8 addr b), halted⟩

theorem wraps_id : Wraps (id : Peripheral → Peripheral) := ⟨fun _ _ _ => rfl, fun _ _ _ _ => rfl⟩

/-! ### Places of the store -/

/-- Different free addresses have different places in the store. -/
theorem storeIndex_inj {x y : UInt32} (hx : Free c x) (hy : Free c y) (h : Peripheral.storeIndex x = Peripheral.storeIndex y) :
    x = y := by
  have hlow : x.toNat % 256 = y.toNat % 256 := congrArg Fin.val h
  obtain ⟨hx₁, hx₂, -⟩ := hx
  obtain ⟨hy₁, hy₂, -⟩ := hy
  unfold registerArea at hx₁ hy₁
  unfold Address.spaceSize at hx₂ hy₂
  exact UInt32.toNat_inj.1 (by omega)

/-- The store after a byte was written to an address, if this is free. -/
def put (c : BoardConfig) (bytes : Vector UInt8 256) (w : UInt32 × UInt8) : Vector UInt8 256 :=
  if Free c w.1 then bytes.set (Peripheral.storeIndex w.1) w.2 else bytes

private theorem put_get {x : UInt32} (hx : Free c x) (bytes : Vector UInt8 256) (w : UInt32 × UInt8) :
    (put c bytes w).get (Peripheral.storeIndex x) =
      (if w.1 = x then some w.2 else none).getD (bytes.get (Peripheral.storeIndex x)) := by
  unfold put
  by_cases he : w.1 = x
  · subst he
    rw [if_pos hx, if_pos rfl]
    exact Vector.getElem_set_self _
  · rw [if_neg he]
    split
    · next hw =>
      refine Vector.getElem_set_ne _ _ fun hi => he ?_
      exact storeIndex_inj hw hx (Fin.ext hi)
    · rfl

/-! ### Accesses -/

/-- Somebody answers at an address. -/
def Answered (bus : DeviceBus δ) (addr : UInt32) : Bool := bus.isMapped addr || decide (addr.toNat < bus.memory.size)

/-- The bytes that an access writes, in their order: that of a word at the second address only if somebody answers at the
first. -/
def puts (bus : DeviceBus δ) : CoreAccess → List (UInt32 × UInt8)
  | .readByte _ => []
  | .readWord _ => []
  | .writeByte addr b => [(addr, b)]
  | .writeWord addr w => (addr, highByte w) :: if Answered bus addr then [(addressAfter addr, w.toUInt8)] else []

/-- The byte that accesses wrote to an address last; if they wrote none, zero. -/
def lastWritten (bus : DeviceBus δ) (accesses : List CoreAccess) (addr : UInt32) : UInt8 :=
  ((accesses.flatMap (puts bus)).reverse.findSome? fun w => if w.1 = addr then some w.2 else none).getD 0

/-- What reads from an address have of it is one byte, whether they read it alone or in a word. -/
structure Shows (bus : DeviceBus δ) (addr : UInt32) (b : UInt8) : Prop where
  byte : verdict (read8 addr bus) = .ok b
  high : ∀ {w : UInt16} {bus'}, read16 addr bus = .ok w bus' → highByte w = b
  low : ∀ {first : UInt32} {w : UInt16} {bus'}, addressAfter first = addr → read16 first bus = .ok w bus' → w.toUInt8 = b

/-- A bus that accesses have come to after a board was installed, and the bytes of its store. -/
structure Stored (wrap : Peripheral → δ) (start : DeviceBus δ) (store : Nat) (bytes : Vector UInt8 256) (bus : DeviceBus δ) :
    Prop where
  layout : SameLayout start bus
  busy : bus.busy = none
  stored : bus.device? store = some (wrap (.store bytes))

namespace Stored

variable {old : DeviceBus δ}

omit [Device δ] in
/-- Accesses that address nothing free leave the store alone. -/
private theorem of_confined {addressed stored : List UInt32} (hi : Installed wrap c old start store)
    (h : Stored wrap start store bytes bus) (hc : Confined addressed stored bus bus') (hfree : ∀ a ∈ addressed, ¬Free c a) :
    Stored wrap start store bytes bus' where
  layout := ⟨hc.mappings.trans h.layout.mappings, hc.count.trans h.layout.count, hc.size.trans h.layout.size⟩
  busy := hc.busy.trans h.busy
  stored := by
    refine (hc.devices store fun m hm hstore _ a ha => ?_).trans h.stored
    rw [h.layout.mappings] at hm
    refine Bool.eq_false_iff.2 fun hcontains => hfree a ha ?_
    exact (hi.windows m hm a hcontains).1 hstore

omit [Device δ] in
/-- The store is left with other bytes. -/
private theorem setStore (h : Stored wrap start store bytes bus) (bytes' : Vector UInt8 256) (halted : Bool) :
    Stored wrap start store bytes' (bus.served store ⟨wrap (.store bytes'), halted⟩) where
  layout := ⟨h.layout.mappings, by simpa [served, setDevice] using h.layout.count, h.layout.size⟩
  busy := h.busy
  stored := by
    obtain ⟨hn, -⟩ := Array.getElem?_eq_some_iff.1 h.stored
    unfold device? served setDevice
    exact Array.getElem?_setIfInBounds_self_of_lt hn

omit [Device δ] in
/-- A free address goes to the store. -/
private theorem window (hi : Installed wrap c old start store) (h : Stored wrap start store bytes bus) {addr : UInt32}
    (hf : Free c addr) : ∃ m ∈ bus.mappings, m.contains addr = true ∧ m.device = store := by
  obtain ⟨m, hm, hcontains⟩ := (hi.mapped addr).2 (.inl hf)
  exact ⟨m, h.layout.mappings ▸ hm, hcontains, (hi.windows m hm addr hcontains).2 hf⟩

omit [Device δ] in
private theorem serves (hi : Installed wrap c old start store) (h : Stored wrap start store bytes bus) {addr : UInt32}
    (hf : Free c addr) : bus.Serves addr (.device store (wrap (.store bytes))) := by
  obtain ⟨m, hm, hcontains, rfl⟩ := h.window hi hf
  exact .device hm hcontains (by simp [h.busy]) h.stored

omit [Device δ] in
private theorem wellMapped (hi : Installed wrap c old start store) (h : Stored wrap start store bytes bus) : bus.WellMapped :=
  h.layout.wellMapped hi.wellMapped

/-! ### Bytes -/

private theorem byteRead (hwrap : Wraps wrap) (hi : Installed wrap c old start store) (h : Stored wrap start store bytes bus)
    (addr : UInt32) :
    Stored wrap start store bytes (outcome (read8 addr bus)) ∧
      (Free c addr → verdict (read8 addr bus) = .ok (bytes.get (Peripheral.storeIndex addr))) := by
  by_cases hf : Free c addr
  · rw [read8_of_serves (h.wellMapped hi) (h.serves hi hf)]
    simp only [Server.read, active, hwrap.read8]
    exact ⟨h.setStore bytes _, fun _ => rfl⟩
  · have hread := Accessed.byteRead (h.wellMapped hi) addr
    exact ⟨h.of_confined hi hread.confined (by simpa using hf), fun h => absurd h hf⟩

private theorem byteWrite (hwrap : Wraps wrap) (hi : Installed wrap c old start store)
    (h : Stored wrap start store bytes bus) (addr : UInt32) (b : UInt8) :
    Stored wrap start store (put c bytes (addr, b)) (outcome (write8 addr b bus)) := by
  unfold put
  by_cases hf : Free c addr
  · rw [if_pos hf, write8_of_serves (h.wellMapped hi) (h.serves hi hf)]
    simp only [Server.write, active, hwrap.write8]
    exact h.setStore _ _
  · rw [if_neg hf]
    have hwrite := Accessed.byteWrite (h.wellMapped hi) addr b
    exact h.of_confined hi hwrite.confined (by simpa using hf)

/-! ### Accesses -/

omit [Device δ] in
private theorem answered_iff (hi : Installed wrap c old start store) (h : Stored wrap start store bytes bus) {addr : UInt32} :
    Answered start addr = true ↔ ¬bus.Serves addr .nobody := by
  unfold Answered isMapped
  rw [h.layout.nobody, serves_nobody, not_and_or, Nat.not_le, ← hi.wellMapped.mapping?_eq_none_iff, Bool.or_eq_true,
    decide_eq_true_eq, ← ne_eq, Option.ne_none_iff_isSome]

/-- An access ends exactly if somebody answers at each of its addresses. -/
private theorem access_ok_iff (hi : Installed wrap c old start store) (h : Stored wrap start store bytes bus) (a : CoreAccess) :
    (∃ bus', access a bus = .ok () bus') ↔ ∀ x ∈ a.addresses, Answered start x = true := by
  have hacc := (h.wellMapped hi).accessed a
  simp only [h.answered_iff hi]
  cases hr : access a bus with
  | ok _ bus' => exact iff_of_true ⟨bus', rfl⟩ (hacc.ok hr)
  | error e bus' =>
    obtain ⟨x, hx, hnobody, -⟩ := hacc.error hr
    exact iff_of_false (by rintro ⟨_, ⟨⟩⟩) fun hall => hall x hx hnobody

omit [Device δ] in
/-- What holds after each of two actions in turn, or after the first if it fails. -/
private theorem outcome_bind {α γ : Type} {m : BusM (DeviceBus δ) α} {f : α → BusM (DeviceBus δ) γ} {P : DeviceBus δ → Prop}
    (hok : ∀ a bus', m bus = .ok a bus' → P (outcome (f a bus'))) (herror : ∀ e bus', m bus = .error e bus' → P bus') :
    P (outcome ((m >>= f : BusM (DeviceBus δ) γ) bus)) := by
  cases hr : m bus with
  | ok a bus' =>
    rw [BusM.bind_of_ok hr]
    exact hok a bus' hr
  | error e bus' =>
    rw [BusM.bind_error.2 (.inl hr)]
    exact herror e bus' hr

private theorem wordRead (hδ : Device.Bytewise δ) (hwrap : Wraps wrap) (hi : Installed wrap c old start store)
    (h : Stored wrap start store bytes bus) (addr : UInt32) : Stored wrap start store bytes (outcome (read16 addr bus)) := by
  have hword : (read16 addr : BusM (DeviceBus δ) UInt16) =
      read8 addr >>= fun hi => read8 (addressAfter addr) >>= fun lo => pure (wordOf hi lo) := (bytewise hδ).read16 addr
  have hread : ∀ {bus : DeviceBus δ}, Stored wrap start store bytes bus → ∀ addr,
      (∀ b bus', read8 addr bus = .ok b bus' → Stored wrap start store bytes bus') ∧
        ∀ e bus', read8 addr bus = .error e bus' → Stored wrap start store bytes bus' := by
    intro bus h addr
    have hstored := (h.byteRead hwrap hi addr).1
    exact ⟨fun b bus' hr => by rwa [hr] at hstored, fun e bus' hr => by rwa [hr] at hstored⟩
  rw [hword]
  refine outcome_bind (fun hi' bus₁ hr => ?_) (hread h addr).2
  have h₁ := (hread h addr).1 hi' bus₁ hr
  exact outcome_bind (hread h₁ (addressAfter addr)).1 (hread h₁ (addressAfter addr)).2

private theorem wordWrite (hδ : Device.Bytewise δ) (hwrap : Wraps wrap) (hi : Installed wrap c old start store)
    (h : Stored wrap start store bytes bus) (addr : UInt32) (w : UInt16) :
    Stored wrap start store ((puts start (.writeWord addr w)).foldl (put c) bytes) (outcome (write16 addr w bus)) := by
  have hword : (write16 addr w : BusM (DeviceBus δ) Unit) =
      write8 addr (highByte w) >>= fun _ => write8 (addressAfter addr) w.toUInt8 := (bytewise hδ).write16 addr w
  have hanswered : (∃ bus', write8 addr (highByte w) bus = .ok () bus') ↔ Answered start addr = true :=
    (h.access_ok_iff hi (.writeByte addr (highByte w))).trans List.forall_mem_singleton
  have h₁ := h.byteWrite hwrap hi addr (highByte w)
  rw [hword]
  refine outcome_bind (fun _ bus₁ hr => ?_) fun e bus₁ hr => ?_
  · rw [hr] at h₁
    rw [puts, if_pos (hanswered.1 ⟨bus₁, hr⟩)]
    have hfirst : Stored wrap start store (put c bytes (addr, highByte w)) bus₁ := h₁
    exact hfirst.byteWrite hwrap hi (addressAfter addr) w.toUInt8
  · have hno : ¬Answered start addr = true := fun hyes => by
      obtain ⟨_, hok⟩ := hanswered.2 hyes
      rw [hr] at hok
      cases hok
    rw [hr] at h₁
    rw [puts, if_neg hno]
    exact h₁

theorem access (hδ : Device.Bytewise δ) (hwrap : Wraps wrap) (hi : Installed wrap c old start store)
    (h : Stored wrap start store bytes bus) (a : CoreAccess) :
    Stored wrap start store ((puts start a).foldl (put c) bytes) (outcome (access a bus)) := by
  have houtcome : ∀ {α : Type} (m : BusM (DeviceBus δ) α),
      outcome (((fun _ => ()) <$> m : BusM _ Unit) bus) = outcome (m bus) := by
    intro α m
    show outcome (EStateM.map _ m bus) = _
    unfold EStateM.map
    cases m bus <;> rfl
  cases a with
  | readByte addr =>
    rw [DeviceBus.access, houtcome]
    exact (h.byteRead hwrap hi addr).1
  | readWord addr =>
    rw [DeviceBus.access, houtcome]
    exact h.wordRead hδ hwrap hi addr
  | writeByte addr b => exact h.byteWrite hwrap hi addr b
  | writeWord addr w => exact h.wordWrite hδ hwrap hi addr w

theorem accesses (hδ : Device.Bytewise δ) (hwrap : Wraps wrap) (hi : Installed wrap c old start store)
    (h : Stored wrap start store bytes bus) (as : List CoreAccess) :
    Stored wrap start store ((as.flatMap (puts start)).foldl (put c) bytes)
      (as.foldl (fun bus a => outcome (DeviceBus.access a bus)) bus) := by
  induction as generalizing bus bytes with
  | nil => exact h
  | cons a as ih =>
    rw [List.flatMap_cons, List.foldl_append]
    exact ih (h.access hδ hwrap hi a)

/-- A word is read byte by byte. -/
private theorem read16_ok (hδ : Device.Bytewise δ) {first : UInt32} {w : UInt16} (h : read16 first bus = .ok w bus') :
    ∃ mid, read8 first bus = .ok (highByte w) mid ∧ read8 (addressAfter first) mid = .ok w.toUInt8 bus' := by
  have hword : (read16 first : BusM (DeviceBus δ) UInt16) =
      read8 first >>= fun hi => read8 (addressAfter first) >>= fun lo => pure (wordOf hi lo) := (bytewise hδ).read16 first
  rw [hword] at h
  obtain ⟨hi, mid, h₁, h⟩ := BusM.bind_ok.1 h
  obtain ⟨lo, _, h₂, ⟨⟩⟩ := BusM.bind_ok.1 h
  have hbytes : [hi, lo] = [highByte (wordOf hi lo), (wordOf hi lo).toUInt8] :=
    (bigEndian_eq_word rfl).1 (bigEndian_pair hi lo)
  simp only [List.cons.injEq, and_true] at hbytes
  exact ⟨mid, hbytes.1 ▸ h₁, hbytes.2 ▸ h₂⟩

/-- A free address shows its byte of the store, in bytes and in words. -/
private theorem shows (hδ : Device.Bytewise δ) (hwrap : Wraps wrap) (hi : Installed wrap c old start store)
    (h : Stored wrap start store bytes bus) {addr : UInt32} (hf : Free c addr) :
    Shows bus addr (bytes.get (Peripheral.storeIndex addr)) := by
  have hread : ∀ {bus bus' : DeviceBus δ} {b : UInt8}, Stored wrap start store bytes bus → read8 addr bus = .ok b bus' →
      b = bytes.get (Peripheral.storeIndex addr) := by
    intro bus bus' b h hr
    have hv := (h.byteRead hwrap hi addr).2 hf
    rw [hr] at hv
    exact Except.ok.inj hv
  refine ⟨(h.byteRead hwrap hi addr).2 hf, fun hr => ?_, fun {first _ _} he hr => ?_⟩
  · obtain ⟨bus₁, h₁, -⟩ := read16_ok hδ hr
    exact hread h h₁
  · obtain ⟨bus₁, h₁, h₂⟩ := read16_ok hδ hr
    have hfirst := (h.byteRead hwrap hi first).1
    rw [h₁] at hfirst
    have hs : Stored wrap start store bytes bus₁ := hfirst
    exact hread hs (he ▸ h₂)

end Stored

/-! ### The area -/

/-- Of ranges apart from each other only one holds an address. -/
private theorem countP_contains {ms : List Mapping} (hapart : ms.Pairwise Mapping.Apart) {addr : UInt32}
    (hex : ∃ m ∈ ms, m.contains addr = true) : ms.countP (·.contains addr) = 1 := by
  induction ms with
  | nil => simp at hex
  | cons x xs ih =>
    obtain ⟨hx, hxs⟩ := List.pairwise_cons.1 hapart
    by_cases hc : x.contains addr = true
    · have hnone : xs.countP (·.contains addr) = 0 := List.countP_eq_zero.2 fun m hm hcm => hx m hm addr ⟨hc, hcm⟩
      rw [List.countP_cons, hnone, if_pos hc]
    · obtain ⟨m, hm, hcm⟩ := hex
      rw [List.countP_cons, if_neg hc]
      rcases List.mem_cons.1 hm with rfl | hm
      · exact absurd hcm hc
      · exact ih hxs ⟨m, hm, hcm⟩

/-- A board can be installed on a bus without devices exactly if its holes are not empty, end with the address space at the
latest, and meet neither its devices nor each other: the windows of the store are never in the way.  Then every address of the
register area is mapped once, an address below only by a hole, and what the parts leave free of the area are independent bytes,
zero at first: whatever was read and written, where somebody answers and where nobody does, a free address shows the byte that
was written to it last. -/
theorem register_area_covered (hδ : Device.Bytewise δ) (hwrap : Wraps wrap) {bus : DeviceBus δ} (hbus : bus.Reachable)
    (hempty : bus.mappings = []) (c : BoardConfig) :
    ((∃ board bus', install wrap c bus = .ok board bus') ↔ Admissible c) ∧
    ∀ board bus', install wrap c bus = .ok board bus' →
      (∀ addr : UInt32, registerArea ≤ addr.toNat → addr.toNat < Address.spaceSize →
        bus'.mappings.countP (·.contains addr) = 1) ∧
      (∀ addr : UInt32, addr.toNat < registerArea → (bus'.isMapped addr = true ↔ ∃ p ∈ holeParts c, p.Covers addr)) ∧
      ∀ (accesses : List CoreAccess) (last : DeviceBus δ),
        last = accesses.foldl (fun bus a => outcome (access a bus)) bus' →
        (∀ a, (∃ next, access a last = .ok () next) ↔ ∀ x ∈ a.addresses, Answered bus' x = true) ∧
        ∀ addr, Free c addr → Shows last addr (lastWritten bus' accesses addr) := by
  obtain ⟨hw, hbusy⟩ := hbus.idle
  refine ⟨exists_installed_iff hw hempty c, fun board bus' h => ?_⟩
  obtain ⟨store, hi⟩ := install_ok hw hempty h
  have hmapped : ∀ addr, bus'.isMapped addr = true ↔ ∃ m ∈ bus'.mappings, m.contains addr = true := by
    intro addr
    unfold isMapped
    simp only [Option.isSome_iff_exists, hi.wellMapped.mapping?_eq_some_iff]
  refine ⟨fun addr hlo hhi => countP_contains hi.wellMapped.apart ((hi.mapped addr).2 ?_), fun addr hlt => ?_, ?_⟩
  · by_cases hcovered : ∃ p ∈ parts c, p.Covers addr
    · exact .inr hcovered
    · exact .inl ⟨hlo, hhi, fun p hp hcovers => hcovered ⟨p, hp, hcovers⟩⟩
  · rw [hmapped, hi.mapped, covered_below_iff hlt]
    exact or_iff_right fun hf => Nat.not_le.2 hlt hf.1
  · rintro accesses _ rfl
    have hstart : Stored wrap bus' store (Vector.replicate 256 0) bus' := ⟨⟨rfl, rfl, rfl⟩, hi.busy.trans hbusy, hi.stored⟩
    have hlast := hstart.accesses hδ hwrap hi accesses
    refine ⟨hlast.access_ok_iff hi, fun addr hf => ?_⟩
    have hcell := foldl_last (fun bytes : Vector UInt8 256 => bytes.get (Peripheral.storeIndex addr)) (put_get hf)
      (Vector.replicate 256 0) (accesses.flatMap (puts bus'))
    have hzero : (Vector.replicate 256 0 : Vector UInt8 256).get (Peripheral.storeIndex addr) = 0 := Vector.getElem_replicate _
    have hshown := hlast.shows hδ hwrap hi hf
    rw [hcell, hzero] at hshown
    exact hshown

/-- A board with a hole that begins before the register area and ends where the DMA controller begins. -/
def straddling : BoardConfig := { holes := [(0xFFFF10, 0x10)] }

/-- The hole can be mapped.  Of a word that is written before the enable register the store keeps the first byte, and other
windows keep their zeros. -/
theorem register_area_covered_straddling :
    Device.Bytewise Peripheral ∧ Wraps (id : Peripheral → Peripheral) ∧
      Reachable ({ memory := { size := 0 } } : DeviceBus Peripheral) ∧
      ∃ board bus', install id straddling ({ memory := { size := 0 } } : DeviceBus Peripheral) = .ok board bus' ∧
        bus'.isMapped 0xFFFF10 = true ∧ bus'.isMapped 0xFFFF0F = false ∧
        Shows (outcome (access (.writeWord 0xFFFFF4 0xABCD) bus')) 0xFFFFF4 0xAB ∧
        Shows (outcome (access (.writeWord 0xFFFFF4 0xABCD) bus')) 0xFFFFC0 0 := by
  have hbus : Reachable ({ memory := { size := 0 } } : DeviceBus Peripheral) := .new _
  obtain ⟨hiff, hrest⟩ := register_area_covered ChipDevice.bytewise wraps_id hbus rfl straddling
  have hend : ∀ q ∈ fixedParts straddling, 0xFFFF20 ≤ q.base.toNat := by decide
  have hadmissible : Admissible straddling := by
    refine ⟨by decide, by decide, fun p hp q hq addr hboth => ?_, List.pairwise_singleton ..⟩
    obtain rfl : p = ⟨0xFFFF10, 0x10, .hole⟩ := List.mem_singleton.1 hp
    have hlo := hend q hq
    have hge := hboth.2.1
    have hlt : addr.toNat < 0xFFFF20 := hboth.1.2
    omega
  obtain ⟨board, bus', hok⟩ := hiff.2 hadmissible
  obtain ⟨-, hbelow, haccesses⟩ := hrest board bus' hok
  have hcells := (haccesses [.writeWord 0xFFFFF4 0xABCD] _ rfl).2
  have hlast : lastWritten bus' [.writeWord 0xFFFFF4 0xABCD] 0xFFFFF4 = 0xAB ∧
      lastWritten bus' [.writeWord 0xFFFFF4 0xABCD] 0xFFFFC0 = 0 := by
    unfold lastWritten
    simp only [List.flatMap_singleton, puts]
    split <;> decide
  refine ⟨ChipDevice.bytewise, wraps_id, hbus, board, bus', hok, (hbelow 0xFFFF10 (by decide)).2 (by decide), ?_, ?_, ?_⟩
  · exact Bool.eq_false_iff.2 fun h => absurd ((hbelow 0xFFFF0F (by decide)).1 h) (by decide)
  · exact hlast.1 ▸ hcells 0xFFFFF4 (by decide)
  · exact hlast.2 ▸ hcells 0xFFFFC0 (by decide)

end Board

end H8S
