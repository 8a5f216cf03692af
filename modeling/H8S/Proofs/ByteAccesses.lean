import H8S.Proofs.WideAccesses

/-!
# Byte accesses

The core pays for memory by the byte, and what it pays depends on the bytes before.  `AccessTimer.cost` is the price of a
list of byte accesses made one after the other, and `AccessTimer.after` the timer that they leave.

A list of byte accesses can also be seen on the bus, if the bus keeps one: `Bus.Notes view` says that an access to the bus
adds its bytes to what `view` shows, and a word, which travels in one piece, both of them.  `Accounts config made own s t`
joins the two: from `s` to `t` the cycle counter has grown by the price of the bytes in `made` and by `own` cycles inside the
core, the timer is the one that they leave, and on every bus that keeps a list they were put to the bus in this order, all
but those at the status register.  Accounts add up (`Accounts.trans`), and `Accounted bound m` says that every run of an
action that ends has an account, with so many bytes at most.
-/

namespace H8S

namespace BusAccess

def addr : BusAccess → UInt32
  | read addr => addr
  | write addr _ => addr

def direction : BusAccess → Direction
  | read _ => .read
  | write _ _ => .write

end BusAccess

/-! ### Prices -/

namespace AccessTimer

theorem charge_le (t : AccessTimer) (direction : Direction) (addr : UInt32) : (t.charge direction addr).1.toNat ≤ 3 := by
  have hcost : ∀ kind : AccessClass, kind.cycles.toNat ≤ 3 := by
    intro kind
    cases kind <;> decide
  unfold charge
  dsimp only
  split
  · dsimp only
    split
    · decide
    · exact hcost _
  · exact hcost _

/-- The second byte of a word lies at an odd address. -/
theorem follows_odd {last : Option UInt32} {addr : UInt32} (h : follows last addr = true) : addr.toNat % 2 = 1 := by
  cases last with
  | none => cases h
  | some previous =>
    simp only [follows, Bool.and_eq_true, beq_iff_eq] at h
    have hbit : (previous.toNat ||| 1).testBit 0 = true := by simp
    rw [h.2]
    exact of_decide_eq_true (Nat.testBit_zero _ ▸ hbit)

/-- Only the second byte of a word is free. -/
theorem charge_pos (t : AccessTimer) (direction : Direction) {addr : UInt32} (h : addr.toNat % 2 = 0) :
    1 ≤ (t.charge direction addr).1.toNat := by
  have hcost : ∀ kind : AccessClass, 1 ≤ kind.cycles.toNat := by
    intro kind
    cases kind <;> decide
  have hfollows : ¬follows (t.last direction) addr = true := fun hf => by
    have hodd := follows_odd hf
    omega
  simp only [charge, if_neg hfollows]
  split <;> exact hcost _

/-- What byte accesses cost in their order. -/
def cost (t : AccessTimer) : List BusAccess → Nat
  | [] => 0
  | a :: made => (t.charge a.direction a.addr).1.toNat + (t.charge a.direction a.addr).2.cost made

/-- The timer after byte accesses. -/
def after (t : AccessTimer) : List BusAccess → AccessTimer
  | [] => t
  | a :: made => (t.charge a.direction a.addr).2.after made

theorem after_append (t : AccessTimer) (made made' : List BusAccess) :
    t.after (made ++ made') = (t.after made).after made' := by
  induction made generalizing t with
  | nil => rfl
  | cons a made ih => exact ih _

/-- Later accesses are paid for as those before them left the timer. -/
theorem cost_append (t : AccessTimer) (made made' : List BusAccess) :
    t.cost (made ++ made') = t.cost made + (t.after made).cost made' := by
  induction made generalizing t with
  | nil => exact (Nat.zero_add _).symm
  | cons a made ih =>
    rw [List.cons_append, cost, cost, ih, Nat.add_assoc]
    rfl

theorem cost_le (t : AccessTimer) (made : List BusAccess) : t.cost made ≤ 3 * made.length := by
  induction made generalizing t with
  | nil => exact Nat.zero_le _
  | cons a made ih =>
    have hfirst := t.charge_le a.direction a.addr
    have hrest := ih (t.charge a.direction a.addr).2
    rw [cost, List.length_cons]
    omega

end AccessTimer

/-! ### Buses that keep a list -/

section Notes

variable {β α γ : Type} {view : β → List BusAccess} {made made' : List BusAccess}

/-- An action on the bus adds byte accesses to what a view of the bus shows: all of them if it ends, and the first of them if
it fails. -/
structure BusM.Notes (view : β → List BusAccess) (made : List BusAccess) (m : BusM β α) : Prop where
  ok : ∀ {bus a bus'}, m bus = .ok a bus' → view bus' = view bus ++ made
  error : ∀ {bus e bus'}, m bus = .error e bus' → ∃ first, first <+: made ∧ view bus' = view bus ++ first

theorem BusM.Notes.bind {m : BusM β α} {f : α → BusM β γ} (hm : BusM.Notes view made m)
    (hf : ∀ a, BusM.Notes view made' (f a)) : BusM.Notes view (made ++ made') (m >>= f : BusM β γ) where
  ok := by
    intro bus c bus' h
    obtain ⟨a, next, h₁, h₂⟩ := BusM.bind_ok.1 h
    rw [(hf a).ok h₂, hm.ok h₁, List.append_assoc]
  error := by
    intro bus e bus' h
    rcases BusM.bind_error.1 h with h | ⟨a, next, h₁, h₂⟩
    · obtain ⟨first, hf, hv⟩ := hm.error h
      exact ⟨first, hf.trans (List.prefix_append _ _), hv⟩
    · obtain ⟨first, hf, hv⟩ := (hf a).error h₂
      refine ⟨made ++ first, (List.prefix_append_right_inj made).2 hf, ?_⟩
      rw [hv, hm.ok h₁, List.append_assoc]

theorem BusM.Notes.pure (a : α) : BusM.Notes view [] (pure a : BusM β α) where
  ok := by
    rintro _ _ _ ⟨⟩
    exact (List.append_nil _).symm
  error := by rintro _ _ _ ⟨⟩

/-- A view of the bus shows the byte accesses that were put to it. -/
structure Bus.Notes [Bus β] (view : β → List BusAccess) : Prop where
  read8 : ∀ addr, BusM.Notes view [.read addr] (Bus.read8 addr)
  write8 : ∀ addr value, BusM.Notes view [.write addr value] (Bus.write8 addr value)
  read16 : ∀ addr, BusM.Notes view [.read addr, .read (addressAfter addr)] (Bus.read16 addr)
  write16 : ∀ addr value, BusM.Notes view
    [.write addr (highByte value), .write (addressAfter addr) value.toUInt8] (Bus.write16 addr value)

private theorem logged_notes (access : BusAccess) (m : BusM β α) :
    BusM.Notes (fun r : Recorder β => r.log.toList) [access] (Recorder.logged access m) where
  ok {r a r'} h := by
    obtain ⟨bus, -, rfl⟩ := Recorder.logged_ok.1 h
    exact Array.toList_push
  error {r e r'} h := by
    obtain ⟨bus, -, rfl⟩ := Recorder.logged_error.1 h
    exact ⟨_, List.prefix_rfl, Array.toList_push⟩

/-- A recorder keeps such a list on any bus. -/
theorem Recorder.notes [Bus β] : Bus.Notes (fun r : Recorder β => r.log.toList) where
  read8 _ := logged_notes _ _
  write8 _ _ := logged_notes _ _
  read16 addr :=
    (logged_notes (.read addr) _).bind fun _ => (logged_notes (.read (addressAfter addr)) _).bind fun _ => .pure _
  write16 addr _ := (logged_notes (.write addr _) _).bind fun _ => logged_notes (.write (addressAfter addr) _) _

end Notes

namespace CpuM

variable {β α γ : Type} {config : Config} {s t u : System β} {bound bound' n k : Nat} {made made' : List BusAccess}

/-! ### The cycle counter -/

/-- The cycle counter of `t` is `n` counts after that of `s`. -/
def Elapsed (n : Nat) (s t : System β) : Prop := t.cpu.cycles = s.cpu.cycles + n.toUInt64

theorem Elapsed.of_eq (h : t.cpu.cycles = s.cpu.cycles) : Elapsed 0 s t := by
  rw [Elapsed, h]
  exact (UInt64.add_zero _).symm

theorem Elapsed.of_add {cost : UInt64} (h : t.cpu.cycles = s.cpu.cycles + cost) : Elapsed cost.toNat s t := by
  have hcost : cost.toNat.toUInt64 = cost := UInt64.ofNat_toNat
  rw [Elapsed, h, hcost]

theorem Elapsed.trans (h : Elapsed n s t) (h' : Elapsed k t u) : Elapsed (n + k) s u := by
  have hsum : (n + k).toUInt64 = n.toUInt64 + k.toUInt64 := UInt64.ofNat_add n k
  rw [Elapsed, h', h, hsum, UInt64.add_assoc]

/-- Far from its last count the counter does not wrap. -/
theorem Elapsed.toNat (h : Elapsed n s t) (hroom : s.cpu.cycles.toNat + n < 2 ^ 64) :
    t.cpu.cycles.toNat = s.cpu.cycles.toNat + n := by
  have hn : n.toUInt64.toNat = n := UInt64.toNat_ofNat_of_lt' (by unfold UInt64.size; omega)
  rw [h, UInt64.toNat_add, hn]
  exact Nat.mod_eq_of_lt hroom

/-! ### Accounts -/

/-- Whether a byte access is put to the bus: all are but those at the status register. -/
def reachesBus (config : Config) (a : BusAccess) : Bool := config.isrAddress != some a.addr

variable [Bus β]

/-- From `s` to `t` the byte accesses of `made` were paid for in their order, with `own` cycles inside the core besides, and
those that are not at the status register were put to the bus. -/
structure Accounts (config : Config) (made : List BusAccess) (own : Nat) (s t : System β) : Prop where
  elapsed : Elapsed (s.cpu.timer.cost made + own) s t
  timer : t.cpu.timer = s.cpu.timer.after made
  noted : ∀ view : β → List BusAccess, Bus.Notes view → view t.bus = view s.bus ++ made.filter (reachesBus config)

/-- What accounts are kept of. -/
def meter (s : System β) : UInt64 × AccessTimer × β := (s.cpu.cycles, s.cpu.timer, s.bus)

namespace Accounts

theorem of_meter (h : meter t = meter s) : Accounts config [] 0 s t where
  elapsed := .of_eq (congrArg Prod.fst h)
  timer := congrArg (fun v => v.2.1) h
  noted view _ := by
    have hbus : t.bus = s.bus := congrArg (fun v => v.2.2) h
    rw [hbus, List.filter_nil, List.append_nil]

theorem trans {own own' : Nat} (h : Accounts config made own s t) (k : Accounts config made' own' t u) :
    Accounts config (made ++ made') (own + own') s u where
  elapsed := by
    have hsum := h.elapsed.trans k.elapsed
    rw [h.timer] at hsum
    rw [AccessTimer.cost_append]
    have hn : s.cpu.timer.cost made + (s.cpu.timer.after made).cost made' + (own + own') =
        s.cpu.timer.cost made + own + ((s.cpu.timer.after made).cost made' + own') := by omega
    rwa [hn]
  timer := by rw [k.timer, h.timer, AccessTimer.after_append]
  noted view hview := by
    rw [k.noted view hview, h.noted view hview, List.filter_append, List.append_assoc]

/-- Cycles inside the core. -/
theorem spent (s : System β) (cycles : UInt64) : Accounts config [] cycles.toNat s (s.spent cycles) where
  elapsed := by
    have h : Elapsed cycles.toNat s (s.spent cycles) := .of_add rfl
    rwa [AccessTimer.cost, Nat.zero_add]
  timer := rfl
  noted view _ := (List.append_nil _).symm

end Accounts

/-! ### Accesses -/

section Accesses

variable {addr : UInt32} {view : β → List BusAccess}

omit [Bus β] in
/-- The price of one byte access. -/
private theorem charged_elapsed (a : BusAccess) :
    Elapsed (s.cpu.timer.cost [a]) s { s with cpu := s.cpu.charged a.direction a.addr } := .of_add rfl

private theorem filter_status {a : BusAccess} (h : config.isrAddress = some a.addr) :
    [a].filter (reachesBus config) = [] := by
  simp [reachesBus, h]

private theorem filter_aside {a : BusAccess} (h : config.isrAddress ≠ some a.addr) :
    [a].filter (reachesBus config) = [a] := by
  simp [reachesBus, h]

private theorem load8_noted {b : UInt8} (h : load8 addr config s = .ok b t) (hview : Bus.Notes view) :
    view t.bus = view s.bus ++ [BusAccess.read addr].filter (reachesBus config) := by
  obtain ⟨bus, ha, rfl⟩ := load8_ok.1 h
  by_cases hc : config.isrAddress = some addr
  · rw [Answers, if_pos hc] at ha
    rw [filter_status hc, List.append_nil, ha.2]
  · rw [Answers, if_neg hc] at ha
    rw [filter_aside hc]
    exact (hview.read8 addr).ok ha

private theorem store8_noted {b : UInt8} (h : store8 addr b config s = .ok () t) (hview : Bus.Notes view) :
    view t.bus = view s.bus ++ [BusAccess.write addr b].filter (reachesBus config) := by
  obtain ⟨pending, bus, ht, rfl⟩ := store8_ok.1 h
  by_cases hc : config.isrAddress = some addr
  · rw [Takes, if_pos hc] at ht
    rw [filter_status hc, List.append_nil, ht.2]
  · rw [Takes, if_neg hc] at ht
    rw [filter_aside hc]
    exact (hview.write8 addr b).ok ht.2

/-- The bytes of a word aside from the status register. -/
private theorem filter_word {a b : BusAccess} (hc : coversStatus config addr 2 = false) (haddr : addr.toNat + 2 ≤ 2 ^ 32)
    (ha : a.addr = addr) (hb : b.addr = addr + 1) : [a, b].filter (reachesBus config) = [a, b] := by
  obtain ⟨h₀, h₁⟩ := aside_of_not_covers hc haddr
  rw [← ha] at h₀
  rw [← hb] at h₁
  have hsplit : [a, b].filter (reachesBus config) = [a].filter (reachesBus config) ++ [b].filter (reachesBus config) :=
    List.filter_append [a] [b]
  rw [hsplit, filter_aside h₀, filter_aside h₁]
  rfl

private theorem load16_noted {w : UInt16} (haddr : addr.toNat + 2 ≤ 2 ^ 32) (h : load16 addr config s = .ok w t)
    (hview : Bus.Notes view) :
    view t.bus = view s.bus ++ [BusAccess.read addr, .read (addr + 1)].filter (reachesBus config) := by
  unfold load16 at h
  rw [bind_of_ok run_read] at h
  split at h
  · obtain ⟨hi, v, h₁, h⟩ := bind_ok.1 h
    obtain ⟨lo, v', h₂, h⟩ := bind_ok.1 h
    cases h
    rw [load8_noted h₂ hview, load8_noted h₁ hview, List.append_assoc, ← List.filter_append]
    rfl
  · next hc =>
    obtain ⟨bus, hb, rfl⟩ := onBus_ok.1 (widening_ok.1 h)
    have hnoted := (hview.read16 addr).ok hb
    rw [Memory.addressAfter_eq haddr] at hnoted
    rw [filter_word (by simpa using hc) haddr rfl rfl]
    exact hnoted

private theorem store16_noted {w : UInt16} (haddr : addr.toNat + 2 ≤ 2 ^ 32) (h : store16 addr w config s = .ok () t)
    (hview : Bus.Notes view) :
    view t.bus = view s.bus ++
      [BusAccess.write addr (highByte w), .write (addr + 1) w.toUInt8].filter (reachesBus config) := by
  have h := widening_ok.1 h
  rw [bind_of_ok run_read] at h
  split at h
  · obtain ⟨_, v, h₁, h₂⟩ := bind_ok.1 h
    rw [store8_noted h₂ hview, store8_noted h₁ hview, List.append_assoc, ← List.filter_append]
    rfl
  · next hc =>
    obtain ⟨bus, hb, rfl⟩ := onBus_ok.1 h
    have hnoted := (hview.write16 addr w).ok hb
    rw [Memory.addressAfter_eq haddr] at hnoted
    rw [filter_word (by simpa using hc) haddr rfl rfl]
    exact hnoted

/-- The cycle counter and the timer, which only charges move. -/
private def account (s : System β) : UInt64 × AccessTimer := (s.cpu.cycles, s.cpu.timer)

/-- Bytes that were charged first and then moved. -/
private theorem Accounts.of_charged {s' : System β} (hcharged : Elapsed (s.cpu.timer.cost made) s s')
    (htimer : s'.cpu.timer = s.cpu.timer.after made) (hbus : s'.bus = s.bus) (hkept : account t = account s')
    (hnoted : ∀ view : β → List BusAccess, Bus.Notes view → view t.bus = view s'.bus ++ made.filter (reachesBus config)) :
    Accounts config made 0 s t where
  elapsed := hcharged.trans (.of_eq (congrArg Prod.fst hkept))
  timer := (congrArg Prod.snd hkept).trans htimer
  noted view hview := hbus ▸ hnoted view hview

theorem read8_accounts {b : UInt8} (h : read8 addr config s = .ok b t) : Accounts config [.read addr] 0 s t :=
  have hkeeps : Keeps account (load8 addr : CpuM β UInt8) := .load8 (fun _ _ => rfl) addr
  .of_charged (charged_elapsed (.read addr)) rfl rfl (hkeeps.ok h) fun _ hview => load8_noted h hview

theorem write8_accounts {b : UInt8} (h : write8 addr b config s = .ok () t) : Accounts config [.write addr b] 0 s t :=
  have hkeeps : Keeps account (store8 addr b : CpuM β Unit) := .store8 (fun _ _ => rfl) (fun _ _ => rfl) addr b
  .of_charged (charged_elapsed (.write addr b)) rfl rfl (hkeeps.ok h) fun _ hview => store8_noted h hview

theorem read16_accounts {w : UInt16} (haddr : addr.toNat + 2 ≤ 2 ^ 32) (h : read16 addr config s = .ok w t) :
    Accounts config [.read addr, .read (addr + 1)] 0 s t :=
  have hkeeps : Keeps account (load16 addr : CpuM β UInt16) := .load16 (fun _ _ => rfl) addr
  .of_charged ((charged_elapsed (.read addr)).trans (charged_elapsed (.read (addr + 1)))) rfl rfl (hkeeps.ok h)
    fun _ hview => load16_noted haddr h hview

theorem write16_accounts {w : UInt16} (haddr : addr.toNat + 2 ≤ 2 ^ 32) (h : write16 addr w config s = .ok () t) :
    Accounts config [.write addr (highByte w), .write (addr + 1) w.toUInt8] 0 s t :=
  have hkeeps : Keeps account (store16 addr w : CpuM β Unit) := .store16 (fun _ _ => rfl) (fun _ _ => rfl) addr w
  .of_charged ((charged_elapsed (.write addr (highByte w))).trans (charged_elapsed (.write (addr + 1) w.toUInt8))) rfl rfl
    (hkeeps.ok h) fun _ hview => store16_noted haddr h hview

end Accesses

/-! ### Actions -/

/-- Every run of the action that ends has an account, with no cycles inside the core and so many bytes at most. -/
structure Accounted (bound : Nat) (m : CpuM β α) : Prop where
  ok : ∀ {config s a t}, m config s = .ok a t → ∃ made, Accounts config made 0 s t ∧ made.length ≤ bound

namespace Accounted

theorem of_keeps {m : CpuM β α} (h : Keeps meter m) : Accounted bound m :=
  ⟨fun hr => ⟨[], .of_meter (h.ok hr), Nat.zero_le _⟩⟩

theorem mono {m : CpuM β α} (h : Accounted bound m) (hle : bound ≤ bound') : Accounted bound' m where
  ok hr := by
    obtain ⟨made, ha, hlen⟩ := h.ok hr
    exact ⟨made, ha, Nat.le_trans hlen hle⟩

theorem bind {m : CpuM β α} {f : α → CpuM β γ} (hm : Accounted bound m) (hf : ∀ a, Accounted bound' (f a)) :
    Accounted (bound + bound') (m >>= f) where
  ok hr := by
    obtain ⟨a, t, h₁, h₂⟩ := bind_ok.1 hr
    obtain ⟨made, ha, hlen⟩ := hm.ok h₁
    obtain ⟨made', ha', hlen'⟩ := (hf a).ok h₂
    refine ⟨made ++ made', ha.trans ha', ?_⟩
    rw [List.length_append]
    exact Nat.add_le_add hlen hlen'

/-- What takes no cycles and leaves the bus alone may come before, and what it results in may be relied on. -/
theorem after_of {P : α → Prop} {m : CpuM β α} {f : α → CpuM β γ} (hm : Keeps meter m)
    (hP : ∀ {config s a t}, m config s = .ok a t → P a) (hf : ∀ a, P a → Accounted bound (f a)) :
    Accounted bound (m >>= f) where
  ok {config s c u} hr := by
    obtain ⟨a, t, h₁, h₂⟩ := bind_ok.1 hr
    obtain ⟨made, ha, hlen⟩ := (hf a (hP h₁)).ok h₂
    have hfree : Accounts config [] 0 s t := .of_meter (hm.ok h₁)
    exact ⟨made, hfree.trans ha, hlen⟩

theorem after {m : CpuM β α} {f : α → CpuM β γ} (hm : Keeps meter m) (hf : ∀ a, Accounted bound (f a)) :
    Accounted bound (m >>= f) :=
  after_of hm (fun _ => trivial) fun a _ => hf a

/-- What takes no cycles and leaves the bus alone may come afterwards. -/
theorem before {m : CpuM β α} {f : α → CpuM β γ} (hm : Accounted bound m) (hf : ∀ a, Keeps meter (f a)) :
    Accounted bound (m >>= f) := by
  have hfree : ∀ a, Accounted 0 (f a) := fun a => of_keeps (hf a)
  exact hm.bind hfree

theorem widening {m : CpuM β α} (width : Nat) (hm : Accounted bound m) : Accounted bound (widening width m) :=
  ⟨fun hr => hm.ok (widening_ok.1 hr)⟩

/-- The cycle counter grows by three cycles a byte at most. -/
theorem elapsed {m : CpuM β α} {a : α} (h : Accounted bound m) (hr : m config s = .ok a t) :
    ∃ n ≤ 3 * bound, Elapsed n s t := by
  obtain ⟨made, ha, hlen⟩ := h.ok hr
  have hcost := s.cpu.timer.cost_le made
  exact ⟨_, by omega, ha.elapsed⟩

variable {addr : UInt32}

theorem read8 (addr : UInt32) : Accounted 1 (read8 addr : CpuM β UInt8) :=
  ⟨fun hr => ⟨_, read8_accounts hr, Nat.le_refl _⟩⟩

theorem write8 (addr : UInt32) (value : UInt8) : Accounted 1 (write8 addr value : CpuM β Unit) :=
  ⟨fun hr => ⟨_, write8_accounts hr, Nat.le_refl _⟩⟩

theorem read16 (haddr : addr.toNat + 2 ≤ 2 ^ 32) : Accounted 2 (read16 addr : CpuM β UInt16) :=
  ⟨fun hr => ⟨_, read16_accounts haddr hr, Nat.le_refl _⟩⟩

theorem write16 (haddr : addr.toNat + 2 ≤ 2 ^ 32) (value : UInt16) : Accounted 2 (write16 addr value : CpuM β Unit) :=
  ⟨fun hr => ⟨_, write16_accounts haddr hr, Nat.le_refl _⟩⟩

private theorem second_word (haddr : addr.toNat + 4 ≤ 2 ^ 32) : (addr + 2).toNat + 2 ≤ 2 ^ 32 := by
  have hadd : (addr + 2).toNat = addr.toNat + 2 := Memory.toNat_add_of_lt (k := 2) (by omega)
  omega

theorem read32 (haddr : addr.toNat + 4 ≤ 2 ^ 32) : Accounted 4 (read32 addr : CpuM β UInt32) :=
  widening 32 <| (read16 (by omega)).bind fun _ => (read16 (second_word haddr)).before fun _ => .pure _

theorem write32 (haddr : addr.toNat + 4 ≤ 2 ^ 32) (value : UInt32) : Accounted 4 (write32 addr value : CpuM β Unit) :=
  widening 32 <| (write16 (by omega) _).bind fun _ => write16 (second_word haddr) _

theorem readSized (width : Width) (haddr : addr.toNat + 4 ≤ 2 ^ 32) :
    Accounted 4 (readSized width addr : CpuM β UInt32) := by
  cases width with
  | byte => exact ((read8 addr).before fun _ => .pure _).mono (by decide)
  | word => exact ((read16 (by omega)).before fun _ => .pure _).mono (by decide)
  | long => exact read32 haddr

theorem writeSized (width : Width) (haddr : addr.toNat + 4 ≤ 2 ^ 32) (value : UInt32) :
    Accounted 4 (writeSized width addr value : CpuM β Unit) := by
  cases width with
  | byte => exact (write8 addr _).mono (by decide)
  | word => exact (write16 (by omega) _).mono (by decide)
  | long => exact write32 haddr value

end Accounted

end CpuM

end H8S
