import H8S.Proofs.ByteAccesses
import Mathlib.Algebra.BigOperators.Fin
import Mathlib.Combinatorics.Enumerative.DoubleCounting

/-!
# Coalesced accesses

The timer remembers one access of each direction at most, and only if its partner would be free after it.  What it remembers
is therefore the access before in that direction, whatever came in between in the other (`last_after`), and an access is free
exactly if it is the odd byte of a word whose even byte was accessed before it in its direction (`chargedAt_eq_zero_iff`).
The even byte of a free access is never free itself, and no other access has it for its partner, so that half of the accesses
of a direction are paid for at least (`Partner`).

The directions do not know of each other, so their costs add up (`cost_directions`).  A block of whole words costs the same
after every access (`cost_block`).
-/

namespace H8S

namespace AccessClass

/-- What the two bytes of a word cost when they are accessed one after the other. -/
def wordCycles : AccessClass → Nat
  | external => 3
  | onChip => 1
  | byteRegister => 2
  | other => 6

theorem pairs_iff {kind : AccessClass} : kind.pairs = true ↔ kind = external ∨ kind = onChip := by
  cases kind <;> decide

/-- The two bytes of a word lie in one class. -/
theorem ofAddress_partner {a b : UInt32} (hb : b.toNat % 2 = 1) (hab : a.toNat + 1 = b.toNat) :
    ofAddress a = ofAddress b := by
  have h₁ : (0x400000 : UInt32).toNat = 0x400000 := rfl
  have h₂ : (0xFFFD10 : UInt32).toNat = 0xFFFD10 := rfl
  have h₃ : (0xFFFFA0 : UInt32).toNat = 0xFFFFA0 := rfl
  unfold ofAddress
  simp only [UInt32.lt_iff_toNat_lt, h₁, h₂, h₃]
  -- the classes begin at even addresses
  have e₁ : a.toNat < 0x400000 ↔ b.toNat < 0x400000 := by omega
  have e₂ : a.toNat < 0xFFFD10 ↔ b.toNat < 0xFFFD10 := by omega
  have e₃ : a.toNat < 0xFFFFA0 ↔ b.toNat < 0xFFFFA0 := by omega
  simp only [e₁, e₂, e₃]

end AccessClass

namespace AccessTimer

variable {t t' : AccessTimer} {direction : Direction} {made : List BusAccess}

/-! ### What the timer remembers -/

/-- The byte after an even address is its partner. -/
private theorem even_or_one {a : UInt32} (ha : a.toNat % 2 = 0) : a ||| 1 = a + 1 := by
  have hone : a &&& 1 = 0 := by
    rw [← UInt32.toNat_inj, UInt32.toNat_and]
    exact (Nat.and_two_pow_sub_one_eq_mod a.toNat 1).trans ha
  have hand : a.toBitVec &&& 1#32 = 0#32 := congrArg UInt32.toBitVec hone
  exact UInt32.toBitVec_inj.1 (BitVec.add_eq_or_of_and_eq_zero _ _ hand).symm

/-- The partner of an access is the even byte before an odd one. -/
theorem follows_iff {last : Option UInt32} {addr : UInt32} :
    follows last addr = true ↔ addr.toNat % 2 = 1 ∧ ∃ p, last = some p ∧ p.toNat + 1 = addr.toNat := by
  have heven : ∀ p : UInt32, p &&& 1 = 0 ↔ p.toNat % 2 = 0 := fun p => by
    rw [← UInt32.toNat_inj, UInt32.toNat_and]
    exact Eq.congr_left (Nat.and_two_pow_sub_one_eq_mod p.toNat 1)
  have hnext : ∀ p : UInt32, p.toNat % 2 = 0 → (p + 1).toNat = p.toNat + 1 := fun p hp => by
    have hlt := p.toNat_lt
    rw [UInt32.toNat_add]
    exact Nat.mod_eq_of_lt (show p.toNat + 1 < 2 ^ 32 by omega)
  cases last with
  | none => simp [follows]
  | some p =>
    simp only [follows, Bool.and_eq_true, beq_iff_eq, heven, Option.some.injEq, exists_eq_left']
    constructor
    · rintro ⟨hp, rfl⟩
      rw [even_or_one hp, hnext p hp]
      omega
    · rintro ⟨hodd, hp⟩
      have hp₀ : p.toNat % 2 = 0 := by omega
      exact ⟨hp₀, UInt32.toNat_inj.1 (by rw [even_or_one hp₀, hnext p hp₀, hp])⟩

theorem charge_cost (t : AccessTimer) (direction : Direction) (addr : UInt32) :
    (t.charge direction addr).1 =
      if (AccessClass.ofAddress addr).pairs && follows (t.last direction) addr then 0
      else (AccessClass.ofAddress addr).cycles := by
  unfold charge
  dsimp only
  cases (AccessClass.ofAddress addr).pairs <;> rfl

/-- An access is remembered for its direction if a partner may follow it. -/
theorem last_charge (t : AccessTimer) (direction direction' : Direction) (addr : UInt32) :
    (t.charge direction addr).2.last direction' =
      if direction = direction' then (if (AccessClass.ofAddress addr).pairs then some addr else none)
      else t.last direction' := by
  unfold charge
  dsimp only
  cases (AccessClass.ofAddress addr).pairs <;> cases direction <;> cases direction' <;> rfl

/-- An access comes right before another in its direction. -/
structure Precedes (made : List BusAccess) (j i : Fin made.length) : Prop where
  lt : j < i
  direction : made[j].direction = made[i].direction
  between : ∀ k, j < k → k < i → made[k].direction ≠ made[i].direction

/-- A timer that was fresh remembers the access before in a direction, if a partner may follow it. -/
private theorem last_after (direction : Direction) (p : UInt32) {i : Nat} (hi : i ≤ made.length) :
    (({} : AccessTimer).after (made.take i)).last direction = some p ↔
      ∃ j : Fin made.length, j.val < i ∧ made[j].direction = direction ∧
        (∀ k : Fin made.length, j.val < k.val → k.val < i → made[k].direction ≠ direction) ∧
        (AccessClass.ofAddress made[j].addr).pairs = true ∧ made[j].addr = p := by
  induction i with
  | zero =>
    constructor
    · intro h
      cases direction <;> cases h
    · rintro ⟨j, hj, -⟩
      cases hj
  | succ i ih =>
    have hlt : i < made.length := hi
    rw [List.take_succ_eq_append_getElem hlt, after_append]
    show ((({} : AccessTimer).after (made.take i)).charge made[i].direction made[i].addr).2.last direction = some p ↔ _
    rw [last_charge]
    split
    · next hd =>
      -- the access at `i` is the last one in its direction
      constructor
      · intro h
        obtain ⟨hpairs, rfl⟩ : (AccessClass.ofAddress made[i].addr).pairs = true ∧ made[i].addr = p := by simpa using h
        have hbetween : ∀ k : Fin made.length, i < k.val → k.val < i + 1 → made[k].direction ≠ direction :=
          fun k hk hk' => absurd (Nat.lt_of_lt_of_le hk' hk) (Nat.lt_irrefl _)
        exact ⟨⟨i, hlt⟩, Nat.lt_succ_self i, hd, hbetween, hpairs, rfl⟩
      · rintro ⟨j, hj, -, hbetween, hpairs, rfl⟩
        have hji : j.val = i := by
          by_contra hne
          have hlt' : j.val < i := by omega
          exact hbetween ⟨i, hlt⟩ hlt' (Nat.lt_succ_self i) hd
        obtain rfl : j = ⟨i, hlt⟩ := Fin.ext hji
        exact if_pos hpairs
    · next hd =>
      rw [ih (Nat.le_of_lt hlt)]
      constructor
      · rintro ⟨j, hj, hdir, hbetween, hrest⟩
        refine ⟨j, Nat.lt_succ_of_lt hj, hdir, fun k hk hk' => ?_, hrest⟩
        rcases Nat.lt_succ_iff_lt_or_eq.1 hk' with hk' | hk'
        · exact hbetween k hk hk'
        · obtain rfl : k = ⟨i, hlt⟩ := Fin.ext hk'
          exact hd
      · rintro ⟨j, hj, hdir, hbetween, hrest⟩
        have hji : j.val ≠ i := fun hji => by
          obtain rfl : j = ⟨i, hlt⟩ := Fin.ext hji
          exact hd hdir
        exact ⟨j, by omega, hdir, fun k hk hk' => hbetween k hk (Nat.lt_succ_of_lt hk'), hrest⟩

/-! ### Free accesses -/

/-- What an access in the middle of others is charged. -/
def chargedAt (t : AccessTimer) (made : List BusAccess) (i : Fin made.length) : Nat :=
  ((t.after (made.take i)).charge made[i].direction made[i].addr).1.toNat

/-- What an access costs unless it is free. -/
def fullCost (a : BusAccess) : Nat :=
  match AccessClass.ofAddress a.addr with
  | .external => 3
  | .onChip => 1
  | .byteRegister => 1
  | .other => 3

theorem cycles_toNat (a : BusAccess) : (AccessClass.ofAddress a.addr).cycles.toNat = fullCost a := by
  unfold fullCost
  cases AccessClass.ofAddress a.addr <;> rfl

/-- An access has a partner: it is the odd byte of a word of which the even byte was accessed right before it in its
direction, in memory where the bytes of a word travel together. -/
structure Partner (made : List BusAccess) (j i : Fin made.length) : Prop where
  precedes : Precedes made j i
  odd : made[i].addr.toNat % 2 = 1
  next : made[j].addr.toNat + 1 = made[i].addr.toNat
  kind : AccessClass.ofAddress made[i].addr = .external ∨ AccessClass.ofAddress made[i].addr = .onChip

theorem fullCost_pos (a : BusAccess) : 1 ≤ fullCost a := by
  unfold fullCost
  cases AccessClass.ofAddress a.addr <;> decide

/-- A fresh timer charges the accesses that have no partner, and no others. -/
theorem chargedAt_fresh (i : Fin made.length) :
    chargedAt {} made i = 0 ∧ (∃ j, Partner made j i) ∨
      chargedAt {} made i = fullCost made[i] ∧ ¬∃ j, Partner made j i := by
  have hfree : ((AccessClass.ofAddress made[i].addr).pairs &&
      follows ((({} : AccessTimer).after (made.take i)).last made[i].direction) made[i].addr) = true ↔
      ∃ j, Partner made j i := by
    rw [Bool.and_eq_true, AccessClass.pairs_iff, follows_iff]
    constructor
    · rintro ⟨hkind, hodd, p, hlast, hnext⟩
      obtain ⟨j, hlt, hdir, hbetween, -, rfl⟩ := (last_after _ p (Nat.le_of_lt i.isLt)).1 hlast
      exact ⟨j, ⟨hlt, hdir, hbetween⟩, hodd, hnext, hkind⟩
    · rintro ⟨j, ⟨hlt, hdir, hbetween⟩, hodd, hnext, hkind⟩
      have hpairs : (AccessClass.ofAddress made[j].addr).pairs = true := by
        rw [AccessClass.ofAddress_partner hodd hnext]
        exact AccessClass.pairs_iff.2 hkind
      exact ⟨hkind, hodd, _, (last_after _ _ (Nat.le_of_lt i.isLt)).2 ⟨j, hlt, hdir, hbetween, hpairs, rfl⟩, hnext⟩
  unfold chargedAt
  rw [charge_cost]
  split
  · next h => exact .inl ⟨rfl, hfree.1 h⟩
  · next h => exact .inr ⟨cycles_toNat _, mt hfree.2 h⟩

/-- An access is free exactly if it has a partner. -/
theorem chargedAt_eq_zero_iff {i : Fin made.length} : chargedAt {} made i = 0 ↔ ∃ j, Partner made j i := by
  have hpos := fullCost_pos made[i]
  rcases chargedAt_fresh i with ⟨h, hpartner⟩ | ⟨h, hnone⟩
  · exact iff_of_true h hpartner
  · exact iff_of_false (by omega) hnone

namespace Partner

variable {i i' j j' : Fin made.length}

/-- The partner of a free access is paid for. -/
theorem charged (h : Partner made j i) : chargedAt {} made j = fullCost made[j] := by
  rcases chargedAt_fresh j with ⟨-, k, hk⟩ | ⟨h, -⟩
  · -- it is the even byte of its word
    have hodd := hk.odd
    have hnext := h.next
    have hodd' := h.odd
    omega
  · exact h

/-- No two accesses have one partner. -/
theorem unique (h : Partner made j i) (h' : Partner made j i') : i = i' := by
  have hdir : made[i].direction = made[i'].direction := h.precedes.direction.symm.trans h'.precedes.direction
  rcases lt_trichotomy i i' with hlt | heq | hlt
  · exact absurd hdir (h'.precedes.between i h.precedes.lt hlt)
  · exact heq
  · exact absurd hdir.symm (h.precedes.between i' h'.precedes.lt hlt)

end Partner

/-- The places of the accesses in a direction. -/
def places (direction : Direction) (made : List BusAccess) : Finset (Fin made.length) :=
  Finset.univ.filter fun i => made[i].direction = direction

/-- The places of the accesses that are free. -/
def freePlaces (direction : Direction) (made : List BusAccess) : Finset (Fin made.length) :=
  (places direction made).filter fun i => chargedAt {} made i = 0

/-- At most half of the accesses of a direction are free. -/
theorem two_mul_free_le (direction : Direction) (made : List BusAccess) :
    2 * (freePlaces direction made).card ≤ (places direction made).card := by
  let paid := (places direction made).filter fun i => ¬chargedAt {} made i = 0
  have hsum : (freePlaces direction made).card + paid.card = (places direction made).card :=
    Finset.card_filter_add_card_filter_not _
  have hle : (freePlaces direction made).card ≤ paid.card := by
    refine Finset.card_le_card_of_forall_subsingleton (fun i j => Partner made j i) (fun i hi => ?_) ?_
    · obtain ⟨hplace, hzero⟩ := Finset.mem_filter.1 hi
      obtain ⟨j, hj⟩ := chargedAt_eq_zero_iff.1 hzero
      have hdir : made[j].direction = direction := hj.precedes.direction.trans (Finset.mem_filter.1 hplace).2
      have hcharged : ¬chargedAt {} made j = 0 := by
        have hpos := fullCost_pos made[j]
        rw [hj.charged]
        omega
      exact ⟨j, Finset.mem_filter.2 ⟨Finset.mem_filter.2 ⟨Finset.mem_univ j, hdir⟩, hcharged⟩, hj⟩
    · rintro j - i ⟨-, hi⟩ i' ⟨-, hi'⟩
      exact hi.unique hi'
  omega

/-! ### Costs -/

theorem cost_eq_sum (t : AccessTimer) (made : List BusAccess) : t.cost made = ∑ i, t.chargedAt made i := by
  induction made generalizing t with
  | nil => rfl
  | cons a made ih =>
    rw [cost, ih]
    exact (Fin.sum_univ_succ (t.chargedAt (a :: made))).symm

/-- What accesses of one direction cost depends on what the timer remembers of it. -/
private theorem cost_congr (direction : Direction) (hlast : t.last direction = t'.last direction)
    (hmade : ∀ a ∈ made, a.direction = direction) : t.cost made = t'.cost made := by
  induction made generalizing t t' with
  | nil => rfl
  | cons a made ih =>
    obtain rfl : a.direction = direction := hmade a (List.mem_cons_self ..)
    have hprice : (t.charge a.direction a.addr).1 = (t'.charge a.direction a.addr).1 := by
      rw [charge_cost, charge_cost, hlast]
    have hnext : (t.charge a.direction a.addr).2.last a.direction = (t'.charge a.direction a.addr).2.last a.direction := by
      rw [last_charge, last_charge, if_pos rfl, if_pos rfl]
    rw [cost, cost, hprice, ih hnext fun b hb => hmade b (List.mem_cons_of_mem _ hb)]

/-- The accesses of a sequence in one direction. -/
def along (direction : Direction) (made : List BusAccess) : List BusAccess := made.filter fun a => a.direction = direction

/-- The directions are charged apart from each other. -/
theorem cost_directions (t : AccessTimer) (made : List BusAccess) :
    t.cost made = t.cost (along .read made) + t.cost (along .write made) := by
  induction made generalizing t with
  | nil => rfl
  | cons a made ih =>
    have hother : ∀ direction, a.direction ≠ direction →
        (t.charge a.direction a.addr).2.cost (along direction made) = t.cost (along direction made) := by
      intro direction hne
      refine cost_congr direction ?_ fun b hb => of_decide_eq_true (List.mem_filter.1 hb).2
      rw [last_charge, if_neg hne]
    rw [cost, ih]
    cases hd : a.direction with
    | read =>
      have hread : along .read (a :: made) = a :: along .read made := List.filter_cons_of_pos (by simp [hd])
      have hwrite : along .write (a :: made) = along .write made := List.filter_cons_of_neg (by simp [hd])
      rw [hread, hwrite, cost, ← hd, hother .write (by simp [hd]), hd, Nat.add_assoc]
    | write =>
      have hread : along .read (a :: made) = along .read made := List.filter_cons_of_neg (by simp [hd])
      have hwrite : along .write (a :: made) = a :: along .write made := List.filter_cons_of_pos (by simp [hd])
      rw [hread, hwrite, cost, ← hd, hother .read (by simp [hd]), hd, Nat.add_left_comm]

/-! ### Blocks -/

/-- Accesses to consecutive bytes from an address on, in one direction and one class. -/
structure Block (kind : AccessClass) (direction : Direction) (start : UInt32) (made : List BusAccess) : Prop where
  direction : ∀ a ∈ made, a.direction = direction
  addr : ∀ k (h : k < made.length), made[k].addr = start + k.toUInt32
  kind : ∀ a ∈ made, AccessClass.ofAddress a.addr = kind

/-- A word that is accessed from an even address on costs the same after every access. -/
private theorem cost_word (t : AccessTimer) {a b : BusAccess} {kind : AccessClass} (hdir : a.direction = b.direction)
    (ha : a.addr.toNat % 2 = 0) (hb : b.addr = a.addr + 1) (h₀ : AccessClass.ofAddress a.addr = kind)
    (h₁ : AccessClass.ofAddress b.addr = kind) : t.cost [a, b] = kind.wordCycles := by
  have hlt := a.addr.toNat_lt
  have hnext : a.addr.toNat + 1 = b.addr.toNat := by
    rw [hb, UInt32.toNat_add]
    exact (Nat.mod_eq_of_lt (show a.addr.toNat + 1 < 2 ^ 32 by omega)).symm
  have hfirst : follows (t.last b.direction) a.addr = false := by
    rw [Bool.eq_false_iff, Ne, follows_iff]
    omega
  have hsecond : follows (some a.addr) b.addr = true := follows_iff.2 ⟨by omega, _, rfl, hnext⟩
  simp only [cost, hdir, charge_cost, last_charge, h₀, h₁, hfirst, if_true]
  cases kind <;> simp [AccessClass.pairs, AccessClass.cycles, AccessClass.wordCycles, hsecond]

/-- A block of whole words costs the same after every access. -/
theorem cost_block {kind : AccessClass} {start : UInt32} {m : Nat} (t : AccessTimer) (h : Block kind direction start made)
    (heven : start.toNat % 2 = 0) (hlen : made.length = 2 * m) : t.cost made = m * kind.wordCycles := by
  induction m generalizing t start made with
  | zero =>
    obtain rfl : made = [] := List.length_eq_zero_iff.1 hlen
    exact (Nat.zero_mul _).symm
  | succ m ih =>
    obtain ⟨a, b, rest, rfl⟩ : ∃ a b rest, made = a :: b :: rest := by
      match made, hlen with
      | a :: b :: rest, _ => exact ⟨a, b, rest, rfl⟩
    have hrest : rest.length = 2 * m := by
      simp only [List.length_cons] at hlen
      omega
    have ha : a.addr = start := (h.addr 0 (by simp)).trans (UInt32.add_zero start)
    have hb : b.addr = a.addr + 1 := by
      rw [ha]
      exact h.addr 1 (by simp)
    have hblock : Block kind direction (start + 2) rest :=
      { direction := fun c hc => h.direction c (by simp [hc])
        addr := fun k hk => by
          have hadd : (k + 2).toUInt32 = k.toUInt32 + 2 := UInt32.ofNat_add k 2
          have hk' := h.addr (k + 2) (by simpa using hk)
          rw [hadd, UInt32.add_comm k.toUInt32, ← UInt32.add_assoc] at hk'
          exact hk'
        kind := fun c hc => h.kind c (by simp [hc]) }
    have heven' : (start + 2).toNat % 2 = 0 := by
      have htwo : (2 : UInt32).toNat = 2 := rfl
      rw [UInt32.toNat_add, htwo]
      omega
    have hdir : a.direction = b.direction :=
      (h.direction a (by simp)).trans (h.direction b (by simp)).symm
    have hword := t.cost_word hdir (ha ▸ heven) hb (h.kind a (by simp)) (h.kind b (by simp))
    show t.cost ([a, b] ++ rest) = _
    rw [cost_append, hword, ih _ hblock heven' hrest, Nat.succ_mul, Nat.add_comm]

/-! ### The law -/

/-- How a fresh timer charges a sequence of accesses. -/
structure Coalesces (made : List BusAccess) : Prop where
  /-- Each access is charged on its own. -/
  total : cost {} made = ∑ i, chargedAt {} made i
  /-- The reads cost what they would without the writes, and the writes what they would without the reads. -/
  directions : cost {} made = cost {} (along .read made) + cost {} (along .write made)
  /-- An access is free exactly if it has a partner, -/
  free_iff : ∀ i, chargedAt {} made i = 0 ↔ ∃ j, Partner made j i
  /-- and costs what its class does otherwise. -/
  paid : ∀ i, (¬∃ j, Partner made j i) → chargedAt {} made i = fullCost made[i]
  /-- The partner is paid for, -/
  charged : ∀ i j, Partner made j i → chargedAt {} made j = fullCost made[j]
  /-- and it is the partner of no other access, -/
  unique : ∀ i i' j, Partner made j i → Partner made j i' → i = i'
  /-- so that no more than half of the accesses of a direction are free. -/
  half : ∀ direction, 2 * (freePlaces direction made).card ≤ (places direction made).card

/-- Accesses of one direction do not matter to those of the other.  In each the odd byte of a word is free right after the even
one, in memory where the two travel together, and everything else is paid for.  So a block of whole words costs the same
wherever it stands in a sequence. -/
theorem coalescing_law :
    (∀ made, Coalesces made) ∧
      ∀ (t : AccessTimer) (kind : AccessClass) (direction : Direction) (start : UInt32) (block : List BusAccess) (m : Nat),
        Block kind direction start block → start.toNat % 2 = 0 → block.length = 2 * m →
          t.cost block = m * kind.wordCycles := by
  refine ⟨fun made => ?_, fun t kind direction start block m h heven hlen => t.cost_block h heven hlen⟩
  exact
    { total := cost_eq_sum {} made
      directions := cost_directions {} made
      free_iff := fun i => chargedAt_eq_zero_iff
      paid := fun i hnone => by
        rcases chargedAt_fresh i with ⟨-, h⟩ | ⟨h, -⟩
        · exact absurd h hnone
        · exact h
      charged := fun i j h => h.charged
      unique := fun i i' j h h' => h.unique h'
      half := fun direction => two_mul_free_le direction made }

/-- A word that is read while another is written, and its odd byte once more. -/
def interleaved : List BusAccess := [.read 0x100, .write 0x200 1, .read 0x101, .write 0x201 2, .read 0x101]

/-- Both words cost three cycles, and three words on the chip cost one each. -/
theorem coalescing_law_of_interleaved :
    Partner interleaved ⟨0, by decide⟩ ⟨2, by decide⟩ ∧ chargedAt {} interleaved ⟨2, by decide⟩ = 0 ∧
      chargedAt {} interleaved ⟨0, by decide⟩ = 3 ∧
      cost {} interleaved = cost {} [.read 0x100, .read 0x101, .read 0x101] + cost {} [.write 0x200 1, .write 0x201 2] ∧
      (({} : AccessTimer).after interleaved).cost
        [.read 0xFFFD10, .read 0xFFFD11, .read 0xFFFD12, .read 0xFFFD13, .read 0xFFFD14, .read 0xFFFD15] = 3 := by
  have hpartner : Partner interleaved ⟨0, by decide⟩ ⟨2, by decide⟩ :=
    { precedes := ⟨by decide, rfl, by decide⟩
      odd := rfl
      next := rfl
      kind := .inl rfl }
  have hblock : Block .onChip .read 0xFFFD10
      [.read 0xFFFD10, .read 0xFFFD11, .read 0xFFFD12, .read 0xFFFD13, .read 0xFFFD14, .read 0xFFFD15] :=
    ⟨by decide, by decide, by decide⟩
  have h := coalescing_law.1 interleaved
  exact ⟨hpartner, (h.free_iff _).2 ⟨_, hpartner⟩, h.charged _ _ hpartner, h.directions,
    coalescing_law.2 _ _ _ _ _ 3 hblock rfl rfl⟩

end AccessTimer

end H8S
