import H8S.Listing.Image
import H8S.Proofs.AccessBounds
import H8S.Proofs.Leaves
import H8S.Proofs.Sources

/-!
# Listings tile the memory

The lines of a listing follow each other without gaps.  `LineAt` says what a line shows at an address: the instruction that
is decoded there, or the word of two bytes that begin none; either lies in the memory and ends where the next line begins.
A listing is such a chain (`Tiles`) from the even start on, until it has all its lines or the fetch at the next address runs
past the end of the memory (`listing_tiles`).

With one exception: in a memory that fills the address space a chain may come to its very end.  The decoder cuts the address
to the address space and finds something at zero, so the listing does not end there.
-/

namespace H8S

namespace Decoding

variable {α β : Type}

/-! ### The second byte -/

/-- The decoding cannot go on without another byte. -/
def Asks (d : Decoding α) : Prop := ∃ f, d = byte f

theorem Asks.bind {d : Decoding α} (h : Asks d) (f : α → Decoding β) : Asks (d >>= f) := by
  obtain ⟨g, rfl⟩ := h
  exact ⟨fun b => (g b).bind f, rfl⟩

private theorem page0_asks (code : UInt8) : Asks (page0 code) := by
  unfold page0
  split <;> exact ⟨_, rfl⟩

private theorem page1_asks (code : UInt8) : Asks (page1 code) := by
  unfold page1
  split <;> exact ⟨_, rfl⟩

private theorem jumpTarget_asks (mode : UInt8) : Asks (jumpTarget mode) := by
  unfold jumpTarget
  split <;> exact ⟨_, rfl⟩

private theorem page5_asks (start : UInt32) (code : UInt8) : Asks (page5 start code) := by
  unfold page5
  split
  all_goals first
    | exact ⟨_, rfl⟩
    | exact (jumpTarget_asks _).bind _

private theorem page6_asks (code : UInt8) : Asks (page6 code) := by
  unfold page6
  split <;> exact ⟨_, rfl⟩

private theorem page7_asks (code : UInt8) : Asks (page7 code) := by
  unfold page7
  split <;> exact ⟨_, rfl⟩

/-- After the first byte of an encoding a second is asked for. -/
theorem operation_asks (start : UInt32) (b : UInt8) : ∃ d, (operation start).take b = some d ∧ Asks d := by
  refine ⟨_, rfl, ?_⟩
  simp only [Decoding.bind]
  split
  · exact page0_asks _
  · exact page1_asks _
  · exact ⟨_, rfl⟩
  · exact ⟨_, rfl⟩
  · exact ⟨_, rfl⟩
  · exact page5_asks start _
  · exact page6_asks _
  · exact page7_asks _
  all_goals exact ⟨_, rfl⟩

/-- So no verdict comes before the second byte. -/
theorem two_of_illegal {start : UInt32} {bytes : List UInt8} (h : (operation start).feed bytes = some illegal) :
    2 ≤ bytes.length := by
  cases bytes with
  | nil => cases h
  | cons b rest =>
    obtain ⟨d, hd, f, rfl⟩ := operation_asks start b
    cases rest with
    | nil =>
      have hone : (operation start).feed [b] = some (byte f) := by
        show (operation start).take b >>= some = _
        rw [hd]
        rfl
      rw [hone] at h
      cases h
    | cons c rest => exact Nat.le_add_left 2 rest.length

/-- What is left after some bytes has the property of the whole. -/
theorem Ends.feed {P : Nat → α → Prop} {n : Nat} {d d' : Decoding α} {bytes : List UInt8} (h : Ends P n d)
    (hd : d.feed bytes = some d') : Ends P (n + bytes.length) d' := by
  induction bytes generalizing n d with
  | nil =>
    cases hd
    exact h
  | cons b rest ih =>
    cases d with
    | byte next =>
      have := ih (h b) hd
      rwa [Nat.add_assoc, Nat.add_comm 1] at this
    | done a => cases hd
    | illegal => cases hd

end Decoding

/-! ### Decodings from a memory -/

namespace Memory

variable {α : Type} {m : Memory} {start pc : UInt32} {consumed : List UInt8}

theorem read?_of_lt {a : UInt32} (h : a.toNat < m.size) : m.read? a = .ok (m.get a) := by
  unfold read? contains
  rw [decide_eq_true h]
  rfl

theorem read?_of_le {a : UInt32} (h : m.size ≤ a.toNat) : m.read? a = .error (.outOfRange a ⟨.read, 8⟩) := by
  unfold read? contains
  rw [decide_eq_false (Nat.not_lt_of_le h)]
  rfl

/-- Some bytes of a run lie in the memory, after those consumed before. -/
def Inside (m : Memory) (start : UInt32) (before n : Nat) : Prop :=
  ∀ k < n, (start + (before + k).toUInt32).toNat < m.size

private theorem Inside.cons {before n : Nat} (h : (start + before.toUInt32).toNat < m.size)
    (hrest : Inside m start (before + 1) n) : Inside m start before (n + 1) := by
  intro k hk
  cases k with
  | zero => exact h
  | succ k =>
    have e : before + (k + 1) = before + 1 + k := by omega
    rw [e]
    exact hrest k (Nat.lt_of_succ_lt_succ hk)

/-- How a run on a memory ends: in a result, in the verdict that the bytes are illegal, or at the first byte outside. -/
inductive RunEnds (m : Memory) (start : UInt32) (d : Decoding α) (consumed : List UInt8) :
    Except Fault (α × List UInt8) → Prop where
  | done (rest : List UInt8) (a : α) : d.feed rest = some (.done a) → Inside m start consumed.length rest.length →
      RunEnds m start d consumed (.ok (a, consumed ++ rest))
  | illegal (rest : List UInt8) : d.feed rest = some .illegal → Inside m start consumed.length rest.length →
      RunEnds m start d consumed (.error (.illegalInstruction start (consumed ++ rest)))
  | outside (rest : List UInt8) (next : UInt8 → Decoding α) : d.feed rest = some (.byte next) →
      Inside m start consumed.length rest.length →
      m.size ≤ (start + (consumed.length + rest.length).toUInt32).toNat →
      RunEnds m start d consumed (.error (.outOfRange (start + (consumed.length + rest.length).toUInt32) ⟨.read, 8⟩))

theorem run_ends (m : Memory) (start : UInt32) (d : Decoding α) (consumed : List UInt8) :
    RunEnds m start d consumed (d.run m.read? start consumed) := by
  induction d generalizing consumed with
  | done a =>
    have h : RunEnds m start (.done a) consumed (.ok (a, consumed ++ [])) := .done [] a rfl (by rintro _ ⟨⟩)
    rwa [List.append_nil] at h
  | illegal =>
    have h : RunEnds m start (.illegal : Decoding α) consumed (.error (.illegalInstruction start (consumed ++ []))) :=
      .illegal [] rfl (by rintro _ ⟨⟩)
    rwa [List.append_nil] at h
  | byte next ih =>
    have hlen : ∀ b : UInt8, (consumed ++ [b]).length = consumed.length + 1 := fun b => List.length_append
    show RunEnds m start _ consumed ((m.read? (start + consumed.length.toUInt32)).bind _)
    rcases Nat.lt_or_ge (start + consumed.length.toUInt32).toNat m.size with hlt | hge
    · rw [read?_of_lt hlt]
      generalize m.get (start + consumed.length.toUInt32) = b
      have h := ih b (consumed ++ [b])
      show RunEnds m start _ consumed ((next b).run m.read? start (consumed ++ [b]))
      generalize (next b).run m.read? start (consumed ++ [b]) = r at h ⊢
      cases h with
      | done rest a hf hin =>
        rw [hlen] at hin
        rw [List.append_assoc]
        exact .done (b :: rest) a hf (hin.cons hlt)
      | illegal rest hf hin =>
        rw [hlen] at hin
        rw [List.append_assoc]
        exact .illegal (b :: rest) hf (hin.cons hlt)
      | outside rest next' hf hin hout =>
        have e : consumed.length + 1 + rest.length = consumed.length + (b :: rest).length := by simp; omega
        rw [hlen] at hin hout ⊢
        rw [e] at hout ⊢
        exact .outside (b :: rest) next' hf (hin.cons hlt) hout
    · rw [read?_of_le hge]
      exact .outside [] next rfl (by rintro _ ⟨⟩) hge

private theorem decode_eq (m : Memory) (pc : UInt32) :
    Instruction.decode m.read? pc =
      ((Decoding.operation (Address.even pc)).run m.read? (Address.even pc) []).map
        fun (op, bytes) => ⟨Address.even pc, op, bytes⟩ := by
  show Except.bind _ _ = _
  cases (Decoding.operation (Address.even pc)).run m.read? (Address.even pc) [] <;> rfl

/-- Bytes from an even address on that lie in the memory end in it. -/
private theorem Inside.fits {n : Nat} (h : Inside m (Address.even pc) 0 n) (hn : n ≤ 10) (hpos : 0 < n) :
    (Address.even pc).toNat + n ≤ m.size := by
  have hlt := Address.even_lt pc
  have hlast := h (n - 1) (by omega)
  unfold Address.spaceSize at hlt
  rw [Nat.zero_add, toNat_add_of_lt (by omega)] at hlast
  omega

/-- An instruction that is decoded from a memory lies in it. -/
theorem decode_image {i : Instruction} (h : Instruction.decode m.read? pc = .ok i) :
    i.addr = Address.even pc ∧ Decoding.Whole i.bytes.length i.op ∧ i.addr.toNat + i.bytes.length ≤ m.size := by
  have hends := run_ends m (Address.even pc) (Decoding.operation (Address.even pc)) []
  rw [decode_eq] at h
  generalize (Decoding.operation (Address.even pc)).run m.read? (Address.even pc) [] = r at h hends
  cases hends with
  | done rest op hf hin =>
    cases h
    have hw : Decoding.Whole (0 + rest.length) op := (Decoding.operation_ends _).feed hf
    rw [Nat.zero_add] at hw
    exact ⟨rfl, hw, hin.fits hw.2.2 (Nat.lt_of_lt_of_le Nat.two_pos hw.2.1)⟩
  | illegal | outside => cases h

/-- Bytes that begin no instruction are two at least, and lie in the memory. -/
theorem decode_image_illegal {a : UInt32} {bytes : List UInt8}
    (h : Instruction.decode m.read? pc = .error (.illegalInstruction a bytes)) :
    a = Address.even pc ∧ (Address.even pc).toNat + 2 ≤ m.size := by
  have hends := run_ends m (Address.even pc) (Decoding.operation (Address.even pc)) []
  rw [decode_eq] at h
  generalize (Decoding.operation (Address.even pc)).run m.read? (Address.even pc) [] = r at h hends
  cases hends with
  | illegal rest hf hin =>
    cases h
    have htwo := Decoding.two_of_illegal hf
    have hle : 0 + rest.length ≤ 10 := (Decoding.operation_ends _).feed hf
    have hfits := hin.fits (by omega) (by omega)
    exact ⟨rfl, by omega⟩
  | done | outside => cases h

/-- A fetch that fails does so at the first byte outside the memory, before the tenth. -/
theorem decode_image_outside {a : UInt32} {access : Access}
    (h : Instruction.decode m.read? pc = .error (.outOfRange a access)) :
    a = m.edge (Address.even pc) ∧ access = ⟨.read, 8⟩ ∧ m.size < (Address.even pc).toNat + 10 := by
  have hends := run_ends m (Address.even pc) (Decoding.operation (Address.even pc)) []
  rw [decode_eq] at h
  generalize (Decoding.operation (Address.even pc)).run m.read? (Address.even pc) [] = r at h hends
  cases hends with
  | outside rest next hf hin hout =>
    cases h
    have hends : ((Decoding.byte next).Ends Decoding.Whole (0 + rest.length)) := (Decoding.operation_ends _).feed hf
    have hlen : rest.length + 1 ≤ 10 := by
      have := (hends 0).le fun n _ hw => hw.2.2
      omega
    have hlt := Address.even_lt pc
    unfold Address.spaceSize at hlt
    have hroom : (Address.even pc).toNat + rest.length < 2 ^ 32 := by omega
    rw [List.length_nil, Nat.zero_add] at hout ⊢
    have hnat := toNat_add_of_lt hroom
    refine ⟨?_, rfl, by omega⟩
    rcases Nat.eq_zero_or_pos rest.length with hzero | hpos
    · rw [hzero] at hout ⊢
      have e : Address.even pc + (0 : Nat).toUInt32 = Address.even pc := UInt32.add_zero _
      rw [e] at hout ⊢
      exact (edge_of_le hout).symm
    · rw [← edge_add (hin.fits (by omega) hpos) hroom, edge_of_le hout]
  | done | illegal => cases h

end Memory

namespace Listing

variable {o : Options} {m : Memory}

/-! ### Tiles -/

/-- A line shows what lies at an address: the instruction that is decoded exactly there, or a word of which no instruction
begins.  The next line belongs at the address after it. -/
inductive LineAt (o : Options) (m : Memory) (a : Nat) : String → Nat → Prop where
  | instruction (i : Instruction) : Instruction.decode m.read? a.toUInt32 = .ok i → i.addr.toNat = a →
      2 ≤ i.bytes.length → i.bytes.length % 2 = 0 → a + i.bytes.length ≤ m.size →
      LineAt o m a (line o i) (a + i.bytes.length)
  | word (bytes : List UInt8) :
      Instruction.decode m.read? a.toUInt32 = .error (.illegalInstruction a.toUInt32 bytes) → a + 2 ≤ m.size →
      LineAt o m a (wordLine a.toUInt32 (m.get a.toUInt32) (m.get (a + 1).toUInt32)) (a + 2)

/-- Lines that follow each other without gaps, from an address to another. -/
inductive Tiles (o : Options) (m : Memory) : Nat → List String → Nat → Prop where
  | nil (a : Nat) : Tiles o m a [] a
  | cons {a b c : Nat} {l : String} {ls : List String} :
      LineAt o m a l b → Tiles o m b ls c → Tiles o m a (l :: ls) c

/-- Addresses go up from line to line, and stay in the memory. -/
theorem LineAt.next {a b : Nat} {l : String} (h : LineAt o m a l b) : a < b ∧ b ≤ m.size ∧ b % 2 = a % 2 := by
  cases h with
  | instruction i _ _ htwo heven hin => exact ⟨by omega, hin, by omega⟩
  | word _ _ hin => exact ⟨by omega, hin, by omega⟩

/-- What a listing shows past the end of a memory that fills the address space: the instruction at zero, or a word of zeros
if none begins there. -/
inductive Around (o : Options) (m : Memory) : String → Prop where
  | instruction (i : Instruction) : Instruction.decode m.read? 0 = .ok i → i.addr = 0 → Around o m (line o i)
  | word (bytes : List UInt8) : Instruction.decode m.read? 0 = .error (.illegalInstruction 0 bytes) →
      Around o m (wordLine 0x1000000 0 0)

/-- Why a chain of lines ends at an address with so many lines to go, and the lines that come after it. -/
inductive Closes (o : Options) (m : Memory) : Nat → Nat → List String → Prop where
  /-- No line is to go. -/
  | full (stop : Nat) : Closes o m 0 stop []
  /-- The fetch at the address runs past the end of the memory. -/
  | outside (left stop : Nat) : stop < Address.spaceSize → m.size < stop + 10 →
      Instruction.decode m.read? stop.toUInt32 = .error (.outOfRange (m.edge stop.toUInt32) ⟨.read, 8⟩) →
      Closes o m (left + 1) stop []
  /-- The address is the end of a memory that fills the address space, and the listing goes on. -/
  | around (left : Nat) {l : String} (ls : List String) : m.size = Address.spaceSize → Around o m l →
      Closes o m (left + 1) Address.spaceSize (l :: ls)

private theorem shownByte_of_lt {addr : UInt32} (h : addr.toNat < m.size) : shownByte m addr = m.get addr := by
  unfold shownByte
  rw [Memory.read?_of_lt h]

private theorem shownByte_of_le {addr : UInt32} (h : m.size ≤ addr.toNat) : shownByte m addr = 0 := by
  unfold shownByte
  rw [Memory.read?_of_le h]

/-- Past the end of the address space the decoder is back at zero. -/
private theorem linesFrom_around (hm : m.size = Address.spaceSize) (left : Nat) :
    ∃ l ls, linesFrom o m (left + 1) 0x1000000 = l :: ls ∧ Around o m l := by
  have hzero : Instruction.decode m.read? 0x1000000 = Instruction.decode m.read? 0 := rfl
  unfold linesFrom
  rw [hzero]
  cases hd : Instruction.decode m.read? 0 with
  | ok i => exact ⟨_, _, rfl, .instruction i hd (Memory.decode_image hd).1⟩
  | error e =>
    cases e with
    | illegalInstruction a bytes =>
      obtain ⟨rfl, -⟩ := Memory.decode_image_illegal hd
      have hout : m.size ≤ (0x1000000 : UInt32).toNat := Nat.le_of_eq hm
      have hout' : m.size ≤ (0x1000000 + 1 : UInt32).toNat := by rw [hm]; decide
      refine ⟨_, _, rfl, ?_⟩
      rw [shownByte_of_le hout, shownByte_of_le hout']
      exact .word bytes hd
    | outOfRange a access =>
      obtain ⟨-, -, hlt⟩ := Memory.decode_image_outside hd
      rw [hm] at hlt
      exact absurd hlt (by decide)

/-- The lines from an even address on. -/
private theorem linesFrom_tiles (o : Options) {addr : UInt32} (heven : addr.toNat % 2 = 0)
    (haddr : addr.toNat < Address.spaceSize ∨ addr.toNat = Address.spaceSize ∧ m.size = Address.spaceSize)
    (hm : m.size ≤ Address.spaceSize) (count : Nat) :
    ∃ lines stop left rest, linesFrom o m count addr = lines ++ rest ∧ count = lines.length + left ∧
      Tiles o m addr.toNat lines stop ∧ Closes o m left stop rest := by
  induction count generalizing addr with
  | zero => exact ⟨[], addr.toNat, 0, [], rfl, rfl, .nil _, .full _⟩
  | succ count ih =>
    have hback : addr.toNat.toUInt32 = addr := UInt32.ofNat_toNat
    rcases haddr with hlt | ⟨hend, hsize⟩
    · have hself := Address.even_of_even heven hlt
      -- the line at an address that is followed by another, and what is listed from there
      have goOn : ∀ {l : String} (next : UInt32), LineAt o m addr.toNat l next.toNat →
          linesFrom o m (count + 1) addr = l :: linesFrom o m count next →
          ∃ lines stop left rest, linesFrom o m (count + 1) addr = lines ++ rest ∧ count + 1 = lines.length + left ∧
            Tiles o m addr.toNat lines stop ∧ Closes o m left stop rest := by
        intro l next hline heq
        obtain ⟨hup, hin, hsame⟩ := hline.next
        have hplace : next.toNat < Address.spaceSize ∨ next.toNat = Address.spaceSize ∧ m.size = Address.spaceSize := by
          omega
        obtain ⟨lines, stop, left, rest, hlines, hcount, htiles, hcloses⟩ := ih (by omega) hplace
        exact ⟨l :: lines, stop, left, rest, by rw [heq, hlines]; rfl, by simp; omega, .cons hline htiles, hcloses⟩
      cases hd : Instruction.decode m.read? addr with
      | ok i =>
        obtain ⟨ha, hw, hin⟩ := Memory.decode_image hd
        rw [hself] at ha
        have hnext := hw.nextPc_toNat (ha ▸ hlt)
        rw [ha] at hnext hin
        refine goOn i.nextPc ?_ (by rw [linesFrom, hd])
        rw [hnext]
        exact .instruction i (by rw [hback]; exact hd) (by rw [ha]) hw.2.1 hw.1 hin
      | error e =>
        cases e with
        | illegalInstruction a bytes =>
          obtain ⟨ha, hin⟩ := Memory.decode_image_illegal hd
          rw [hself] at ha hin
          have hroom : addr.toNat + 2 < 2 ^ 32 := by unfold Address.spaceSize at hlt; omega
          have h₂ : (addr + 2).toNat = addr.toNat + 2 := Memory.toNat_add_of_lt (k := 2) hroom
          have h₁ : (addr + 1).toNat = addr.toNat + 1 := Memory.toNat_add_of_lt (k := 1) (by omega)
          have hone : (addr.toNat + 1).toUInt32 = addr + 1 := by rw [← h₁]; exact UInt32.ofNat_toNat
          refine goOn (addr + 2) ?_ (by rw [linesFrom, hd])
          have hword := LineAt.word (o := o) (m := m) (a := addr.toNat) bytes (by rw [hback, hd, ha]) hin
          rw [hback, hone] at hword
          rw [h₂, shownByte_of_lt (by omega), shownByte_of_lt (by omega)]
          exact hword
        | outOfRange a access =>
          obtain ⟨ha, haccess, hout⟩ := Memory.decode_image_outside hd
          rw [hself] at ha hout
          refine ⟨[], addr.toNat, count + 1, [], by rw [linesFrom, hd]; rfl, by simp, .nil _, ?_⟩
          exact .outside count addr.toNat hlt hout (by rw [hback, hd, ha, haccess])
    · have haddr : addr = 0x1000000 := UInt32.toNat_inj.1 hend
      obtain ⟨l, ls, heq, haround⟩ := linesFrom_around (o := o) hsize count
      refine ⟨[], addr.toNat, count + 1, l :: ls, by rw [haddr, heq]; rfl, by simp, .nil _, ?_⟩
      rw [hend]
      exact .around count ls hsize haround

/-- A listing is a chain of lines without gaps from the even start on, each of which shows what lies exactly at its address,
until it has all its lines or the next fetch runs past the end of the memory.  Only where the chain comes to the end of a
memory that fills the address space with lines to go, more lines follow it, the first of which shows what lies at zero. -/
theorem listing_tiles (o : Options) {m : Memory} (hm : m.size ≤ Address.spaceSize) (addr : UInt32) (count : Nat) :
    ∃ lines stop left rest, listing o m addr count = lines ++ rest ∧ count = lines.length + left ∧
      Tiles o m (Address.even addr).toNat lines stop ∧ Closes o m left stop rest :=
  linesFrom_tiles o (Address.even_mod_two addr) (.inl (Address.even_lt addr)) hm count

/-- A memory of zeros. -/
def zeros (size : Nat) : Memory := { size := size }

private theorem read?_zeros {size : Nat} {a : UInt32} (h : a.toNat < size) : (zeros size).read? a = .ok 0 := by
  rw [Memory.read?_of_lt (show a.toNat < (zeros size).size from h)]
  simp [Memory.get, zeros]

private theorem decode_zeros (size : Nat) (pc : UInt32) (h : (Address.even pc).toNat + 2 ≤ size) :
    Instruction.decode (zeros size).read? pc = .ok ⟨Address.even pc, .nop, [0, 0]⟩ := by
  have hnop : Instruction.decode (fun _ => .ok 0) pc = (.ok ⟨Address.even pc, .nop, [0, 0]⟩ : Except Fault Instruction) := rfl
  refine Source.decode_of_agree hnop fun k hk => read?_zeros ?_
  have hk : k < 2 := hk
  have hlt := Address.even_lt pc
  unfold Address.spaceSize at hlt
  rw [Memory.toNat_add_of_lt (by simp only; omega)]
  simp only
  omega

/-- The last word of a small memory is listed, and the listing ends where the memory does. -/
theorem listing_tiles_zeros :
    (zeros 0x100).size ≤ Address.spaceSize ∧ listing {} (zeros 0x100) 0xFF 2 = ["0000FE: NOP"] ∧
      ∃ lines stop left rest, ["0000FE: NOP"] = lines ++ rest ∧ 2 = lines.length + left ∧
        Tiles {} (zeros 0x100) 0xFE lines stop ∧ Closes {} (zeros 0x100) left stop rest := by
  have h₁ := decode_zeros 0x100 0xFE (by decide)
  have h₂ : Instruction.decode (zeros 0x100).read? 0x100 = .error (.outOfRange 0x100 ⟨.read, 8⟩) := rfl
  have hlist : listing {} (zeros 0x100) 0xFF 2 = ["0000FE: NOP"] := by
    show linesFrom {} _ 2 0xFE = _
    rw [linesFrom, h₁]
    show line {} _ :: linesFrom {} _ 1 0x100 = _
    rw [linesFrom, h₂]
    rfl
  have h := listing_tiles {} (m := zeros 0x100) (by decide) 0xFF 2
  rw [hlist] at h
  exact ⟨by decide, hlist, h⟩

/-- In a memory that fills the address space the listing does not end after its last word: a line for the address zero
follows. -/
theorem listing_goes_around :
    listing {} (zeros Address.spaceSize) 0xFFFFFE 2 = ["FFFFFE: NOP", "000000: NOP"] := by
  have h₁ := decode_zeros Address.spaceSize 0xFFFFFE (by decide)
  have h₂ := decode_zeros Address.spaceSize 0x1000000 (by decide)
  show linesFrom {} _ 2 0xFFFFFE = _
  rw [linesFrom, h₁]
  show line {} _ :: linesFrom {} _ 1 0x1000000 = _
  rw [linesFrom, h₂]
  rfl

end Listing

end H8S
