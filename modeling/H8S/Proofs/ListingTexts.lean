import H8S.Proofs.CanonicalEncodings
import H8S.Proofs.CheckedExecution
import H8S.Proofs.Limbs
import H8S.Proofs.ListingReader

/-!
# Texts of decoded operations

Listings are unambiguous: from the text of a decoded operation the operation is read back (`Listing.read_text`), but for the
mark of a long displacement.  The texts of operands are gone through first.  `Spells` says what a text between two commas is
read as, and `Renders` does it for several of them, so that the text of an operation is a mnemonic in front of what its
operands render, with one case for each form of an operation.

Some operations that no encoding has would be written alike.  The operation has to be well formed, and a byte counts up and
down by one (`Operation.StepsByteByOne`), as the amount is not written then.
-/

namespace H8S

open Encoding

/-! ### Digits -/

namespace Hex

theorem digit_mod (n : Nat) : digit (n % 16) = digit n := by
  unfold digit
  rw [Nat.mod_mod]

theorem value_digit (n : Nat) : value (digit n) = n % 16 := by
  have h : ∀ k < 16, value (digit k) = k := by decide
  rw [← digit_mod]
  exact h _ (Nat.mod_lt n (by decide))

theorem number_digits (k n : Nat) : number (digits k n) = n % 16 ^ k := by
  induction k generalizing n with
  | zero => simp [digits, number, Nat.mod_one]
  | succ k ih =>
    have ih := ih (n / 16)
    unfold number at ih ⊢
    rw [digits, List.foldl_append, ih, List.foldl_cons, List.foldl_nil, value_digit, Nat.pow_succ', Nat.mod_mul, Nat.add_comm]

theorem mem_digits {k n : Nat} {c : Char} (h : c ∈ digits k n) : ∃ d < 16, c = digit d := by
  induction k generalizing n with
  | zero => cases h
  | succ k ih =>
    rw [digits, List.mem_append, List.mem_singleton] at h
    rcases h with h | h
    · exact ih h
    · exact ⟨n % 16, Nat.mod_lt n (by decide), by rw [h, digit_mod]⟩

theorem lt_digitCount (n : Nat) : n < 16 ^ digitCount n := by
  have h : Nat.log2 n < 4 * digitCount n := by
    unfold digitCount
    omega
  calc n < 2 ^ (Nat.log2 n + 1) := Nat.lt_log2_self
    _ ≤ 2 ^ (4 * digitCount n) := Nat.pow_le_pow_right (by decide) h
    _ = 16 ^ digitCount n := by rw [Nat.pow_mul]

theorem padded_plain {width n : Nat} {c : Char} (hc : ∀ d < 16, c ≠ digit d) : c ∉ (padded width n).toList := by
  rw [padded, String.toList_ofList]
  intro h
  obtain ⟨d, hd, he⟩ := mem_digits h
  exact hc d hd he

/-- Padding loses nothing. -/
theorem number_padded (width n : Nat) : number (padded width n).toList = n := by
  have h : n < 16 ^ max width (digitCount n) :=
    Nat.lt_of_lt_of_le (lt_digitCount n) (Nat.pow_le_pow_right (by decide) (Nat.le_max_right ..))
  rw [padded, String.toList_ofList, number_digits, Nat.mod_eq_of_lt h]

end Hex

namespace Listing

/-! ### Texts of pieces -/

/-- The text is read as one piece. -/
def Spells (s : String) (p : Piece) : Prop := Piece.read? s.toList = some p ∧ ' ' ∉ s.toList ∧ ',' ∉ s.toList

instance (s : String) (p : Piece) : Decidable (Spells s p) := inferInstanceAs (Decidable (_ ∧ _ ∧ _))

/-- Some signs and a number. -/
theorem spells_hex (head : String) (p : UInt32 → Piece) {width : Nat} (v : UInt32)
    (hhead : ' ' ∉ head.toList ∧ ',' ∉ head.toList)
    (hread : ∀ cs, Piece.read? (head.toList ++ cs) = some (p (Piece.word cs))) :
    Spells (head ++ Hex.padded width v.toNat) (p v) := by
  have hword : Piece.word (Hex.padded width v.toNat).toList = v := by
    unfold Piece.word
    rw [Hex.number_padded]
    exact UInt32.ofNat_toNat
  unfold Spells
  rw [String.toList_append, List.mem_append, List.mem_append, not_or, not_or, hread, hword]
  exact ⟨rfl, ⟨hhead.1, Hex.padded_plain (by decide)⟩, hhead.2, Hex.padded_plain (by decide)⟩

theorem spells_immediate {width : Width} {value : UInt32} (h : value ≤ width.mask) :
    Spells (immediateText width value) (.immediate value) := by
  rw [immediateText, Alu.and_mask h]
  exact spells_hex "#0x" .immediate value (by decide) fun _ => rfl

theorem spells_byteImmediate (value : UInt8) : Spells ("#0x" ++ Hex.byte value) (.immediate value.toUInt32) :=
  spells_hex "#0x" .immediate value.toUInt32 (by decide) fun _ => rfl

theorem spells_target (addr : UInt32) : Spells ("0x" ++ Hex.address addr) (.target addr) :=
  spells_hex "0x" .target addr (by decide) fun _ => rfl

theorem spells_absolute (addr : UInt32) : Spells ("@0x" ++ Hex.address addr) (.place (.absolute addr)) :=
  spells_hex "@0x" (.place ∘ .absolute) addr (by decide) fun _ => rfl

theorem spells_stored (addr : UInt8) : Spells ("@@0x" ++ Hex.minimal addr.toNat) (.stored addr) := by
  have h : Spells ("@@0x" ++ Hex.minimal addr.toNat) (.stored addr.toUInt32.toUInt8) :=
    spells_hex "@@0x" (.stored ∘ UInt32.toUInt8) addr.toUInt32 (by decide) fun _ => rfl
  rwa [UInt8.toUInt8_toUInt32] at h

/-- A negative number is read back from its magnitude, also the least one. -/
theorem spells_displacement (disp : UInt32) : Spells ("@(" ++ signedText disp) (.displacement disp) := by
  unfold signedText
  split
  · rw [← String.append_assoc]
    exact spells_hex ("@(" ++ "0x") .displacement disp (by decide) fun _ => rfl
  · have h : Spells ("@(" ++ "-0x" ++ Hex.minimal (0 - disp).toNat) (.displacement (0 - (0 - disp))) :=
      spells_hex ("@(" ++ "-0x") (fun v => .displacement (0 - v)) (0 - disp) (by decide) fun _ => rfl
    have hback : 0 - (0 - disp) = disp := by simp
    rwa [hback, String.append_assoc] at h

theorem spells_byteRegister : ∀ id, id < 16 → Spells (byteRegister id) (.register .byte id) :=
  forall_byte (by decide)

theorem spells_wordRegister : ∀ id, id < 16 → Spells (wordRegister id) (.register .word id) :=
  forall_byte (by decide)

/-- Counts have one digit. -/
theorem spells_count : ∀ n, n < 8 → Spells ("#" ++ toString n.toNat) (.count n) := forall_byte (by decide)

/-- The name of a long register ends in its number. -/
theorem longRegister_spelled : ∀ r, r < 8 →
    ∃ d, (longRegister r).toList = ['E', 'R', d] ∧ Piece.id d = r ∧ ' ' ≠ d ∧ ',' ≠ d := by
  have h : ∀ r, r < 8 → (longRegister r).toList = ['E', 'R', Hex.digit r.toNat] ∧
      Piece.id (Hex.digit r.toNat) = r ∧ ' ' ≠ Hex.digit r.toNat ∧ ',' ≠ Hex.digit r.toNat :=
    forall_byte (by decide)
  exact fun r hr => ⟨_, h r hr⟩

/-- A long register with signs on both sides. -/
theorem spells_around (head tail : String) (p : UInt8 → Piece) {r : UInt8} (h : r < 8)
    (hplain : ' ' ∉ (head ++ tail).toList ∧ ',' ∉ (head ++ tail).toList)
    (hread : ∀ d, Piece.read? (head.toList ++ 'E' :: 'R' :: d :: tail.toList) = some (p (Piece.id d))) :
    Spells (head ++ longRegister r ++ tail) (p r) := by
  obtain ⟨d, htext, hid, hspace, hcomma⟩ := longRegister_spelled r h
  have hread := hread d
  rw [hid] at hread
  refine ⟨by simpa [htext] using hread, ?_, ?_⟩
  · simpa [htext, hspace] using hplain.1
  · simpa [htext, hcomma] using hplain.2

/-- A long register after some signs. -/
theorem spells_after (head : String) (p : UInt8 → Piece) {r : UInt8} (h : r < 8)
    (hplain : ' ' ∉ head.toList ∧ ',' ∉ head.toList)
    (hread : ∀ d, Piece.read? (head.toList ++ ['E', 'R', d]) = some (p (Piece.id d))) :
    Spells (head ++ longRegister r) (p r) := by
  have h : Spells (head ++ longRegister r ++ "") (p r) := spells_around head "" p h (by simpa using hplain) hread
  simpa using h

section Pointers

variable {r : UInt8} (h : r < 8)

include h

theorem spells_longRegister : Spells (longRegister r) (.register .long r) := by
  have h : Spells ("" ++ longRegister r) (.register .long r) := spells_after "" (.register .long) h (by decide) fun _ => rfl
  simpa using h

theorem spells_indirect : Spells ("@" ++ longRegister r) (.place (.indirect r)) :=
  spells_after "@" (.place ∘ .indirect) h (by decide) fun _ => rfl

theorem spells_postInc : Spells ("@" ++ longRegister r ++ "+") (.place (.postInc r)) :=
  spells_around "@" "+" (.place ∘ .postInc) h (by decide) fun _ => rfl

theorem spells_preDec : Spells ("@-" ++ longRegister r) (.place (.preDec r)) :=
  spells_after "@-" (.place ∘ .preDec) h (by decide) fun _ => rfl

theorem spells_base : Spells (longRegister r ++ ")") (.base r) := by
  have h : Spells ("" ++ longRegister r ++ ")") (.base r) := spells_around "" ")" .base h (by decide) fun _ => rfl
  simpa using h

theorem spells_range {last : UInt8} (hl : last < 8) : Spells (registerRange r last) (.range r last) := by
  obtain ⟨d, hd, rfl, hspace, hcomma⟩ := longRegister_spelled r h
  obtain ⟨e, he, rfl, hspace', hcomma'⟩ := longRegister_spelled last hl
  have htext : (registerRange (Piece.id d) (Piece.id e)).toList = ['(', 'E', 'R', d, '-', 'E', 'R', e, ')'] := by
    simp [registerRange, hd, he]
  unfold Spells
  rw [htext]
  refine ⟨rfl, ?_, ?_⟩
  · simp [hspace, hspace']
  · simp [hcomma, hcomma']

end Pointers

theorem spells_register {width : Width} {id : UInt8} (h : id < width.views) :
    Spells (registerOf width id) (.register width id) := by
  cases width with
  | byte => exact spells_byteRegister id h
  | word => exact spells_wordRegister id h
  | long => exact spells_longRegister h

theorem spells_control (reg : ControlReg) : Spells (controlName reg) (.control reg) := by
  cases reg with
  | ccr => decide
  | exr => decide

/-! ### Texts of operands -/

theorem splitOn_absent {c : Char} {cs : List Char} (h : c ∉ cs) : cs.splitOn c = [cs] :=
  List.splitOnP_eq_singleton fun _ hd => beq_eq_false_iff_ne.2 fun he => h (he ▸ hd)

theorem splitOn_append (c : Char) (cs ds : List Char) : (cs ++ c :: ds).splitOn c = cs.splitOn c ++ ds.splitOn c :=
  List.splitOnP_append_cons cs ds (beq_self_eq_true c)

/-- The text has no space, and what lies between its commas is read as these pieces. -/
def Parts (s : String) (ps : List Piece) : Prop :=
  ' ' ∉ s.toList ∧ (s.toList.splitOn ',').mapM Piece.read? = some ps

/-- The text is read as these pieces, with its displacements put together with their bases, whatever comes after it. -/
def Renders (s : String) (ps : List Piece) : Prop :=
  ∃ qs, Parts s qs ∧ ∀ rest, Piece.merged (qs ++ rest) = ps ++ Piece.merged rest

section Parts

variable {s a b : String} {p : Piece} {ps qs : List Piece}

theorem Spells.parts (h : Spells s p) : Parts s [p] := by
  refine ⟨h.2.1, ?_⟩
  rw [splitOn_absent h.2.2, List.mapM_cons, h.1]
  rfl

theorem Parts.comma (ha : Parts a ps) (hb : Parts b qs) : Parts (a ++ "," ++ b) (ps ++ qs) := by
  have htext : (a ++ "," ++ b).toList = a.toList ++ ',' :: b.toList := by simp
  unfold Parts
  rw [htext, splitOn_append, List.mapM_append, ha.2, hb.2]
  exact ⟨by simp [ha.1, hb.1], rfl⟩

theorem Spells.renders (h : Spells s p) (hp : p.awaitsBase = false) : Renders s [p] := by
  refine ⟨[p], h.parts, fun rest => ?_⟩
  cases p with
  | displacement disp => cases hp
  | _ => rfl

theorem Renders.comma (ha : Renders a ps) (hb : Renders b qs) : Renders (a ++ "," ++ b) (ps ++ qs) := by
  obtain ⟨xs, hxs, hps⟩ := ha
  obtain ⟨ys, hys, hqs⟩ := hb
  refine ⟨xs ++ ys, hxs.comma hys, fun rest => ?_⟩
  rw [List.append_assoc, hps, hqs, List.append_assoc]

end Parts

section Operands

variable {o : Options} {width : Width}

theorem renders_mem (ho : o.symbolicNames = false) {m : MemOperand} (h : m.WellFormed) :
    Renders (memText o m) [.place m] := by
  cases m with
  | indirect r => exact (spells_indirect h).renders rfl
  | postInc r => exact (spells_postInc h).renders rfl
  | preDec r => exact (spells_preDec h).renders rfl
  | displaced disp base =>
    refine ⟨[.displacement disp, .base base], ?_, fun _ => rfl⟩
    have htext : memText o (.displaced disp base) = "@(" ++ signedText disp ++ "," ++ (longRegister base ++ ")") := by
      simp [memText, String.append_assoc]
    rw [htext]
    exact (spells_displacement disp).parts.comma (spells_base h).parts
  | absolute addr =>
    have htext : memText o (.absolute addr) = "@0x" ++ Hex.address addr := by simp [memText, addressText, ho]
    rw [htext]
    exact (spells_absolute addr).renders rfl

theorem renders_operand (ho : o.symbolicNames = false) {x : Operand} (h : x.WellFormed width) :
    ∃ p, Renders (operandText o width x) [p] ∧ p.operand? = some x := by
  cases x with
  | reg id => exact ⟨_, (spells_register h).renders rfl, rfl⟩
  | imm value => exact ⟨_, (spells_immediate h).renders rfl, rfl⟩
  | mem m => exact ⟨_, renders_mem ho h, rfl⟩

theorem renders_bitNumber {n : BitNumber} (h : n.WellFormed) :
    ∃ p, Renders (bitNumberText n) [p] ∧ p.bitNumber? = some n := by
  cases n with
  | imm n => exact ⟨_, (spells_count n h).renders rfl, rfl⟩
  | reg id => exact ⟨_, (spells_byteRegister id h).renders rfl, rfl⟩

theorem renders_bitTarget (ho : o.symbolicNames = false) {x : BitTarget} (h : x.WellFormed) :
    ∃ p, Renders (bitTargetText o x) [p] ∧ p.bitTarget? = some x := by
  cases x with
  | reg id => exact ⟨_, (spells_byteRegister id h).renders rfl, rfl⟩
  | mem m => exact ⟨_, renders_mem ho h, rfl⟩

theorem renders_jumpTarget {x : JumpTarget} (h : x.WellFormed) :
    ∃ p, Renders (jumpText x) [p] ∧ p.jumpTarget? = some x := by
  cases x with
  | indirect r => exact ⟨_, (spells_indirect h).renders rfl, rfl⟩
  | absolute addr => exact ⟨_, (spells_absolute addr).renders rfl, rfl⟩
  | stored addr => exact ⟨_, (spells_stored addr).renders rfl, rfl⟩

end Operands

/-! ### Lines -/

/-- The text is a mnemonic. -/
def Names (s : String) (head : Stem × Option Width) : Prop := mnemonic? s.toList = some head ∧ ' ' ∉ s.toList

theorem Stem.name_plain (stem : Stem) : '.' ∉ stem.name.toList ∧ ' ' ∉ stem.name.toList := by
  have h : ∀ stem ∈ all, '.' ∉ stem.name.toList ∧ ' ' ∉ stem.name.toList := by decide
  exact h stem (mem_all stem)

theorem names_stem (stem : Stem) : Names stem.name (stem, none) := by
  obtain ⟨hpoint, hspace⟩ := stem.name_plain
  have hfind := Stem.find?_all stem (Stem.mem_all stem)
  refine ⟨?_, hspace⟩
  simp only [mnemonic?, splitOn_absent hpoint, hfind]
  rfl

theorem names_sized (stem : Stem) (width : Width) : Names (sized stem.name width) (stem, some width) := by
  obtain ⟨hpoint, hspace⟩ := stem.name_plain
  have hfind := Stem.find?_all stem (Stem.mem_all stem)
  have hsuffix : '.' ∉ width.suffix.toList ∧ ' ' ∉ width.suffix.toList ∧ widthOf? width.suffix.toList = some width := by
    cases width <;> decide
  have htext : (sized stem.name width).toList = stem.name.toList ++ '.' :: width.suffix.toList := by simp [sized]
  unfold Names mnemonic?
  rw [htext, splitOn_append, splitOn_absent hpoint, splitOn_absent hsuffix.1]
  constructor
  · simp [hfind, hsuffix.2.2]
  · simp [hspace, hsuffix.2.1]

variable {head : Stem × Option Width} {m a t : String} {ps : List Piece}

theorem read_bare (hm : Names m head) : read m = assemble head [] := by
  unfold read
  rw [splitOn_absent hm.2]
  simp [hm.1]

theorem read_line (hm : Names m head) (ha : Renders a ps) (ht : t.toList = m.toList ++ ' ' :: a.toList) :
    read t = assemble head ps := by
  obtain ⟨qs, ⟨hspace, hqs⟩, hmerged⟩ := ha
  have hps : Piece.merged qs = ps := by simpa [Piece.merged] using hmerged []
  unfold read
  rw [ht, splitOn_append, splitOn_absent hm.2, splitOn_absent hspace]
  simp [hm.1, hqs, hps]

/-! ### Operations -/

end Listing

/-- Bytes count up and down by one. -/
def Operation.StepsByteByOne : Operation → Prop
  | .inc .byte amount _ | .dec .byte amount _ => amount = 1
  | _ => True

namespace Decoding

variable {start : UInt32}

private theorem feed_byteOrLongs (one : UInt8 → Operation) (two : UInt8 → UInt8 → Operation) {dst : UInt8}
    (hd : dst < 16) : (byteOrLongs one two).feed [dst] = some (done (one dst)) := by
  have h : ∀ b : UInt8, b < 16 → topBit b = false ∧ highNibble b = 0 ∧ lowNibble b = b := forall_byte (by decide)
  obtain ⟨htop, hhigh, hlow⟩ := h dst hd
  rw [byteOrLongs, feed_next, htop, hhigh, hlow]
  rfl

/-- The encoding of a byte counted up or down has its register only. -/
theorem operation_stepsByteByOne : Leaves (fun _ op => op.StepsByteByOne) [] (operation start) := by
  have hleaves : Leaves (fun _ op => op.WellFormed) [] (operation start) := operation_wellFormed
  refine leaves_iff_feed.2 fun rest op hfeed => ?_
  have hcanonical : op.Canonical start rest := leaves_iff_feed.1 (operation_canonical start) rest op hfeed
  have hformed : op.WellFormed := leaves_iff_feed.1 hleaves rest op hfeed
  cases op with
  | inc width amount dst =>
    cases width with
    | byte =>
      have hbytes : [0x0A, dst] = rest := hcanonical
      have hone : (operation start).feed [0x0A, dst] = some (done (.inc .byte 1 dst)) :=
        feed_byteOrLongs (.inc .byte 1) (fun src dst => .alu .add .long (.reg src) dst) hformed.2
      rw [← hbytes, hone] at hfeed
      cases hfeed
      rfl
    | word => trivial
    | long => trivial
  | dec width amount dst =>
    cases width with
    | byte =>
      have hbytes : [0x1A, dst] = rest := hcanonical
      have hone : (operation start).feed [0x1A, dst] = some (done (.dec .byte 1 dst)) :=
        feed_byteOrLongs (.dec .byte 1) (fun src dst => .alu .sub .long (.reg src) dst) hformed.2
      rw [← hbytes, hone] at hfeed
      cases hfeed
      rfl
    | word => trivial
    | long => trivial
  | _ => trivial

end Decoding

namespace Listing

section Operations

variable {o : Options} {width : Width}

theorem read_move (ho : o.symbolicNames = false) {src dst : Operand} (hs : src.WellFormed width)
    (hd : dst.WellFormed width) : read (moveText o width src dst) = some (.mov width src dst) := by
  have hplain : read (sized "MOV" width ++ " " ++ operandText o width src ++ "," ++ operandText o width dst) =
      some (.mov width src dst) := by
    obtain ⟨p, hp, hsrc⟩ := renders_operand ho hs
    obtain ⟨q, hq, hdst⟩ := renders_operand ho hd
    rw [read_line (names_sized .mov width) (hp.comma hq) (by simp [Stem.name])]
    show (do return Operation.mov width (← p.operand?) (← q.operand?)) = _
    rw [hsrc, hdst]
    rfl
  unfold moveText
  split
  · split
    · obtain ⟨-, rfl⟩ := ‹_ ∧ _›
      exact read_line (names_sized .push width) ((spells_register hs).renders rfl) (by simp [Stem.name])
    · exact hplain
  · split
    · obtain ⟨-, rfl⟩ := ‹_ ∧ _›
      exact read_line (names_sized .pop width) ((spells_register hd).renders rfl) (by simp [Stem.name])
    · exact hplain
  · exact hplain

theorem read_loadControl (ho : o.symbolicNames = false) {src : Operand} (hs : src.WellFormed .byte) (dst : ControlReg) :
    read (loadControlText o src dst) = some (.ldc src dst) := by
  have hdst := (spells_control dst).renders rfl
  cases src with
  | reg id =>
    have hid := (spells_byteRegister id hs).renders rfl
    exact read_line (names_sized .ldc .byte) (hid.comma hdst)
      (by simp [loadControlText, sized, Stem.name, Width.suffix])
  | imm value =>
    have himm := (spells_byteImmediate value.toUInt8).renders rfl
    rw [Encoding.byte_of_mask hs] at himm
    exact read_line (names_stem .ldc) (himm.comma hdst) (by simp [loadControlText, Stem.name])
  | mem m =>
    exact read_line (names_sized .ldc .word) ((renders_mem ho hs).comma hdst)
      (by simp [loadControlText, sized, Stem.name, Width.suffix])

theorem read_storeControl (ho : o.symbolicNames = false) (src : ControlReg) {dst : Operand} (hd : dst.WellFormed .byte)
    (hplace : dst.IsPlace) : read (storeControlText o src dst) = some (.stc src dst) := by
  have hsrc := (spells_control src).renders rfl
  cases dst with
  | reg id =>
    have hid := (spells_byteRegister id hd).renders rfl
    exact read_line (names_sized .stc .byte) (hsrc.comma hid)
      (by simp [storeControlText, operandText, registerOf, sized, Stem.name, Width.suffix])
  | imm value => exact hplace.elim
  | mem m =>
    exact read_line (names_sized .stc .word) (hsrc.comma (renders_mem ho hd))
      (by simp [storeControlText, sized, Stem.name, Width.suffix])

theorem renders_step {amount dst : UInt8} (ha : amount = 1 ∨ amount = 2) (hd : dst < width.views) :
    Renders (stepText width amount dst)
      (if width = .byte then [.register width dst] else [.count amount, .register width dst]) := by
  have hdst := (spells_register hd).renders rfl
  unfold stepText
  split
  · exact hdst
  · have hcount : amount < 8 := by rcases ha with rfl | rfl <;> decide
    exact .comma ((spells_count amount hcount).renders rfl) hdst

theorem renders_counted {amount dst : UInt8} (ha : amount = 1 ∨ amount = 2 ∨ amount = 4) (hd : dst < 8) :
    Renders ("#" ++ toString amount.toNat ++ "," ++ longRegister dst) [.count amount, .register .long dst] := by
  have hcount : amount < 8 := by rcases ha with rfl | rfl | rfl <;> decide
  exact .comma ((spells_count amount hcount).renders rfl) ((spells_longRegister hd).renders rfl)

/-- From the text of an operation the operation is read back. -/
theorem read_text (ho : o.symbolicNames = false) {op : Operation} (h : op.WellFormed) (hstep : op.StepsByteByOne) :
    read (text o op) = some op.narrowed := by
  cases op with
  | nop => exact read_bare (names_stem .nop)
  | sleep => exact read_bare (names_stem .sleep)
  | rts => exact read_bare (names_stem .rts)
  | rte => exact read_bare (names_stem .rte)
  | mov width src dst => exact read_move ho h.1 h.2.1
  | alu op width src dst =>
    obtain ⟨p, hp, hsrc⟩ := renders_operand ho h.1
    have hreg := (spells_register h.2).renders rfl
    rw [read_line (names_sized (.alu op) width) (hp.comma hreg) (by simp [text, Stem.name])]
    show (do return Operation.alu op width (← p.operand?) dst) = _
    rw [hsrc]
    rfl
  | adds amount dst => exact read_line (names_stem .adds) (renders_counted h.1 h.2) (by simp [text, Stem.name])
  | subs amount dst => exact read_line (names_stem .subs) (renders_counted h.1 h.2) (by simp [text, Stem.name])
  | inc width amount dst =>
    rw [read_line (names_sized .inc width) (renders_step h.1 h.2) (by simp [text, Stem.name])]
    cases width with
    | byte =>
      obtain rfl : amount = 1 := hstep
      rfl
    | word => rfl
    | long => rfl
  | dec width amount dst =>
    rw [read_line (names_sized .dec width) (renders_step h.1 h.2) (by simp [text, Stem.name])]
    cases width with
    | byte =>
      obtain rfl : amount = 1 := hstep
      rfl
    | word => rfl
    | long => rfl
  | unary op width dst =>
    exact read_line (names_sized (.unary op) width) ((spells_register h).renders rfl) (by simp [text, Stem.name])
  | daa dst => exact read_line (names_stem .daa) ((spells_byteRegister dst h).renders rfl) (by simp [text, Stem.name])
  | das dst => exact read_line (names_stem .das) ((spells_byteRegister dst h).renders rfl) (by simp [text, Stem.name])
  | mulDiv op width src dst =>
    have hsrc := (spells_register h.2.1).renders rfl
    have hdst := (spells_register h.2.2).renders rfl
    exact read_line (names_sized (.mulDiv op) width) (hsrc.comma hdst) (by simp [text, Stem.name])
  | shift op width count dst =>
    have hdst := (spells_register h.2).renders rfl
    rcases h.1 with rfl | rfl
    · exact read_line (names_sized (.shift op) width) hdst (by simp [text, Stem.name])
    · have hcount := (spells_count 2 (by decide)).renders rfl
      exact read_line (names_sized (.shift op) width) (hcount.comma hdst) (by simp [text, Stem.name])
  | bit op number target =>
    obtain ⟨p, hp, hnumber⟩ := renders_bitNumber h.1
    obtain ⟨q, hq, htarget⟩ := renders_bitTarget ho h.2
    rw [read_line (names_stem (.bit op)) (hp.comma hq) (by simp [text, Stem.name])]
    show (do return Operation.bit op (← p.bitNumber?) (← q.bitTarget?)) = _
    rw [hnumber, htarget]
    rfl
  | bcc cond target wide =>
    exact read_line (names_stem (.branch cond)) ((spells_target target).renders rfl) (by simp [text, Stem.name])
  | bsr target wide => exact read_line (names_stem .bsr) ((spells_target target).renders rfl) (by simp [text, Stem.name])
  | jmp target =>
    obtain ⟨p, hp, htarget⟩ := renders_jumpTarget h
    rw [read_line (names_stem .jmp) hp (by simp [text, Stem.name])]
    show (do return Operation.jmp (← p.jumpTarget?)) = _
    rw [htarget]
    rfl
  | jsr target =>
    obtain ⟨p, hp, htarget⟩ := renders_jumpTarget h
    rw [read_line (names_stem .jsr) hp (by simp [text, Stem.name])]
    show (do return Operation.jsr (← p.jumpTarget?)) = _
    rw [htarget]
    rfl
  | trapa n =>
    have hcount : n < 8 := UInt8.lt_trans h (by decide)
    exact read_line (names_stem .trapa) ((spells_count n hcount).renders rfl) (by simp [text, Stem.name])
  | ldc src dst => exact read_loadControl ho h dst
  | stc src dst => exact read_storeControl ho src h.1 h.2
  | controlLogic op imm dst =>
    have himm := (spells_byteImmediate imm).renders rfl
    have hdst := (spells_control dst).renders rfl
    rw [read_line (names_stem (.controlLogic op)) (himm.comma hdst) (by simp [text, Stem.name])]
    show some (Operation.controlLogic op imm.toUInt32.toUInt8 dst) = _
    rw [UInt8.toUInt8_toUInt32]
    rfl
  | ldm last count =>
    obtain ⟨hmin, hmax, hle, hlast⟩ := h
    have hfirst : last + 1 - count < 8 := by
      rw [UInt8.lt_iff_toNat_lt, UInt8.toNat_sub, UInt8.toNat_add]
      simp
      omega
    have hlast : last < 8 := hlast
    have hcount : last + 1 - (last + 1 - count) = count := by grind
    have hpulled : Spells "@SP+" .pulled := by decide
    have hrange := (spells_range hfirst hlast).renders rfl
    rw [read_line (names_sized .ldm .long) ((hpulled.renders rfl).comma hrange)
      (by simp [text, sized, Stem.name, Width.suffix])]
    show some (Operation.ldm last (last + 1 - (last + 1 - count))) = _
    rw [hcount]
    rfl
  | stm first count =>
    obtain ⟨hmin, hmax, hle⟩ := h
    have hfirst : first < 8 := by
      rw [UInt8.lt_iff_toNat_lt]
      simp
      omega
    have hlast : first + count - 1 < 8 := by
      rw [UInt8.lt_iff_toNat_lt, UInt8.toNat_sub, UInt8.toNat_add]
      simp
      omega
    have hcount : first + count - 1 + 1 - first = count := by grind
    have hpushed : Spells "@-SP" .pushed := by decide
    have hrange := (spells_range hfirst hlast).renders rfl
    rw [read_line (names_sized .stm .long) (hrange.comma (hpushed.renders rfl))
      (by simp [text, sized, Stem.name, Width.suffix])]
    show some (Operation.stm first (first + count - 1 + 1 - first)) = _
    rw [hcount]
    rfl
  | tas pointer => exact read_line (names_stem .tas) ((spells_indirect h).renders rfl) (by simp [text, Stem.name])
  | eepmov width => exact read_bare (names_sized .eepmov width)

/-- The least displacement is its own negative. -/
example : read "MOV.B @(-0x80000000,ER1),R2L" = some (.mov .byte (.mem (.displaced 0x80000000 1)) (.reg 10)) := by decide

/-- The mark of a long displacement does not show. -/
theorem text_narrowed (o : Options) (op : Operation) : text o op.narrowed = text o op := by
  cases op <;> rfl

theorem read_text_of_decode {σ : Type} {fetch : Source σ} {pc : UInt32} {s s' : σ} {i : Instruction}
    (ho : o.symbolicNames = false) (h : Instruction.decode fetch pc s = .ok i s') :
    read (text o i.op) = some i.op.narrowed :=
  read_text ho (Instruction.wellFormed_of_decode h) (Instruction.decode_leaf Decoding.operation_stepsByteByOne h).2

/-- The texts of two decoded operations are equal exactly if the operations are, but for the mark of a long displacement;
and each is read back from its text. -/
theorem text_unambiguous {σ τ : Type} (o : Options) (f : Source σ) (g : Source τ) (pc pc' : UInt32) (s s' : σ) (t t' : τ)
    (i j : Instruction) (ho : o.symbolicNames = false) (hi : Instruction.decode f pc s = .ok i s')
    (hj : Instruction.decode g pc' t = .ok j t') :
    (text o i.op = text o j.op ↔ i.op.narrowed = j.op.narrowed) ∧
      read (text o i.op) = some i.op.narrowed ∧ read (text o j.op) = some j.op.narrowed := by
  have hreadi := read_text_of_decode ho hi
  have hreadj := read_text_of_decode ho hj
  refine ⟨⟨fun h => ?_, fun h => ?_⟩, hreadi, hreadj⟩
  · rw [h, hreadj] at hreadi
    exact (Option.some.inj hreadi).symm
  · rw [← text_narrowed, h, text_narrowed]

/-- A branch over two bytes, with a displacement of eight bits and with one of sixteen. -/
theorem text_unambiguous_branches :
    let o : Options := ⟨false, false, false⟩
    let short : Instruction := ⟨0x100, .bcc .always 0x106 false, [0x40, 0x04]⟩
    let wide : Instruction := ⟨0x100, .bcc .always 0x106 true, [0x58, 0x00, 0x00, 0x02]⟩
    Instruction.decode (Source.fixed (Decoding.fetchCode 0x100 #[0x40, 0x04])) 0x100 () = .ok short () ∧
      Instruction.decode (Source.fixed (Decoding.fetchCode 0x100 #[0x58, 0x00, 0x00, 0x02])) 0x100 () = .ok wide () ∧
      text o short.op = "BRA 0x000106" ∧ text o wide.op = "BRA 0x000106" ∧
      read "BRA 0x000106" = some (.bcc .always 0x106 false) := by
  intro o short wide
  have hs : Instruction.decode (Source.fixed (Decoding.fetchCode 0x100 #[0x40, 0x04])) 0x100 () = .ok short () := rfl
  have hw : Instruction.decode (Source.fixed (Decoding.fetchCode 0x100 #[0x58, 0x00, 0x00, 0x02])) 0x100 () = .ok wide () :=
    rfl
  have htext : text o short.op = "BRA 0x000106" := by decide
  obtain ⟨hsame, hread, -⟩ := text_unambiguous o _ _ _ _ _ _ _ _ short wide rfl hs hw
  rw [htext] at hsame hread
  exact ⟨hs, hw, htext, (hsame.2 rfl).symm, hread⟩

end Operations

end Listing

end H8S
