import H8S.Proofs.Assembling
import H8S.Proofs.BusInvariants
import H8S.Proofs.WideAccesses

/-!
# Accesses at the status register

At one address the core answers itself.  A byte that is read there shows the pending interrupts, whether it is read alone,
as a byte of a word or a long, or as code (`read8_status`, `readSized_status`, `Fetches.status`).  A byte that is written
there takes interrupts back and does nothing else (`write8_status`); of the bytes of a word or a long it is the only one that
does, and if the access fails it may not have been reached (`writeSized_takesBack`, `writeSized_leads`).  An access of which
no byte is the register is as if there were no register (`readSized_beside`, `writeSized_beside`).

Longs are two words and words are two bytes, each at the address after the one before.  So everything is shown for a byte,
and is carried from parts that follow each other to the whole (`MayTakeBack.append`, `TakesBack.append`).
-/

namespace H8S

/-! ### Values by their bytes -/

/-- The bytes of a value, the highest first. -/
def Width.toBytes : Width → UInt32 → List UInt8
  | .byte, v => [v.toUInt8]
  | .word, v => Encoding.wordBytes v
  | .long, v => Encoding.longBytes v

namespace Encoding

private theorem wordBytes_wordOf (hi lo : UInt8) : wordBytes (wordOf hi lo).toUInt32 = [hi, lo] := by
  have hhi := hi.toNat_lt
  have hlo := lo.toNat_lt
  apply wordBytes_of_toNat
  rw [UInt16.toNat_toUInt32, Memory.wordOf_toNat]
  omega

/-- The bytes that are written of a word. -/
theorem wordBytes_halves (v : UInt32) : wordBytes v = [highByte v.toUInt16, v.toUInt16.toUInt8] := by
  have hhi : (highByte v.toUInt16).toNat = v.toNat / 256 % 256 := by
    simp [highByte]
    omega
  have hlo : v.toUInt16.toUInt8.toNat = v.toNat % 256 := by simp
  apply wordBytes_of_toNat
  rw [hhi, hlo]
  omega

/-- The bytes of a long are those of its words. -/
theorem longBytes_words (v : UInt32) : longBytes v = wordBytes (v >>> 16) ++ wordBytes v := by
  have h₃ : (v >>> 24).toUInt8 = (v >>> 16 >>> 8).toUInt8 := by
    apply UInt8.toNat_inj.1
    simp
    omega
  rw [longBytes, h₃]
  rfl

private theorem longBytes_longOf (hi lo : UInt16) :
    longBytes (hi.toUInt32 <<< 16 ||| lo.toUInt32) = wordBytes hi.toUInt32 ++ wordBytes lo.toUInt32 := by
  have hhi := hi.toNat_lt
  have hlo := lo.toNat_lt
  have h₁ : ((hi.toUInt32 <<< 16 ||| lo.toUInt32) >>> 16).toUInt16 = hi.toUInt32.toUInt16 := by
    apply UInt16.toNat_inj.1
    rw [UInt32.toNat_toUInt16, UInt32.toNat_shiftRight, Memory.longOf_toNat]
    simp
    omega
  have h₀ : (hi.toUInt32 <<< 16 ||| lo.toUInt32).toUInt16 = lo.toUInt32.toUInt16 := by
    apply UInt16.toNat_inj.1
    rw [UInt32.toNat_toUInt16, Memory.longOf_toNat]
    simp
  rw [longBytes_words, wordBytes_congr h₁, wordBytes_congr h₀]

end Encoding

namespace CpuM

variable {β α γ : Type} [Bus β] {config : Config} {s t u : System β} {addr isr : UInt32}

/-! ### Reads -/

private theorem load8_status (hisr : config.isrAddress = some isr) :
    (load8 isr : CpuM β UInt8) config s = .ok s.cpu.pending.status s := by
  have ha : Answers config s isr s.cpu.pending.status s.bus := by
    rw [Answers, if_pos hisr]
    exact ⟨rfl, rfl⟩
  exact load8_ok.2 ⟨s.bus, ha, rfl⟩

/-- The register shows the pending interrupts. -/
theorem read8_status (hisr : config.isrAddress = some isr) :
    (read8 isr : CpuM β UInt8) config s = .ok s.cpu.pending.status { s with cpu := s.cpu.charged .read isr } := by
  unfold read8
  rw [bind_of_ok (run_charge .read isr)]
  exact load8_status hisr

private theorem load8_shown {b : UInt8} (hisr : config.isrAddress = some isr) (haddr : addr = isr)
    (h : load8 addr config s = .ok b t) : b = s.cpu.pending.status := by
  rw [haddr, load8_status hisr] at h
  cases h
  rfl

/-- An access that holds the register so far from its first byte covers it. -/
theorem covers_of_offset {k n : Nat} {len : UInt32} (hisr : config.isrAddress = some isr) (hlen : len.toNat = n)
    (hk : k < n) (haddr : isr.toNat = addr.toNat + k) : coversStatus config addr len = true :=
  coversStatus_iff.2 ⟨isr, hisr, by omega, by omega⟩

private theorem add_eq_of_toNat {k : UInt32} (haddr : isr.toNat = addr.toNat + k.toNat) : addr + k = isr := by
  have hisr := isr.toNat_lt
  apply UInt32.toNat_inj.1
  rw [UInt32.toNat_add, haddr]
  exact Nat.mod_eq_of_lt (by omega)

/-- A word of which one byte is the register is read by its bytes, and that one shows the pending interrupts. -/
private theorem read16_status {w : UInt16} {k : Nat} {b : UInt8} (hisr : config.isrAddress = some isr)
    (h : read16 addr config s = .ok w t) (haddr : isr.toNat = addr.toNat + k)
    (hb : (Encoding.wordBytes w.toUInt32)[k]? = some b) : b = s.cpu.pending.status := by
  have hk : k < 2 := (List.getElem?_eq_some_iff.1 hb).1
  have hcovers : coversStatus config addr 2 = true := covers_of_offset hisr rfl hk haddr
  unfold read16 load16 at h
  rw [bind_of_ok (run_charge .read addr), bind_of_ok (run_charge .read (addr + 1)), bind_of_ok run_read, if_pos hcovers] at h
  obtain ⟨hi, v, h₁, h⟩ := bind_ok.1 h
  obtain ⟨lo, v', h₂, h⟩ := bind_ok.1 h
  cases h
  have hkept : Keeps readView (load8 addr : CpuM β UInt8) := .load8 (fun _ _ => rfl) addr
  have hpending : v.cpu.pending = s.cpu.pending := congrArg Prod.snd (hkept.ok h₁)
  rw [Encoding.wordBytes_wordOf] at hb
  match k, hk with
  | 0, _ =>
    have hfirst : addr = isr := UInt32.toNat_inj.1 haddr.symm
    cases hb
    have hshown := load8_shown hisr hfirst h₁
    exact hshown
  | 1, _ =>
    have hsecond : addr + 1 = isr := add_eq_of_toNat haddr
    cases hb
    rw [← hpending]
    exact load8_shown hisr hsecond h₂

/-- Wherever an access of any width covers the register, the byte shows the pending interrupts. -/
theorem readSized_status {width : Width} {value : UInt32} {k : Nat} {b : UInt8} (hisr : config.isrAddress = some isr)
    (h : readSized width addr config s = .ok value t) (haddr : isr.toNat = addr.toNat + k)
    (hb : (width.toBytes value)[k]? = some b) : b = s.cpu.pending.status := by
  cases width with
  | byte =>
    obtain ⟨v, u, h, hv⟩ := bind_ok.1 h
    cases hv
    have hk : k = 0 := Nat.lt_one_iff.1 (List.getElem?_eq_some_iff.1 hb).1
    subst hk
    have hfirst : addr = isr := UInt32.toNat_inj.1 haddr.symm
    rw [hfirst, read8_status hisr] at h
    cases h
    cases hb
    exact UInt8.toUInt8_toUInt32 _
  | word =>
    obtain ⟨w, u, h, hw⟩ := bind_ok.1 h
    cases hw
    exact read16_status hisr h haddr hb
  | long =>
    obtain ⟨hi, u, h₁, h⟩ := bind_ok.1 (widening_ok.1 h)
    obtain ⟨lo, u', h₂, h⟩ := bind_ok.1 h
    cases h
    have hpending : u.cpu.pending = s.cpu.pending := congrArg Prod.snd ((read16_keeps _).ok h₁)
    rw [Width.toBytes, Encoding.longBytes_longOf] at hb
    by_cases hk : k < 2
    · rw [List.getElem?_append_left hk] at hb
      exact read16_status hisr h₁ haddr hb
    · rw [List.getElem?_append_right (Nat.not_lt.1 hk)] at hb
      have hsecond : isr.toNat = (addr + 2).toNat + (k - 2) := by
        have hlt := isr.toNat_lt
        have hadd : (addr + 2).toNat = addr.toNat + 2 := Memory.toNat_add_of_lt (k := 2) (by omega)
        omega
      rw [← hpending]
      exact read16_status hisr h₂ hsecond hb

/-- Code that covers the register is the pending interrupts, too. -/
theorem Fetches.status {start : UInt32} {bytes : List UInt8} {k : Nat} {b : UInt8} (hisr : config.isrAddress = some isr)
    (h : Fetches config s start bytes t) (haddr : start + k.toUInt32 = isr) (hb : bytes[k]? = some b) :
    b = s.cpu.pending.status := by
  induction h with
  | nil => cases hb
  | @snoc bytes t c bus hf ha ih =>
    by_cases hk : k < bytes.length
    · rw [List.getElem?_append_left hk] at hb
      exact ih hb
    · have hk' : k = bytes.length := by
        have hlt := (List.getElem?_eq_some_iff.1 hb).1
        rw [List.length_append, List.length_singleton] at hlt
        omega
      subst hk'
      rw [List.getElem?_concat_length] at hb
      cases hb
      rw [Answers, haddr, if_pos hisr, hf.cpu] at ha
      exact ha.1

/-! ### Writes -/

/-- What is written to the register takes interrupts back and does nothing else. -/
theorem write8_status (hisr : config.isrAddress = some isr) (value : UInt8) :
    (write8 isr value : CpuM β Unit) config s =
      .ok () { s with cpu := { s.cpu.charged .write isr with pending := s.cpu.pending.acknowledge value } } := by
  have ht : Takes config s isr value (s.cpu.pending.acknowledge value) s.bus := by
    rw [Takes, if_pos hisr]
    exact ⟨rfl, rfl⟩
  exact write8_ok.2 ⟨_, s.bus, ht, rfl⟩

/-- Of the bytes that are written from an address on, at most the one at the register takes interrupts back. -/
def MayTakeBack (isr addr : UInt32) (bytes : List UInt8) (s t : System β) : Prop :=
  t.cpu.pending = s.cpu.pending ∨
    ∃ (k : Nat) (b : UInt8), bytes[k]? = some b ∧ isr.toNat = addr.toNat + k ∧
      t.cpu.pending = s.cpu.pending.acknowledge b

/-- The byte that is written to the register, if one is, takes interrupts back. -/
def TakesBack (isr addr : UInt32) (bytes : List UInt8) (s t : System β) : Prop :=
  ∀ (k : Nat) (b : UInt8), bytes[k]? = some b → isr.toNat = addr.toNat + k →
    t.cpu.pending = s.cpu.pending.acknowledge b

section Bytes

omit [Bus β]

variable {addr' : UInt32} {xs ys : List UInt8}

private theorem MayTakeBack.append_left (h : MayTakeBack isr addr xs s t) (ys : List UInt8) :
    MayTakeBack isr addr (xs ++ ys) s t := by
  rcases h with h | ⟨k, b, hb, haddr, h⟩
  · exact .inl h
  · have hk := (List.getElem?_eq_some_iff.1 hb).1
    have happend : (xs ++ ys)[k]? = xs[k]? := List.getElem?_append_left hk
    rw [← happend] at hb
    exact .inr ⟨k, b, hb, haddr, h⟩

private theorem MayTakeBack.append (hnext : addr'.toNat = addr.toNat + xs.length) (h : MayTakeBack isr addr xs s u)
    (h' : MayTakeBack isr addr' ys u t) : MayTakeBack isr addr (xs ++ ys) s t := by
  rcases h' with h' | ⟨k', b', hb', haddr', h'⟩
  · -- the second part leaves what the first part left
    have hfirst := h.append_left ys
    unfold MayTakeBack at hfirst ⊢
    rwa [h']
  · rcases h with h | ⟨k, b, hb, haddr, -⟩
    · refine .inr ⟨xs.length + k', b', ?_, by omega, by rw [h', h]⟩
      rw [List.getElem?_append_right (Nat.le_add_right _ _), Nat.add_sub_cancel_left]
      exact hb'
    · have hk := (List.getElem?_eq_some_iff.1 hb).1
      omega

private theorem TakesBack.append (hnext : addr'.toNat = addr.toNat + xs.length) (h : TakesBack isr addr xs s u)
    (ht : MayTakeBack isr addr xs s u) (h' : TakesBack isr addr' ys u t) (ht' : MayTakeBack isr addr' ys u t) :
    TakesBack isr addr (xs ++ ys) s t := by
  intro k b hb haddr
  by_cases hk : k < xs.length
  · rw [List.getElem?_append_left hk] at hb
    have hfirst := h k b hb haddr
    -- the register lies in one part only, so the other part leaves the interrupts alone
    rcases ht' with ht' | ⟨k', b', -, haddr', -⟩
    · rw [ht', hfirst]
    · omega
  · rw [List.getElem?_append_right (Nat.not_lt.1 hk)] at hb
    have hsecond := h' (k - xs.length) b hb (by omega)
    rcases ht with ht | ⟨k', b', hb', haddr', -⟩
    · rw [hsecond, ht]
    · have hk' := (List.getElem?_eq_some_iff.1 hb').1
      omega

private theorem pending_of_onBus {m : BusM β α} (h : Leads config (onBus m) s t) : t.cpu.pending = s.cpu.pending := by
  rcases h with ⟨a, h⟩ | ⟨e, h⟩
  · obtain ⟨bus, -, rfl⟩ := onBus_ok.1 h
    rfl
  · obtain ⟨bus, -, rfl⟩ := onBus_error.1 h
    rfl

end Bytes

private theorem store8_leads {value : UInt8} (hisr : config.isrAddress = some isr)
    (h : Leads config (store8 addr value) s t) : MayTakeBack isr addr [value] s t ∧ TakesBack isr addr [value] s t := by
  unfold Leads store8 at h
  rw [bind_of_ok run_read] at h
  by_cases haddr : config.isrAddress = some addr
  · rw [if_pos haddr] at h
    have hat : isr = addr := Option.some.inj (hisr.symm.trans haddr)
    have ht : t.cpu.pending = s.cpu.pending.acknowledge value := by
      rcases h with ⟨a, h⟩ | ⟨e, h⟩
      · cases h
        rfl
      · cases h
    refine ⟨.inr ⟨0, value, rfl, congrArg UInt32.toNat hat, ht⟩, ?_⟩
    intro k b hb _
    obtain ⟨hk, rfl⟩ := List.getElem?_eq_some_iff.1 hb
    rw [List.getElem_singleton]
    exact ht
  · rw [if_neg haddr] at h
    refine ⟨.inl (pending_of_onBus h), ?_⟩
    -- the only byte is not at the register
    intro k b hb hoffset
    have hk : k = 0 := Nat.lt_one_iff.1 (List.getElem?_eq_some_iff.1 hb).1
    have hat : isr = addr := UInt32.toNat_inj.1 (by omega)
    exact absurd (hat ▸ hisr) haddr

private theorem write8_leads {value : UInt8} (hisr : config.isrAddress = some isr)
    (h : Leads config (write8 addr value) s t) : MayTakeBack isr addr [value] s t ∧ TakesBack isr addr [value] s t := by
  have hstored := store8_leads (s := { s with cpu := s.cpu.charged .write addr }) hisr h
  exact hstored

/-- A word is charged, and then it is written by its bytes if one of them is the register, or else in one piece. -/
private theorem write16_eq (config : Config) (s : System β) (addr : UInt32) (value : UInt16) :
    ∃ v : System β, v.cpu.pending = s.cpu.pending ∧ write16 addr value config s =
      widening 16 (if coversStatus config addr 2 then
        store8 addr (highByte value) >>= fun _ => store8 (addr + 1) value.toUInt8
      else onBus (Bus.write16 addr value)) config v :=
  ⟨{ s with cpu := (s.cpu.charged .write addr).charged .write (addr + 1) }, rfl, rfl⟩

private theorem write16_leads {value : UInt16} (hisr : config.isrAddress = some isr) (hroom : addr.toNat + 2 ≤ 2 ^ 32)
    (h : Leads config (write16 addr value) s t) : MayTakeBack isr addr [highByte value, value.toUInt8] s t := by
  obtain ⟨v, hv, heq⟩ := write16_eq config s addr value
  unfold Leads at h
  rw [heq] at h
  have h := leads_widening h
  have hmoved : MayTakeBack isr addr [highByte value, value.toUInt8] v t := by
    cases hc : coversStatus config addr 2 with
    | true =>
      rw [hc, if_pos rfl] at h
      have hnext : (addr + 1).toNat = addr.toNat + 1 := Memory.toNat_add_of_lt (k := 1) (by omega)
      rcases leads_bind h with ⟨e, h₁⟩ | ⟨_, u, h₁, h₂⟩
      · exact (store8_leads hisr (.inr ⟨e, h₁⟩)).1.append_left [value.toUInt8]
      · exact (store8_leads hisr (.inl ⟨_, h₁⟩)).1.append hnext (store8_leads hisr h₂).1
    | false =>
      rw [hc, if_neg Bool.false_ne_true] at h
      exact .inl (pending_of_onBus h)
  unfold MayTakeBack at hmoved ⊢
  rwa [hv] at hmoved

private theorem write16_takesBack {value : UInt16} (hisr : config.isrAddress = some isr) (hroom : addr.toNat + 2 ≤ 2 ^ 32)
    (h : write16 addr value config s = .ok () t) : TakesBack isr addr [highByte value, value.toUInt8] s t := by
  obtain ⟨v, hv, heq⟩ := write16_eq config s addr value
  rw [heq] at h
  have h := widening_ok.1 h
  intro k b hb haddr
  have hk : k < 2 := (List.getElem?_eq_some_iff.1 hb).1
  have hcovers : coversStatus config addr 2 = true := covers_of_offset hisr rfl hk haddr
  have hnext : (addr + 1).toNat = addr.toNat + 1 := Memory.toNat_add_of_lt (k := 1) (by omega)
  rw [if_pos hcovers] at h
  obtain ⟨_, u, h₁, h₂⟩ := bind_ok.1 h
  obtain ⟨hmay, htakes⟩ := store8_leads hisr (.inl ⟨_, h₁⟩)
  obtain ⟨hmay', htakes'⟩ := store8_leads hisr (.inl ⟨_, h₂⟩)
  rw [← hv]
  exact htakes.append hnext hmay htakes' hmay' k b hb haddr

/-- A run of a write of any width takes interrupts back by the byte at the register, if by anything. -/
theorem writeSized_leads {width : Width} {value : UInt32} (hisr : config.isrAddress = some isr)
    (hroom : addr.toNat + width.bytes.toNat ≤ 2 ^ 32) (h : Leads config (writeSized width addr value) s t) :
    MayTakeBack isr addr (width.toBytes value) s t := by
  cases width with
  | byte => exact (write8_leads hisr h).1
  | word =>
    rw [Width.toBytes, Encoding.wordBytes_halves]
    exact write16_leads hisr hroom h
  | long =>
    have hroom : addr.toNat + 4 ≤ 2 ^ 32 := hroom
    have hnext : (addr + 2).toNat = addr.toNat + 2 := Memory.toNat_add_of_lt (k := 2) (by omega)
    rw [Width.toBytes, Encoding.longBytes_words, Encoding.wordBytes_halves, Encoding.wordBytes_halves value]
    rcases leads_bind (leads_widening h) with ⟨e, h₁⟩ | ⟨_, u, h₁, h₂⟩
    · exact (write16_leads hisr (by omega) (.inr ⟨e, h₁⟩)).append_left _
    · exact (write16_leads hisr (by omega) (.inl ⟨_, h₁⟩)).append hnext (write16_leads hisr (by omega) h₂)

/-- Wherever an access of any width covers the register, the byte takes interrupts back. -/
theorem writeSized_takesBack {width : Width} {value : UInt32} (hisr : config.isrAddress = some isr)
    (hroom : addr.toNat + width.bytes.toNat ≤ 2 ^ 32) (h : writeSized width addr value config s = .ok () t) :
    TakesBack isr addr (width.toBytes value) s t := by
  cases width with
  | byte => exact (write8_leads hisr (.inl ⟨_, h⟩)).2
  | word =>
    rw [Width.toBytes, Encoding.wordBytes_halves]
    exact write16_takesBack hisr hroom h
  | long =>
    have hroom : addr.toNat + 4 ≤ 2 ^ 32 := hroom
    have hnext : (addr + 2).toNat = addr.toNat + 2 := Memory.toNat_add_of_lt (k := 2) (by omega)
    rw [Width.toBytes, Encoding.longBytes_words, Encoding.wordBytes_halves, Encoding.wordBytes_halves value]
    obtain ⟨_, u, h₁, h₂⟩ := bind_ok.1 (widening_ok.1 h)
    have hmay := write16_leads hisr (by omega) (.inl ⟨_, h₁⟩)
    have hmay' := write16_leads hisr (by omega) (.inl ⟨_, h₂⟩)
    exact (write16_takesBack hisr (by omega) h₁).append hnext hmay (write16_takesBack hisr (by omega) h₂) hmay'

/-! ### Accesses beside the register -/

/-- An action does the same without a status register. -/
private def Unaware (config : Config) (m : CpuM β α) : Prop := ∀ s, m config s = m { config with isrAddress := none } s

namespace Unaware

omit [Bus β]

private theorem bind {m : CpuM β α} {f : α → CpuM β γ} (hm : Unaware config m) (hf : ∀ a, Unaware config (f a)) :
    Unaware config (m >>= f) := by
  intro s
  rw [run_bind, run_bind, hm s]
  cases m { config with isrAddress := none } s with
  | ok a t => exact hf a t
  | error e t => rfl

private theorem widening {m : CpuM β α} (hm : Unaware config m) (width : Nat) : Unaware config (widening width m) := by
  intro s
  unfold CpuM.widening
  rw [hm s]

end Unaware

private theorem read8_unaware (h : config.isrAddress ≠ some addr) : Unaware config (read8 addr : CpuM β UInt8) := by
  intro s
  unfold read8 load8
  rw [bind_of_ok (run_charge .read addr), bind_of_ok (run_charge .read addr), bind_of_ok run_read, bind_of_ok run_read,
    if_neg h, if_neg (by simp)]
  rfl

private theorem write8_unaware (h : config.isrAddress ≠ some addr) (value : UInt8) :
    Unaware config (write8 addr value : CpuM β Unit) := by
  intro s
  unfold write8 store8
  rw [bind_of_ok (run_charge .write addr), bind_of_ok (run_charge .write addr), bind_of_ok run_read, bind_of_ok run_read,
    if_neg h, if_neg (by simp)]
  rfl

private theorem read16_unaware (h : coversStatus config addr 2 = false) : Unaware config (read16 addr : CpuM β UInt16) := by
  have hload : Unaware config (load16 addr : CpuM β UInt16) := by
    intro s
    unfold load16
    rw [bind_of_ok run_read, bind_of_ok run_read, h]
    rfl
  exact .bind (fun _ => rfl) fun _ => .bind (fun _ => rfl) fun _ => hload

private theorem write16_unaware (h : coversStatus config addr 2 = false) (value : UInt16) :
    Unaware config (write16 addr value : CpuM β Unit) := by
  have hstore : Unaware config (store16 addr value : CpuM β Unit) := by
    refine .widening ?_ 16
    intro s
    rw [bind_of_ok run_read, bind_of_ok run_read, h]
    rfl
  exact .bind (fun _ => rfl) fun _ => .bind (fun _ => rfl) fun _ => hstore

/-- The words of an access that lies beside the register lie beside it, too. -/
private theorem not_covers_of_beside {n : Nat} (hisr : config.isrAddress = some isr)
    (h : isr.toNat < addr.toNat ∨ addr.toNat + n ≤ isr.toNat) (hn : 2 ≤ n) : coversStatus config addr 2 = false := by
  cases hc : coversStatus config addr 2 with
  | false => rfl
  | true =>
    obtain ⟨isr', hisr', hlo, hhi⟩ := coversStatus_iff.1 hc
    have hlen : (2 : UInt32).toNat = 2 := rfl
    cases hisr.symm.trans hisr'
    omega

private theorem ne_of_beside {n : Nat} (hisr : config.isrAddress = some isr)
    (h : isr.toNat < addr.toNat ∨ addr.toNat + n ≤ isr.toNat) (hn : 1 ≤ n) : config.isrAddress ≠ some addr := by
  intro hc
  cases hisr.symm.trans hc
  omega

/-- The second word of a long beside the register. -/
private theorem second_beside (hroom : addr.toNat + 4 ≤ 2 ^ 32)
    (h : isr.toNat < addr.toNat ∨ addr.toNat + 4 ≤ isr.toNat) :
    isr.toNat < (addr + 2).toNat ∨ (addr + 2).toNat + 2 ≤ isr.toNat := by
  have hadd : (addr + 2).toNat = addr.toNat + 2 := Memory.toNat_add_of_lt (k := 2) (by omega)
  omega

/-- What is read beside the register is read as if there were none. -/
theorem readSized_beside {width : Width} (hisr : config.isrAddress = some isr)
    (hroom : addr.toNat + width.bytes.toNat ≤ 2 ^ 32)
    (h : isr.toNat < addr.toNat ∨ addr.toNat + width.bytes.toNat ≤ isr.toNat) (s : System β) :
    readSized width addr config s = readSized width addr { config with isrAddress := none } s := by
  have hreads : Unaware config (readSized width addr : CpuM β UInt32) := by
    cases width with
    | byte => exact .bind (read8_unaware (ne_of_beside hisr h (by decide))) fun _ _ => rfl
    | word => exact .bind (read16_unaware (not_covers_of_beside hisr h (by decide))) fun _ _ => rfl
    | long =>
      have hsecond := not_covers_of_beside hisr (second_beside hroom h) (Nat.le_refl 2)
      have hwords : Unaware config (read32 addr : CpuM β UInt32) :=
        .widening (.bind (read16_unaware (not_covers_of_beside hisr h (by decide))) fun _ =>
          .bind (read16_unaware hsecond) fun _ _ => rfl) 32
      exact hwords
  exact hreads s

/-- What is written beside the register is written as if there were none. -/
theorem writeSized_beside {width : Width} (hisr : config.isrAddress = some isr)
    (hroom : addr.toNat + width.bytes.toNat ≤ 2 ^ 32)
    (h : isr.toNat < addr.toNat ∨ addr.toNat + width.bytes.toNat ≤ isr.toNat) (value : UInt32) (s : System β) :
    writeSized width addr value config s = writeSized width addr value { config with isrAddress := none } s := by
  have hwrites : Unaware config (writeSized width addr value : CpuM β Unit) := by
    cases width with
    | byte => exact write8_unaware (ne_of_beside hisr h (by decide)) _
    | word => exact write16_unaware (not_covers_of_beside hisr h (by decide)) _
    | long =>
      have hsecond := not_covers_of_beside hisr (second_beside hroom h) (Nat.le_refl 2)
      have hwords : Unaware config (write32 addr value : CpuM β Unit) :=
        .widening (.bind (write16_unaware (not_covers_of_beside hisr h (by decide)) _) fun _ => write16_unaware hsecond _) 32
      exact hwords
  exact hwrites s

end CpuM

end H8S
