import H8S.Proofs.Encodings

/-!
# Leaves of a decoding

A decoding is a tree whose leaves are its results.  `Leaves P bytes d` says that every result of `d` satisfies `P` together
with all bytes that lead to it, those in `bytes` before `d` included.  It is a property of the tree, and at the same time one
of the byte strings that can be fed to it (`leaves_iff_feed`); the first view is the one in which pages are gone through, the
second the one in which results are used.
-/

namespace H8S.Decoding

variable {α β : Type} {bytes : List UInt8}

def Leaves (P : List UInt8 → α → Prop) : List UInt8 → Decoding α → Prop
  | bytes, done a => P bytes a
  | _, illegal => True
  | bytes, byte next => ∀ b, Leaves P (bytes ++ [b]) (next b)

/-! ### Rules -/

@[simp] theorem leaves_pure {P : List UInt8 → α → Prop} (a : α) : Leaves P bytes (pure a) ↔ P bytes a := Iff.rfl

@[simp] theorem leaves_illegal {P : List UInt8 → α → Prop} : Leaves P bytes illegal := trivial

@[simp] theorem leaves_next {P : List UInt8 → UInt8 → Prop} : Leaves P bytes next ↔ ∀ b, P (bytes ++ [b]) b := Iff.rfl

@[simp] theorem leaves_word {P : List UInt8 → UInt32 → Prop} :
    Leaves P bytes word ↔ ∀ hi lo : UInt8, P (bytes ++ [hi] ++ [lo]) (hi.toUInt32 <<< 8 ||| lo.toUInt32) := Iff.rfl

@[simp] theorem leaves_long {P : List UInt8 → UInt32 → Prop} :
    Leaves P bytes long ↔ ∀ a b c d : UInt8, P (bytes ++ [a] ++ [b] ++ [c] ++ [d])
      ((a.toUInt32 <<< 8 ||| b.toUInt32) <<< 16 ||| (c.toUInt32 <<< 8 ||| d.toUInt32)) := Iff.rfl

@[simp] theorem leaves_require {P : List UInt8 → Unit → Prop} (c : Bool) :
    Leaves P bytes (require c) ↔ (c = true → P bytes ()) := by
  cases c with
  | false => simp [require]
  | true => simp [require, Leaves]

@[simp] theorem leaves_bind {P : List UInt8 → β → Prop} (d : Decoding α) (f : α → Decoding β) :
    Leaves P bytes (d >>= f) ↔ Leaves (fun bytes a => Leaves P bytes (f a)) bytes d := by
  show Leaves P bytes (d.bind f) ↔ _
  induction d generalizing bytes with
  | done a => rfl
  | illegal => rfl
  | byte next ih => exact forall_congr' fun b => ih b

@[simp] theorem leaves_ite {P : List UInt8 → α → Prop} {c : Prop} [Decidable c] {d e : Decoding α} :
    Leaves P bytes (if c then d else e) ↔ (c → Leaves P bytes d) ∧ (¬c → Leaves P bytes e) := by
  by_cases hc : c
  · simp [hc]
  · simp [hc]

/-! ### Bytes fed to a decoding -/

@[simp] theorem feed_nil (d : Decoding α) : d.feed [] = some d := rfl

@[simp] theorem feed_next (f : UInt8 → Decoding α) (b : UInt8) (rest : List UInt8) :
    (next >>= f).feed (b :: rest) = (f b).feed rest := rfl

theorem feed_require {c : Bool} (hc : c = true) (f : Unit → Decoding α) (rest : List UInt8) :
    (require c >>= f).feed rest = (f ()).feed rest := by
  rw [hc]
  rfl

theorem feed_append (d : Decoding α) (xs ys : List UInt8) : d.feed (xs ++ ys) = (d.feed xs).bind fun e => e.feed ys :=
  List.foldlM_append ..

/-- A result takes no more bytes. -/
private theorem feed_done {a a' : α} {rest : List UInt8} (h : (done a).feed rest = some (done a')) :
    rest = [] ∧ a = a' := by
  cases rest with
  | nil =>
    cases h
    exact ⟨rfl, rfl⟩
  | cons b rest => cases h

private theorem feed_illegal {a : α} {rest : List UInt8} : illegal.feed rest ≠ some (done a) := by
  intro h
  cases rest with
  | nil => cases h
  | cons b rest => cases h

/-- The leaves are the results that some bytes lead to. -/
theorem leaves_iff_feed {P : List UInt8 → α → Prop} {d : Decoding α} :
    Leaves P bytes d ↔ ∀ rest a, d.feed rest = some (done a) → P (bytes ++ rest) a := by
  induction d generalizing bytes with
  | done a =>
    constructor
    · intro h rest a' hr
      obtain ⟨rfl, rfl⟩ := feed_done hr
      rwa [List.append_nil]
    · intro h
      have h := h [] a rfl
      rwa [List.append_nil] at h
  | illegal => exact ⟨fun _ _ _ hr => (feed_illegal hr).elim, fun _ => trivial⟩
  | byte next ih =>
    constructor
    · intro h rest a hr
      cases rest with
      | nil => cases hr
      | cons b rest =>
        have h := (ih b).1 (h b) rest a hr
        rwa [List.append_assoc] at h
    · intro h b
      refine (ih b).2 fun rest a hr => ?_
      have h := h (b :: rest) a hr
      rwa [List.append_assoc]

theorem Leaves.imp {P Q : List UInt8 → α → Prop} {d : Decoding α} (h : Leaves P bytes d)
    (hi : ∀ bytes a, P bytes a → Q bytes a) : Leaves Q bytes d :=
  leaves_iff_feed.2 fun rest a hr => hi _ _ (leaves_iff_feed.1 h rest a hr)

/-- Lengths are a property of leaves. -/
theorem Ends.leaves {P : Nat → α → Prop} {n : Nat} {d : Decoding α} (h : Ends P n d) (hn : bytes.length = n) :
    Leaves (fun bytes a => P bytes.length a) bytes d := by
  induction d generalizing bytes n with
  | done a =>
    subst hn
    exact h
  | illegal => trivial
  | byte next ih => exact fun b => ih b (h b) (by simp [hn])

end H8S.Decoding
