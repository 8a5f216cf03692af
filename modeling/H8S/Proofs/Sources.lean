import H8S.Proofs.Encodings

/-!
# Sources of code bytes

A decoding is fed by a source of bytes, which may fail and may change its state at every byte it is asked for.  To see which
addresses a decoding asks for, the source is made to note them (`Source.noted`).  They are consecutive from the even address
on and at most ten (`fetched_eq`), and what the decoding comes to is decided by the replies to them: another source that
gives the same replies is asked for the same addresses and comes to the same instruction or the same fault
(`decode_of_replies`).  For a source without a state this says that bytes outside an encoding do not matter
(`decode_of_agree`).
-/

namespace H8S

/-- A source of code bytes: what it replies may depend on a state and may change it. -/
abbrev Source (σ : Type) := UInt32 → EStateM Fault σ UInt8

namespace Source

variable {σ τ α : Type}

/-- The source with a note of the addresses it was asked for, in their order. -/
def noted (f : Source σ) : Source (σ × List UInt32) := fun addr (s, asked) =>
  match f addr s with
  | .ok b t => .ok b (t, asked ++ [addr])
  | .error e t => .error e (t, asked ++ [addr])

/-- The addresses that the decoding of the instruction at `pc` asks for. -/
def fetched (f : Source σ) (pc : UInt32) (s : σ) : List UInt32 :=
  match Instruction.decode f.noted pc (s, []) with
  | .ok _ (_, asked) => asked
  | .error _ (_, asked) => asked

/-- What a source replies to some addresses in turn. -/
def replies (f : Source σ) : σ → List UInt32 → List (Except Fault UInt8)
  | _, [] => []
  | s, addr :: addrs =>
    match f addr s with
    | .ok b t => .ok b :: f.replies t addrs
    | .error e t => .error e :: f.replies t addrs

theorem length_replies (f : Source σ) (s : σ) (addrs : List UInt32) : (f.replies s addrs).length = addrs.length := by
  induction addrs generalizing s with
  | nil => rfl
  | cons addr addrs ih =>
    rw [replies]
    cases f addr s with
    | ok b t => exact congrArg (· + 1) (ih t)
    | error e t => exact congrArg (· + 1) (ih t)

/-- A source without a state. -/
def fixed (read : UInt32 → Except Fault UInt8) : Source Unit := fun addr _ =>
  match read addr with
  | .ok b => .ok b ()
  | .error e => .error e ()

/-- So many addresses from an address on. -/
def addressesFrom (start : UInt32) (n : Nat) : List UInt32 := (List.range n).map fun k => start + k.toUInt32

/-! ### What a decoding asks for -/

/-- The addresses that a decoding asks for after `k` bytes. -/
private def asked (f : Source σ) (start : UInt32) : Decoding α → Nat → σ → List UInt32
  | .done _, _, _ => []
  | .illegal, _, _ => []
  | .byte next, k, s =>
    (start + k.toUInt32) ::
      match f (start + k.toUInt32) s with
      | .ok b t => f.asked start (next b) (k + 1) t
      | .error _ _ => []

section Runs

variable {f : Source σ} {g : Source τ} {start : UInt32} {next : UInt8 → Decoding α} {consumed : List UInt8} {k : Nat}
  {s t : σ} {b : UInt8} {e : Fault}

private theorem asked_of_ok (h : f (start + k.toUInt32) s = .ok b t) :
    f.asked start (.byte next) k s = (start + k.toUInt32) :: f.asked start (next b) (k + 1) t := by
  rw [asked, h]

private theorem asked_of_error (h : f (start + k.toUInt32) s = .error e t) :
    f.asked start (.byte next) k s = [start + k.toUInt32] := by
  rw [asked, h]

private theorem run_of_ok (h : f (start + consumed.length.toUInt32) s = .ok b t) :
    (Decoding.byte next).run f start consumed s = (next b).run f start (consumed ++ [b]) t := by
  show EStateM.bind _ _ s = _
  unfold EStateM.bind
  rw [h]

private theorem run_of_error (h : f (start + consumed.length.toUInt32) s = .error e t) :
    (Decoding.byte next).run f start consumed s = .error e t := by
  show EStateM.bind _ _ s = _
  unfold EStateM.bind
  rw [h]

/-- Notes change nothing else. -/
private theorem run_noted (d : Decoding α) (consumed : List UInt8) (s : σ) (before : List UInt32) :
    d.run f.noted start consumed (s, before) =
      match d.run f start consumed s with
      | .ok a t => .ok a (t, before ++ f.asked start d consumed.length s)
      | .error e t => .error e (t, before ++ f.asked start d consumed.length s) := by
  induction d generalizing consumed s before with
  | done a =>
    rw [asked, List.append_nil]
    rfl
  | illegal =>
    rw [asked, List.append_nil]
    rfl
  | byte next ih =>
    cases hf : f (start + consumed.length.toUInt32) s with
    | ok b t =>
      have hn : f.noted (start + consumed.length.toUInt32) (s, before) =
          .ok b (t, before ++ [start + consumed.length.toUInt32]) := by rw [noted, hf]
      rw [run_of_ok hf, run_of_ok hn, asked_of_ok hf, ih, List.length_append, List.append_assoc]
      rfl
    | error e t =>
      have hn : f.noted (start + consumed.length.toUInt32) (s, before) =
          .error e (t, before ++ [start + consumed.length.toUInt32]) := by rw [noted, hf]
      rw [run_of_error hf, run_of_error hn, asked_of_error hf]

/-- What is asked for is consecutive. -/
private theorem asked_eq (d : Decoding α) (k : Nat) (s : σ) :
    f.asked start d k s = (List.range' k (f.asked start d k s).length).map fun k => start + k.toUInt32 := by
  induction d generalizing k s with
  | done a => rfl
  | illegal => rfl
  | byte next ih =>
    cases hf : f (start + k.toUInt32) s with
    | ok b t =>
      rw [asked_of_ok hf]
      exact congrArg (List.cons _) (ih b (k + 1) t)
    | error e t =>
      rw [asked_of_error hf]
      rfl

variable (f start) in
/-- A decoding that ends within ten bytes asks for no more. -/
private theorem asked_length_le {P : Nat → α → Prop} (hP : ∀ n a, P n a → n ≤ 10) {d : Decoding α} {k : Nat}
    (hd : d.Ends P k) (s : σ) : k + (f.asked start d k s).length ≤ 10 := by
  induction d generalizing k s with
  | done a => exact hP k a hd
  | illegal => exact hd
  | byte next ih =>
    cases hf : f (start + k.toUInt32) s with
    | ok b t =>
      have := ih b (hd b) t
      rw [asked_of_ok hf, List.length_cons]
      omega
    | error e t =>
      -- some byte would have been the next
      have := ih 0 (hd 0) s
      rw [asked_of_error hf, List.length_singleton]
      omega

end Runs

/-! ### What the replies decide -/

section Replies

variable {f : Source σ} {g : Source τ} {start : UInt32}

/-- The same replies to what is asked for lead to the same questions and to the same end. -/
private theorem run_of_replies (d : Decoding α) (consumed : List UInt8) (s : σ) (t : τ)
    (h : g.replies t (f.asked start d consumed.length s) = f.replies s (f.asked start d consumed.length s)) :
    g.asked start d consumed.length t = f.asked start d consumed.length s ∧
      verdict (d.run g start consumed t) = verdict (d.run f start consumed s) := by
  induction d generalizing consumed s t with
  | done a => exact ⟨rfl, rfl⟩
  | illegal => exact ⟨rfl, rfl⟩
  | byte next ih =>
    cases hf : f (start + consumed.length.toUInt32) s with
    | ok b u =>
      rw [asked_of_ok hf] at h ⊢
      cases hg : g (start + consumed.length.toUInt32) t with
      | ok c v =>
        simp only [replies, hf, hg, List.cons.injEq, Except.ok.injEq] at h
        obtain ⟨rfl, h⟩ := h
        have hlen : (consumed ++ [c]).length = consumed.length + 1 := List.length_append
        rw [← hlen] at h
        obtain ⟨ha, hv⟩ := ih c (consumed ++ [c]) u v h
        rw [asked_of_ok hg, run_of_ok hf, run_of_ok hg, ← hlen, ha]
        exact ⟨rfl, hv⟩
      | error e v => simp [replies, hf, hg] at h
    | error e u =>
      rw [asked_of_error hf] at h ⊢
      cases hg : g (start + consumed.length.toUInt32) t with
      | ok c v => simp [replies, hf, hg] at h
      | error e' v =>
        simp only [replies, hf, hg, List.cons.injEq, Except.error.injEq, and_true] at h
        rw [asked_of_error hg, run_of_error hf, run_of_error hg, h]
        exact ⟨rfl, rfl⟩

/-- The replies after the bytes `consumed` are those that a result or an illegal encoding reports, or they end in the
fault of a fetch. -/
private def Decided (start : UInt32) (consumed : List UInt8) (rs : List (Except Fault UInt8)) :
    Except Fault (α × List UInt8) → Prop
  | .ok (_, bytes) => ∃ rest : List UInt8, bytes = consumed ++ rest ∧ rs = rest.map .ok
  | .error e => ∃ rest : List UInt8,
      e = .illegalInstruction start (consumed ++ rest) ∧ rs = rest.map .ok ∨ rs = rest.map .ok ++ [.error e]

private theorem Decided.after {b : UInt8} {consumed : List UInt8} {rs : List (Except Fault UInt8)}
    {o : Except Fault (α × List UInt8)} (h : Decided start (consumed ++ [b]) rs o) :
    Decided start consumed (.ok b :: rs) o := by
  cases o with
  | ok r =>
    obtain ⟨rest, hr, rfl⟩ := h
    exact ⟨b :: rest, by rw [hr, List.append_assoc]; rfl, rfl⟩
  | error e =>
    rcases h with ⟨rest, ⟨he, rfl⟩ | rfl⟩
    · exact ⟨b :: rest, .inl ⟨by rw [he, List.append_assoc]; rfl, rfl⟩⟩
    · exact ⟨b :: rest, .inr rfl⟩

variable (f start) in
private theorem run_decided (d : Decoding α) (consumed : List UInt8) (s : σ) :
    Decided start consumed (f.replies s (f.asked start d consumed.length s)) (verdict (d.run f start consumed s)) := by
  induction d generalizing consumed s with
  | done a => exact ⟨[], (List.append_nil _).symm, rfl⟩
  | illegal => exact ⟨[], .inl ⟨congrArg _ (List.append_nil _).symm, rfl⟩⟩
  | byte next ih =>
    cases hf : f (start + consumed.length.toUInt32) s with
    | ok b t =>
      have hlen : (consumed ++ [b]).length = consumed.length + 1 := List.length_append
      have h := (ih b (consumed ++ [b]) t).after
      rw [hlen] at h
      rw [asked_of_ok hf, run_of_ok hf, replies, hf]
      exact h
    | error e t =>
      rw [asked_of_error hf, run_of_error hf, replies, hf]
      exact ⟨[], .inr rfl⟩

end Replies

/-! ### Instructions -/

section Instructions

variable {f : Source σ} {g : Source τ} {pc : UInt32} {s : σ} {t : τ}

private theorem decode_eq (f : Source σ) (pc : UInt32) (s : σ) :
    Instruction.decode f pc s =
      match (Decoding.operation (Address.even pc)).run f (Address.even pc) [] s with
      | .ok (op, bytes) t => .ok ⟨Address.even pc, op, bytes⟩ t
      | .error e t => .error e t := by
  show EStateM.bind _ _ s = _
  unfold EStateM.bind
  cases (Decoding.operation (Address.even pc)).run f (Address.even pc) [] s <;> rfl

private theorem fetched_eq_asked (f : Source σ) (pc : UInt32) (s : σ) :
    f.fetched pc s = f.asked (Address.even pc) (Decoding.operation (Address.even pc)) 0 s := by
  unfold fetched
  rw [decode_eq, run_noted]
  cases (Decoding.operation (Address.even pc)).run f (Address.even pc) [] s <;> rfl

private theorem verdict_decode (f : Source σ) (pc : UInt32) (s : σ) :
    verdict (Instruction.decode f pc s) =
      (verdict ((Decoding.operation (Address.even pc)).run f (Address.even pc) [] s)).map
        fun (op, bytes) => ⟨Address.even pc, op, bytes⟩ := by
  rw [decode_eq]
  cases (Decoding.operation (Address.even pc)).run f (Address.even pc) [] s <;> rfl

/-- A source that notes its addresses replies as it would without. -/
theorem decode_noted (f : Source σ) (pc : UInt32) (s : σ) :
    Instruction.decode f.noted pc (s, []) =
      match Instruction.decode f pc s with
      | .ok i t => .ok i (t, f.fetched pc s)
      | .error e t => .error e (t, f.fetched pc s) := by
  rw [fetched_eq_asked, decode_eq, decode_eq, run_noted]
  cases (Decoding.operation (Address.even pc)).run f (Address.even pc) [] s <;> rfl

/-- The bytes of an encoding are fetched once each, in the order of their addresses, and they are ten at most. -/
theorem fetched_eq (f : Source σ) (pc : UInt32) (s : σ) :
    ∃ n ≤ 10, f.fetched pc s = addressesFrom (Address.even pc) n := by
  have hle := asked_length_le f (Address.even pc) (fun n _ h => h.2.2)
    (Decoding.operation_ends (Address.even pc)) s
  rw [Nat.zero_add] at hle
  refine ⟨_, hle, ?_⟩
  rw [fetched_eq_asked, addressesFrom, List.range_eq_range']
  exact asked_eq _ 0 s

/-- The same replies lead to the same instruction or to the same fault. -/
theorem decode_of_replies (h : g.replies t (f.fetched pc s) = f.replies s (f.fetched pc s)) :
    g.fetched pc t = f.fetched pc s ∧ verdict (Instruction.decode g pc t) = verdict (Instruction.decode f pc s) := by
  rw [fetched_eq_asked] at h
  obtain ⟨ha, hv⟩ := run_of_replies _ [] s t h
  rw [fetched_eq_asked, fetched_eq_asked, verdict_decode, verdict_decode, hv]
  exact ⟨ha, rfl⟩

/-- An instruction lies at the even address, and its bytes were the replies. -/
theorem replies_of_ok {i : Instruction} (h : verdict (Instruction.decode f pc s) = .ok i) :
    i.addr = Address.even pc ∧ f.replies s (f.fetched pc s) = i.bytes.map .ok := by
  have hd := run_decided f (Address.even pc) (Decoding.operation (Address.even pc)) [] s
  rw [verdict_decode] at h
  rw [fetched_eq_asked]
  cases hv : verdict ((Decoding.operation (Address.even pc)).run f (Address.even pc) [] s) with
  | ok r =>
    rw [hv] at h hd
    cases h
    obtain ⟨rest, hr, hrs⟩ := hd
    exact ⟨rfl, hrs.trans (congrArg _ hr.symm)⟩
  | error e =>
    rw [hv] at h
    cases h

theorem fetched_of_ok {i : Instruction} (h : verdict (Instruction.decode f pc s) = .ok i) :
    f.fetched pc s = addressesFrom i.addr i.bytes.length := by
  obtain ⟨haddr, hr⟩ := replies_of_ok h
  obtain ⟨n, -, hf⟩ := fetched_eq f pc s
  have hn : n = i.bytes.length := by
    have := congrArg List.length hr
    rwa [length_replies, hf, addressesFrom, List.length_map, List.length_range, List.length_map] at this
  rw [hf, haddr, hn]

/-- A fault reports the replies as an encoding that begins no instruction, or it is the last reply. -/
theorem replies_of_error {e : Fault} (h : verdict (Instruction.decode f pc s) = .error e) :
    ∃ bytes : List UInt8,
      e = .illegalInstruction (Address.even pc) bytes ∧ f.replies s (f.fetched pc s) = bytes.map .ok ∨
      f.replies s (f.fetched pc s) = bytes.map .ok ++ [.error e] := by
  have hd := run_decided f (Address.even pc) (Decoding.operation (Address.even pc)) [] s
  rw [verdict_decode] at h
  rw [fetched_eq_asked]
  cases hv : verdict ((Decoding.operation (Address.even pc)).run f (Address.even pc) [] s) with
  | ok r =>
    rw [hv] at h
    cases h
  | error e' =>
    rw [hv] at h hd
    cases h
    exact hd

end Instructions

/-! ### Sources without a state -/

section Fixed

variable {read read' : UInt32 → Except Fault UInt8} {pc : UInt32}

private theorem fixed_of_ok {addr : UInt32} {b : UInt8} (h : read addr = .ok b) : fixed read addr () = .ok b () := by
  rw [fixed, h]

private theorem fixed_of_error {addr : UInt32} {e : Fault} (h : read addr = .error e) :
    fixed read addr () = .error e () := by
  rw [fixed, h]

theorem replies_fixed (read : UInt32 → Except Fault UInt8) (addrs : List UInt32) :
    (fixed read).replies () addrs = addrs.map read := by
  induction addrs with
  | nil => rfl
  | cons addr addrs ih =>
    cases hr : read addr with
    | ok b =>
      rw [replies, fixed_of_ok hr, List.map_cons, hr]
      exact congrArg (List.cons _) ih
    | error e =>
      rw [replies, fixed_of_error hr, List.map_cons, hr]
      exact congrArg (List.cons _) ih

private theorem run_fixed (start : UInt32) (d : Decoding α) (consumed : List UInt8) :
    verdict (d.run (fixed read) start consumed ()) = d.run read start consumed := by
  induction d generalizing consumed with
  | done a => rfl
  | illegal => rfl
  | byte next ih =>
    show _ = (read (start + consumed.length.toUInt32)).bind _
    cases hr : read (start + consumed.length.toUInt32) with
    | ok b =>
      rw [run_of_ok (fixed_of_ok hr)]
      exact ih b _
    | error e =>
      rw [run_of_error (fixed_of_error hr)]
      rfl

theorem decode_fixed (read : UInt32 → Except Fault UInt8) (pc : UInt32) :
    verdict (Instruction.decode (fixed read) pc ()) = Instruction.decode read pc := by
  rw [verdict_decode, run_fixed]
  show _ = Except.bind _ _
  cases (Decoding.operation (Address.even pc)).run read (Address.even pc) [] <;> rfl

/-- An instruction is made of its own bytes. -/
theorem decode_of_agree {i : Instruction} (h : Instruction.decode read pc = .ok i)
    (ha : ∀ k < i.bytes.length, read' (i.addr + k.toUInt32) = read (i.addr + k.toUInt32)) :
    Instruction.decode read' pc = .ok i := by
  rw [← decode_fixed] at h ⊢
  rw [← h]
  refine (decode_of_replies ?_).2
  rw [replies_fixed, replies_fixed, fetched_of_ok h, addressesFrom, List.map_map, List.map_map]
  exact List.map_congr_left fun k hk => ha k (List.mem_range.1 hk)

end Fixed

end Source

end H8S
