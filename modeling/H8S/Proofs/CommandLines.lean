import H8S.CommandLine.Command
import Mathlib.Data.Nat.Digits.Defs

/-!
# Command lines

`Number.Numeral` says which texts stand for a number below a bound, and `Number.read` reads these and no others
(`Number.read_ok_iff`): digits are taken in from the highest on, and no number on the way is larger than the last.

A run takes its options one after the other, but flags and counts do not meddle with each other, so that the flags may be
thought of as taken first (`foldlM_takeOption`); of the counts the last one is left.  `Command.Reads` is the grammar of the
lines that are accepted, and it counts what is in a line beyond its usage: counts that are replaced, marks that are dropped
and arguments that are not looked at.  `Command.Usage` are the lines where there is nothing of the kind.
-/

namespace H8S

namespace Number

/-! ### Numerals -/

/-- The number that digits of a radix stand for, the highest first. -/
def value (radix : Nat) (digits : List Char) : Nat := Nat.ofDigits radix (digits.map digit).reverse

/-- The text stands for a number below a bound: at most one plus sign, and digits after it. -/
structure Numeral (radix bound : Nat) (text : List Char) (n : Nat) : Prop where
  digits : ∃ ds, ds ≠ [] ∧ (text = ds ∨ text = '+' :: ds) ∧ (∀ c ∈ ds, digit c < radix) ∧ n = value radix ds
  lt : n < bound

variable {radix bound n m : Nat} {text cs : List Char}

theorem value_cons (radix : Nat) (c : Char) (cs : List Char) :
    value radix (c :: cs) = digit c * radix ^ cs.length + value radix cs := by
  unfold value
  rw [List.map_cons, List.reverse_cons, Nat.ofDigits_append, Nat.ofDigits_singleton, List.length_reverse, List.length_map,
    Nat.mul_comm, Nat.add_comm]

/-- No number on the way is larger than the one that is read. -/
theorem readDigits_ok_iff : readDigits radix bound n cs = .ok m ↔
    (∀ c ∈ cs, digit c < radix) ∧ m = n * radix ^ cs.length + value radix cs ∧ (cs = [] ∨ m < bound) := by
  induction cs generalizing n with
  | nil =>
    have hnil : value radix [] = 0 := rfl
    simp [readDigits, hnil, eq_comm]
  | cons c cs ih =>
    have hstep : (n * radix + digit c) * radix ^ cs.length + value radix cs =
        n * radix ^ (c :: cs).length + value radix (c :: cs) := by
      rw [value_cons, List.length_cons]
      ring
    unfold readDigits
    split
    · next hdigit => simp [Nat.not_lt.2 hdigit]
    · next hdigit =>
      have hdigit : digit c < radix := Nat.not_le.1 hdigit
      have hgrows : n * radix + digit c ≤ (n * radix + digit c) * radix ^ cs.length + value radix cs :=
        Nat.le_trans (Nat.le_mul_of_pos_right _ (Nat.pow_pos (by omega))) (Nat.le_add_right _ _)
      split
      · next hlarge =>
        constructor
        · intro h
          cases h
        · rintro ⟨-, hm, hnil | hlt⟩
          · cases hnil
          · omega
      · next hsmall =>
        rw [ih, hstep]
        simp only [List.forall_mem_cons, hdigit, true_and, List.cons_ne_nil, false_or]
        refine and_congr_right fun _ => and_congr_right fun hm => ?_
        constructor
        · rintro (rfl | hlt)
          · rw [hm, ← hstep]
            simpa [value] using hsmall
          · exact hlt
        · exact .inr

/-- What is read are the numerals below the bound. -/
theorem read_ok_iff (hradix : radix ≤ 36) : read radix bound text = .ok n ↔ Numeral radix bound text n := by
  have hplus : ¬digit '+' < radix := Nat.not_lt.2 hradix
  have hread : ∀ ds, ds ≠ [] → (readDigits radix bound 0 ds = .ok n ↔
      (∀ c ∈ ds, digit c < radix) ∧ n = value radix ds ∧ n < bound) := by
    intro ds hds
    rw [readDigits_ok_iff]
    simp [hds]
  constructor
  · intro h
    unfold read at h
    split at h
    · cases h
    · next c cs =>
      obtain ⟨hdigits, hn, hlt⟩ := (hread (c :: cs) (List.cons_ne_nil c cs)).1 h
      exact ⟨⟨c :: cs, List.cons_ne_nil c cs, .inr rfl, hdigits, hn⟩, hlt⟩
    · next hne _ =>
      obtain ⟨hdigits, hn, hlt⟩ := (hread text hne).1 h
      exact ⟨⟨text, hne, .inl rfl, hdigits, hn⟩, hlt⟩
  · rintro ⟨⟨ds, hds, htext, hdigits, hn⟩, hlt⟩
    have h := (hread ds hds).2 ⟨hdigits, hn, hlt⟩
    obtain ⟨c, cs, rfl⟩ := List.exists_cons_of_ne_nil hds
    rcases htext with rfl | rfl
    · have hc : c ≠ '+' := fun hc => hplus (hc ▸ hdigits c List.mem_cons_self)
      rw [← h]
      unfold read
      split <;> simp_all
    · exact h

/-- A text stands for one number at most. -/
theorem Numeral.unique (hradix : radix ≤ 36) (h : Numeral radix bound text n) (h' : Numeral radix bound text m) : n = m := by
  have hn := (read_ok_iff hradix).2 h
  rw [(read_ok_iff hradix).2 h'] at hn
  cases hn
  rfl

end Number

namespace Command

open Number

/-! ### Options of a run -/

/-- The options that need no value. -/
def IsFlag (arg : String) : Prop := arg = "--trace" ∨ arg = "--board"

instance : DecidablePred IsFlag := fun arg => inferInstanceAs (Decidable (arg = "--trace" ∨ arg = "--board"))

/-- The options that have to be cycle counts. -/
def counts (args : List String) : List String := args.filter fun arg => ¬IsFlag arg

/-- What the options of a run say. -/
structure Sets (args : List String) (o : RunOptions) : Prop where
  trace : o.trace = decide ("--trace" ∈ args)
  board : o.board = decide ("--board" ∈ args)
  /-- Everything else is a cycle count, -/
  numerals : ∀ text ∈ counts args, ∃ n, Numeral 10 UInt64.size text.toList n
  /-- of which the last one counts, -/
  last : ∀ text, (counts args).getLast? = some text → Numeral 10 UInt64.size text.toList o.cycles.toNat
  /-- or a second on the default clock. -/
  fresh : counts args = [] → o.cycles = 16000000

/-- A command line, the command that it is read as, and how many parts of it are beyond the usage: cycle counts before the
last one, marks before an address after the first one, and arguments after the count of a listing. -/
inductive Reads : List String → Command → Nat → Prop
  | run {firmware : String} {args : List String} {o : RunOptions} : Sets args o →
      Reads ("run" :: firmware :: args) (.run firmware o) ((counts args).length - 1)
  | list {firmware text : String} {marks : Nat} {digits : List Char} {addr : UInt32} :
      text.toList = (List.replicate marks ['0', 'x']).flatten ++ digits → Numeral 16 UInt32.size digits addr.toNat →
      Reads ["disasm", firmware, text] (.disassemble firmware addr defaultCount) (marks - 1)
  | listCounted {firmware text len : String} {marks count : Nat} {digits : List Char} {addr : UInt32}
      {more : List String} :
      text.toList = (List.replicate marks ['0', 'x']).flatten ++ digits → Numeral 16 UInt32.size digits addr.toNat →
      Numeral 10 UInt64.size len.toList count →
      Reads ("disasm" :: firmware :: text :: len :: more) (.disassemble firmware addr count) (marks - 1 + more.length)

private theorem takeOption_trace (o : RunOptions) : takeOption o "--trace" = .ok { o with trace := true } := rfl

private theorem takeOption_board (o : RunOptions) : takeOption o "--board" = .ok { o with board := true } := rfl

private theorem takeOption_count {o : RunOptions} {arg : String} (h : ¬IsFlag arg) :
    takeOption o arg =
      match Number.read 10 UInt64.size arg.toList with
      | .ok n => .ok { o with cycles := n.toUInt64 }
      | .error e => .error (.invalidCycles arg e) := by
  unfold IsFlag at h
  unfold takeOption
  exact (if_neg fun htrace => h (.inl htrace)).trans (if_neg fun hboard => h (.inr hboard))

/-- Flags take effect wherever they stand, so that the counts may be taken in after them. -/
private theorem foldlM_takeOption (o : RunOptions) (args : List String) :
    args.foldlM takeOption o = (counts args).foldlM takeOption { o with
      trace := o.trace || decide ("--trace" ∈ args)
      board := o.board || decide ("--board" ∈ args) } := by
  induction args generalizing o with
  | nil => simp [counts]
  | cons arg args ih =>
    rw [List.foldlM_cons]
    by_cases hflag : IsFlag arg
    · have hcounts : counts (arg :: args) = counts args := List.filter_cons_of_neg (by simpa using hflag)
      rw [hcounts]
      rcases hflag with rfl | rfl
      · rw [takeOption_trace]
        refine (ih _).trans ?_
        simp
      · rw [takeOption_board]
        refine (ih _).trans ?_
        simp
    · have hcounts : counts (arg :: args) = arg :: counts args := List.filter_cons_of_pos (by simpa using hflag)
      have htrace : "--trace" ≠ arg := fun h => hflag (.inl h.symm)
      have hboard : "--board" ≠ arg := fun h => hflag (.inr h.symm)
      rw [hcounts, List.foldlM_cons, takeOption_count hflag, takeOption_count hflag]
      simp only [List.mem_cons, htrace, hboard, false_or]
      cases Number.read 10 UInt64.size arg.toList with
      | ok n => exact ih _
      | error e => rfl

/-- All counts are looked at, and the last one is taken. -/
private theorem foldlM_counts {o o' : RunOptions} {texts : List String} (h : ∀ text ∈ texts, ¬IsFlag text) :
    texts.foldlM takeOption o = .ok o' ↔
      (∀ text ∈ texts, ∃ n, Numeral 10 UInt64.size text.toList n) ∧ o'.trace = o.trace ∧ o'.board = o.board ∧
        (∀ text, texts.getLast? = some text → Numeral 10 UInt64.size text.toList o'.cycles.toNat) ∧
        (texts = [] → o'.cycles = o.cycles) := by
  induction texts generalizing o with
  | nil =>
    constructor
    · rintro ⟨⟩
      simp
    · rintro ⟨-, ht, hb, -, hc⟩
      cases o
      cases o'
      cases ht
      cases hb
      cases hc rfl
      rfl
  | cons text texts ih =>
    have hrest : ∀ text ∈ texts, ¬IsFlag text := fun text ht => h text (List.mem_cons_of_mem _ ht)
    have hnumeral : ∀ n, Number.read 10 UInt64.size text.toList = .ok n ↔ Numeral 10 UInt64.size text.toList n :=
      fun n => read_ok_iff (by decide)
    rw [List.foldlM_cons, takeOption_count (h text List.mem_cons_self)]
    cases hread : Number.read 10 UInt64.size text.toList with
    | error e =>
      constructor
      · rintro ⟨⟩
      · rintro ⟨hall, -⟩
        obtain ⟨n, hn⟩ := hall text List.mem_cons_self
        rw [(hnumeral n).2 hn] at hread
        cases hread
    | ok n =>
      have hn := (hnumeral n).1 hread
      have hsize : n.toUInt64.toNat = n := UInt64.toNat_ofNat_of_lt' hn.lt
      refine (ih hrest).trans ?_
      cases texts with
      | nil =>
        have hcycles : o'.cycles = n.toUInt64 ↔ Numeral 10 UInt64.size text.toList o'.cycles.toNat := by
          constructor
          · intro hc
            rw [hc, hsize]
            exact hn
          · intro hc
            exact UInt64.toNat_inj.1 ((hc.unique (by decide) hn).trans hsize.symm)
        simp [hcycles, Exists.intro n hn]
      | cons next texts => simp [Exists.intro n hn]

private theorem except_bind_ok {ε α β : Type} {m : Except ε α} {f : α → Except ε β} {b : β} :
    (m >>= f) = .ok b ↔ ∃ a, m = .ok a ∧ f a = .ok b := by
  cases m with
  | error e =>
    constructor
    · intro h
      cases h
    · rintro ⟨a, ha, -⟩
      cases ha
  | ok a =>
    constructor
    · intro h
      exact ⟨a, rfl, h⟩
    · rintro ⟨_, ha, h⟩
      cases ha
      exact h

private theorem parseRun_ok_iff {firmware : String} {args : List String} {c : Command} :
    parseRun firmware args = .ok c ↔ ∃ o, c = .run firmware o ∧ Sets args o := by
  have hflags : ∀ text ∈ counts args, ¬IsFlag text := fun text ht => by simpa using (List.mem_filter.1 ht).2
  have hsets : ∀ o, args.foldlM takeOption {} = .ok o ↔ Sets args o := by
    intro o
    rw [foldlM_takeOption, foldlM_counts hflags]
    constructor
    · rintro ⟨hnumerals, htrace, hboard, hlast, hfresh⟩
      exact ⟨by simp [htrace], by simp [hboard], hnumerals, hlast, hfresh⟩
    · rintro ⟨htrace, hboard, hnumerals, hlast, hfresh⟩
      exact ⟨hnumerals, by simp [htrace], by simp [hboard], hlast, hfresh⟩
  refine except_bind_ok.trans ?_
  constructor
  · rintro ⟨o, ho, hc⟩
    cases hc
    exact ⟨o, rfl, (hsets o).1 ho⟩
  · rintro ⟨o, rfl, ho⟩
    exact ⟨o, (hsets o).2 ho, rfl⟩

/-! ### Addresses and counts of a listing -/

private theorem dropMarks_eq (digits : List Char) :
    ∃ marks, digits = (List.replicate marks ['0', 'x']).flatten ++ dropMarks digits := by
  fun_induction dropMarks digits with
  | case1 cs ih =>
    obtain ⟨marks, hmarks⟩ := ih
    refine ⟨marks + 1, ?_⟩
    rw [List.replicate_succ, List.flatten_cons, List.append_assoc, ← hmarks]
    rfl
  | case2 cs h => exact ⟨0, rfl⟩

/-- No numeral begins with a mark. -/
private theorem dropMarks_of_numeral {digits : List Char} {n : Nat} (h : Numeral 16 UInt32.size digits n) (marks : Nat) :
    dropMarks ((List.replicate marks ['0', 'x']).flatten ++ digits) = digits := by
  induction marks with
  | zero =>
    show dropMarks digits = digits
    unfold dropMarks
    split
    · next cs =>
      obtain ⟨⟨ds, -, htext, hdigits, -⟩, -⟩ := h
      rcases htext with rfl | htext
      · exact absurd (hdigits 'x' (by simp)) (by decide)
      · cases htext
    · rfl
  | succ marks ih => exact ih

private theorem parseAddress_ok_iff {text : String} {addr : UInt32} :
    parseAddress text = .ok addr ↔
      ∃ marks digits, text.toList = (List.replicate marks ['0', 'x']).flatten ++ digits ∧
        Numeral 16 UInt32.size digits addr.toNat := by
  have hnumeral : ∀ n, Number.read 16 UInt32.size (dropMarks text.toList) = .ok n ↔
      Numeral 16 UInt32.size (dropMarks text.toList) n := fun n => read_ok_iff (by decide)
  unfold parseAddress
  constructor
  · intro h
    cases hread : Number.read 16 UInt32.size (dropMarks text.toList) with
    | error e =>
      rw [hread] at h
      cases h
    | ok n =>
      rw [hread] at h
      cases h
      have hn := (hnumeral n).1 hread
      have hsize : n.toUInt32.toNat = n := UInt32.toNat_ofNat_of_lt' hn.lt
      obtain ⟨marks, hmarks⟩ := dropMarks_eq text.toList
      exact ⟨marks, _, hmarks, by rwa [hsize]⟩
  · rintro ⟨marks, digits, htext, hn⟩
    have hdrop : dropMarks text.toList = digits := by rw [htext, dropMarks_of_numeral hn]
    rw [← hdrop] at hn
    rw [(hnumeral _).2 hn]
    exact congrArg Except.ok (UInt32.ofNat_toNat)

private theorem parseCount_ok_iff {len : String} {more : List String} {count : Nat} :
    parseCount (len :: more) = .ok count ↔ Numeral 10 UInt64.size len.toList count := by
  have hnumeral : Number.read 10 UInt64.size len.toList = .ok count ↔ Numeral 10 UInt64.size len.toList count :=
    read_ok_iff (by decide)
  rw [← hnumeral]
  cases hread : Number.read 10 UInt64.size len.toList with
  | error e => simp [parseCount, hread]
  | ok n => simp [parseCount, hread]

private theorem parseDisassemble_ok_iff {firmware text : String} {args : List String} {c : Command} :
    parseDisassemble firmware (text :: args) = .ok c ↔
      ∃ addr count, parseAddress text = .ok addr ∧ parseCount args = .ok count ∧ c = .disassemble firmware addr count := by
  refine except_bind_ok.trans ?_
  constructor
  · rintro ⟨addr, haddr, h⟩
    obtain ⟨count, hcount, hc⟩ := except_bind_ok.1 h
    cases hc
    exact ⟨addr, count, haddr, hcount, rfl⟩
  · rintro ⟨addr, count, haddr, hcount, rfl⟩
    exact ⟨addr, haddr, except_bind_ok.2 ⟨count, hcount, rfl⟩⟩

/-! ### Command lines -/

/-- What is read as a command, and as which. -/
theorem parse_ok_iff {args : List String} {c : Command} : parse args = .ok c ↔ ∃ surplus, Reads args c surplus := by
  constructor
  · intro h
    unfold parse at h
    split at h
    · cases h
    · cases h
    · next name firmware args =>
      split at h
      · obtain ⟨o, rfl, ho⟩ := parseRun_ok_iff.1 h
        exact ⟨_, .run ho⟩
      · cases args with
        | nil => cases h
        | cons text args =>
          obtain ⟨addr, count, haddr, hcount, rfl⟩ := parseDisassemble_ok_iff.1 h
          obtain ⟨marks, digits, htext, hn⟩ := parseAddress_ok_iff.1 haddr
          cases args with
          | nil =>
            cases hcount
            exact ⟨_, .list htext hn⟩
          | cons len more => exact ⟨_, .listCounted htext hn (parseCount_ok_iff.1 hcount)⟩
      · cases h
  · rintro ⟨surplus, h⟩
    cases h with
    | run ho => exact parseRun_ok_iff.2 ⟨_, rfl, ho⟩
    | list htext hn => exact parseDisassemble_ok_iff.2 ⟨_, _, parseAddress_ok_iff.2 ⟨_, _, htext, hn⟩, rfl, rfl⟩
    | listCounted htext hn hcount =>
      exact parseDisassemble_ok_iff.2
        ⟨_, _, parseAddress_ok_iff.2 ⟨_, _, htext, hn⟩, parseCount_ok_iff.2 hcount, rfl⟩

/-! ### What is beyond the usage -/

/-- A command line as the usage has it. -/
def Usage (args : List String) (c : Command) : Prop := Reads args c 0

private theorem marks_unique {text digits digits' : List Char} {marks marks' n n' : Nat}
    (h : text = (List.replicate marks ['0', 'x']).flatten ++ digits) (hn : Numeral 16 UInt32.size digits n)
    (h' : text = (List.replicate marks' ['0', 'x']).flatten ++ digits') (hn' : Numeral 16 UInt32.size digits' n') :
    marks = marks' := by
  have hdigits : digits = digits' := by
    rw [← dropMarks_of_numeral hn marks, ← dropMarks_of_numeral hn' marks', ← h, ← h']
  have hlen := congrArg List.length (h.symm.trans h')
  simp only [List.length_append, List.length_flatten, List.map_replicate, hdigits] at hlen
  simpa using hlen

/-- A command line is read in one way, and what is beyond the usage can be told from it. -/
private theorem Reads.unique {args : List String} {c c' : Command} {k k' : Nat} (h : Reads args c k)
    (h' : Reads args c' k') : c = c' ∧ k = k' := by
  have hc : parse args = .ok c := parse_ok_iff.2 ⟨k, h⟩
  have hc' : parse args = .ok c' := parse_ok_iff.2 ⟨k', h'⟩
  refine ⟨Except.ok.inj (hc.symm.trans hc'), ?_⟩
  -- the names of the commands differ, so that the lines can only be of one kind
  generalize hline : args = line at h'
  cases h with
  | run ho =>
    cases h' with
    | run ho' =>
      cases hline
      rfl
    | list htext' hn' => exact absurd (List.cons.inj hline).1 (by decide)
    | listCounted htext' hn' hcount' => exact absurd (List.cons.inj hline).1 (by decide)
  | list htext hn =>
    cases h' with
    | run ho' => exact absurd (List.cons.inj hline).1 (by decide)
    | list htext' hn' =>
      cases hline
      rw [marks_unique htext hn htext' hn']
    | listCounted htext' hn' hcount' => cases hline
  | listCounted htext hn hcount =>
    cases h' with
    | run ho' => exact absurd (List.cons.inj hline).1 (by decide)
    | list htext' hn' => cases hline
    | listCounted htext' hn' hcount' =>
      cases hline
      rw [marks_unique htext hn htext' hn']

private theorem not_flag_of_numeral {arg : String} {bound n : Nat} (h : Numeral 10 bound arg.toList n) : ¬IsFlag arg := by
  have hread := (read_ok_iff (by decide)).2 h
  rintro (rfl | rfl) <;> cases hread

/-- A count replaces what was there before it. -/
private theorem foldlM_replaces {o : RunOptions} {args : List String} (cycles : UInt64) (h : counts args ≠ []) :
    args.foldlM takeOption { o with cycles := cycles } = args.foldlM takeOption o := by
  rw [foldlM_takeOption, foldlM_takeOption o]
  have hfirst : ∀ text ∈ counts args, ¬IsFlag text := fun text ht => by simpa using (List.mem_filter.1 ht).2
  cases hc : counts args with
  | nil => exact absurd hc h
  | cons text texts =>
    rw [hc] at hfirst
    simp only [List.foldlM_cons, takeOption_count (hfirst text List.mem_cons_self)]

/-- How a command line is read. -/
structure ReadsLine (line : List String) : Prop where
  /-- It is accepted exactly if it is one of the usage, but for what is beyond it, -/
  exact : ∀ c, parse line = .ok c ↔ ∃ surplus, Reads line c surplus
  /-- and what that is can be told from the line. -/
  unique : ∀ {c c' k k'}, Reads line c k → Reads line c' k' → c = c' ∧ k = k'
  /-- So it is the usage that decides exactly if there is nothing beyond it. -/
  usage : (∀ c, parse line = .ok c ↔ Usage line c) ↔ ∀ c surplus, Reads line c surplus → surplus = 0
  /-- Of the options of a run only the order of the counts matters, -/
  order : ∀ {firmware args args'}, line = "run" :: firmware :: args → args.Perm args' → counts args = counts args' →
    parse line = parse ("run" :: firmware :: args')
  /-- so that no order does where there is one count at most. -/
  permuted : ∀ {firmware args args'}, line = "run" :: firmware :: args → args.Perm args' → (counts args).length ≤ 1 →
    parse line = parse ("run" :: firmware :: args')
  /-- A count is ignored if another one follows, -/
  replaced : ∀ {firmware pre text n post}, line = "run" :: firmware :: (pre ++ text :: post) →
    Numeral 10 UInt64.size text.toList n → counts post ≠ [] → parse line = parse ("run" :: firmware :: (pre ++ post))
  /-- a mark before any address, -/
  marked : ∀ {firmware text args}, line = "disasm" :: firmware :: ("0x" ++ text) :: args → ∀ c, parse line = .ok c ↔
    parse ("disasm" :: firmware :: text :: args) = .ok c
  /-- and whatever follows the count of a listing. -/
  followed : ∀ {firmware text len more}, line = "disasm" :: firmware :: text :: len :: more →
    parse line = parse ["disasm", firmware, text, len]

private theorem parse_order {firmware : String} {args args' : List String} (hperm : args.Perm args')
    (hcounts : counts args = counts args') :
    parse ("run" :: firmware :: args) = parse ("run" :: firmware :: args') := by
  show parseRun firmware args = parseRun firmware args'
  unfold parseRun
  rw [foldlM_takeOption, foldlM_takeOption _ args', hcounts]
  simp only [hperm.mem_iff]

private theorem parse_permuted {firmware : String} {args args' : List String} (hperm : args.Perm args')
    (hone : (counts args).length ≤ 1) : parse ("run" :: firmware :: args) = parse ("run" :: firmware :: args') := by
  have hcounts : (counts args).Perm (counts args') := hperm.filter _
  refine parse_order hperm ?_
  -- of so few counts there is no other order
  rcases Nat.le_one_iff_eq_zero_or_eq_one.1 hone with hlen | hlen
  · rw [List.length_eq_zero_iff.1 hlen] at hcounts ⊢
    exact hcounts.nil_eq
  · obtain ⟨text, htext⟩ := List.length_eq_one_iff.1 hlen
    rw [htext] at hcounts ⊢
    exact (List.perm_singleton.1 hcounts.symm).symm

private theorem parse_replaced {firmware text : String} {pre post : List String} {n : Nat}
    (hn : Numeral 10 UInt64.size text.toList n) (hpost : counts post ≠ []) :
    parse ("run" :: firmware :: (pre ++ text :: post)) = parse ("run" :: firmware :: (pre ++ post)) := by
  have htake : ∀ o, takeOption o text = .ok { o with cycles := n.toUInt64 } := fun o => by
    rw [takeOption_count (not_flag_of_numeral hn), (read_ok_iff (by decide)).2 hn]
  show parseRun firmware _ = parseRun firmware _
  unfold parseRun
  simp only [List.foldlM_append, List.foldlM_cons, htake]
  cases pre.foldlM takeOption {} with
  | error e => rfl
  | ok o => exact congrArg (· >>= fun o => pure (Command.run firmware o)) (foldlM_replaces n.toUInt64 hpost)

private theorem parse_marked {firmware text : String} {args : List String} {c : Command} :
    parse ("disasm" :: firmware :: ("0x" ++ text) :: args) = .ok c ↔
      parse ("disasm" :: firmware :: text :: args) = .ok c := by
  have hdrop : dropMarks ("0x" ++ text).toList = dropMarks text.toList := by
    rw [String.toList_append]
    rfl
  have haddr : ∀ addr, parseAddress ("0x" ++ text) = .ok addr ↔ parseAddress text = .ok addr := fun addr => by
    unfold parseAddress
    rw [hdrop]
    cases Number.read 16 UInt32.size (dropMarks text.toList) with
    | error e => simp
    | ok n => rfl
  show parseDisassemble firmware (("0x" ++ text) :: args) = .ok c ↔ parseDisassemble firmware (text :: args) = .ok c
  simp only [parseDisassemble_ok_iff, haddr]

/-- What is accepted are the lines of the usage, with counts, marks and arguments beyond it that nothing is done with. -/
theorem parse_reads (line : List String) : ReadsLine line where
  exact c := parse_ok_iff
  unique := Reads.unique
  usage := by
    constructor
    · intro h c surplus hc
      have husage : Usage line c := (h c).1 (parse_ok_iff.2 ⟨surplus, hc⟩)
      exact (hc.unique husage).2
    · intro h c
      refine parse_ok_iff.trans ⟨?_, fun husage => ⟨0, husage⟩⟩
      rintro ⟨surplus, hc⟩
      rwa [h c surplus hc] at hc
  order hline hperm hcounts := hline ▸ parse_order hperm hcounts
  permuted hline hperm hone := hline ▸ parse_permuted hperm hone
  replaced hline hn hpost := hline ▸ parse_replaced hn hpost
  marked hline c := hline ▸ parse_marked
  followed hline := hline ▸ rfl

/-- Flags may stand before, between and after two counts, of which the second is taken. -/
theorem parse_reads_two_counts :
    parse ["run", "fw.bin", "1", "--trace", "2"] = .ok (.run "fw.bin" { cycles := 2, trace := true }) ∧
      parse ["run", "fw.bin", "1", "--trace", "2"] = parse ["run", "fw.bin", "--trace", "1", "2"] ∧
      parse ["run", "fw.bin", "--trace", "1", "2"] = parse ["run", "fw.bin", "--trace", "2"] ∧
      parse ["run", "fw.bin", "--trace", "2"] = parse ["run", "fw.bin", "2", "--trace"] := by
  have hone : Numeral 10 UInt64.size "1".toList 1 := (read_ok_iff (by decide)).1 rfl
  have htwo : Numeral 10 UInt64.size "2".toList 2 := (read_ok_iff (by decide)).1 rfl
  have hcounts : counts ["1", "--trace", "2"] = ["1", "2"] := by decide
  have hsets : Sets ["1", "--trace", "2"] { cycles := 2, trace := true } := by
    refine ⟨rfl, rfl, ?_, ?_, ?_⟩
    · rw [hcounts]
      simpa using ⟨⟨1, hone⟩, 2, htwo⟩
    · rw [hcounts]
      rintro text ⟨⟩
      exact htwo
    · rw [hcounts]
      rintro ⟨⟩
  have hreplaced : parse ("run" :: "fw.bin" :: (["--trace"] ++ "1" :: ["2"])) =
      parse ("run" :: "fw.bin" :: (["--trace"] ++ ["2"])) :=
    (parse_reads _).replaced rfl hone (by decide)
  exact ⟨((parse_reads _).exact _).2 ⟨_, .run hsets⟩, (parse_reads _).order rfl (by decide) (by decide), hreplaced,
    (parse_reads _).permuted rfl (by decide) (by decide)⟩

private theorem not_usage {args : List String} {c : Command} {surplus : Nat} (h : Reads args c (surplus + 1)) :
    ¬∃ c, Usage args c := by
  rintro ⟨c', h'⟩
  have hsurplus := (h.unique h').2
  omega

/-- An argument after the count, a second mark and a second count are accepted, and none of them is in the usage. -/
theorem parse_beyond_usage :
    (parse ["disasm", "fw.bin", "100", "32", "junk"] = .ok (.disassemble "fw.bin" 0x100 32) ∧
      ¬∃ c, Usage ["disasm", "fw.bin", "100", "32", "junk"] c) ∧
    (parse ["disasm", "fw.bin", "0x0x10"] = .ok (.disassemble "fw.bin" 0x10 32) ∧
      ¬∃ c, Usage ["disasm", "fw.bin", "0x0x10"] c) ∧
    (parse ["run", "fw.bin", "1", "2"] = .ok (.run "fw.bin" { cycles := 2 }) ∧
      ¬∃ c, Usage ["run", "fw.bin", "1", "2"] c) := by
  have hplain : "100".toList = (List.replicate 0 ['0', 'x']).flatten ++ "100".toList := rfl
  have hmarked : "0x0x10".toList = (List.replicate 2 ['0', 'x']).flatten ++ "10".toList := rfl
  have h100 : Numeral 16 UInt32.size "100".toList (0x100 : UInt32).toNat := (read_ok_iff (by decide)).1 rfl
  have h10 : Numeral 16 UInt32.size "10".toList (0x10 : UInt32).toNat := (read_ok_iff (by decide)).1 rfl
  have h32 : Numeral 10 UInt64.size "32".toList 32 := (read_ok_iff (by decide)).1 rfl
  have hrun : parseRun "fw.bin" ["1", "2"] = .ok (.run "fw.bin" { cycles := 2 }) := rfl
  have hfollowed : Reads ["disasm", "fw.bin", "100", "32", "junk"] (.disassemble "fw.bin" 0x100 32) 1 :=
    .listCounted hplain h100 h32
  have hdropped : Reads ["disasm", "fw.bin", "0x0x10"] (.disassemble "fw.bin" 0x10 32) 1 := .list hmarked h10
  have hreplaced : Reads ["run", "fw.bin", "1", "2"] (.run "fw.bin" { cycles := 2 }) 1 := by
    obtain ⟨o, ho, hsets⟩ := parseRun_ok_iff.1 hrun
    cases ho
    exact .run hsets
  exact ⟨⟨rfl, not_usage hfollowed⟩, ⟨rfl, not_usage hdropped⟩, hrun, not_usage hreplaced⟩

end Command

end H8S
