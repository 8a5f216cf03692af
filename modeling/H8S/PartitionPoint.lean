/-!
# Searching by halving

A test cuts a sequence in two if it holds up to some place and fails from there on.  `partitionPoint` finds the place by
halving what is left of the sequence.  Where the test cuts nothing it still answers with some place of the sequence
(`partitionPoint_le`); where it does, the elements before the place are those for which it holds (`Cuts.lt_partitionPoint`).
-/

namespace H8S

variable {α : Type} {holds : α → Bool} {xs : List α}

/-- The place between `lo` and `hi` where a test begins to fail. -/
def partitionBetween (holds : α → Bool) (xs : List α) (lo hi : Nat) (h : hi ≤ xs.length) : Nat :=
  if hlt : lo < hi then
    let mid := (lo + hi) / 2
    have hmid : mid < xs.length := by omega
    if holds xs[mid] then partitionBetween holds xs (mid + 1) hi h
    else partitionBetween holds xs lo mid (by omega)
  else lo
termination_by hi - lo

/-- The place where a test begins to fail, at the latest the end. -/
def partitionPoint (holds : α → Bool) (xs : List α) : Nat := partitionBetween holds xs 0 xs.length (Nat.le_refl _)

/-- The test holds up to some place and fails from there on. -/
def Cuts (holds : α → Bool) (xs : List α) : Prop := xs.Pairwise fun x y => holds y = true → holds x = true

private theorem partitionBetween_le {lo hi : Nat} (h : hi ≤ xs.length) (hlo : lo ≤ hi) :
    partitionBetween holds xs lo hi h ≤ hi := by
  fun_induction partitionBetween holds xs lo hi h with
  | case1 lo hi h hlt mid hmid _ ih => exact ih (by omega)
  | case2 lo hi h hlt mid hmid _ ih =>
    have := ih (by omega)
    omega
  | case3 lo hi h hlt => exact hlo

theorem partitionPoint_le : partitionPoint holds xs ≤ xs.length := partitionBetween_le _ (Nat.zero_le _)

namespace Cuts

private theorem holds_of_le (hc : Cuts holds xs) {j k : Nat} (hjk : j ≤ k) (hk : k < xs.length)
    (h : holds xs[k] = true) : holds xs[j] = true := by
  rcases Nat.eq_or_lt_of_le hjk with rfl | hlt
  · exact h
  · exact List.pairwise_iff_getElem.1 hc j k (by omega) hk hlt h

/-- The search keeps the place between its ends. -/
private theorem lt_partitionBetween (hc : Cuts holds xs) {lo hi : Nat} (h : hi ≤ xs.length) {k : Nat}
    (hk : k < xs.length) (below : k < lo → holds xs[k] = true) (above : hi ≤ k → holds xs[k] = false) (hlo : lo ≤ hi) :
    k < partitionBetween holds xs lo hi h ↔ holds xs[k] = true := by
  fun_induction partitionBetween holds xs lo hi h with
  | case1 lo hi h hlt mid hmid ht ih =>
    exact ih (fun hle => hc.holds_of_le (by omega) hmid ht) above (by omega)
  | case2 lo hi h hlt mid hmid hf ih =>
    refine ih below (fun hle => ?_) (by omega)
    -- the test holds no more once it has failed
    cases hkt : holds xs[k] with
    | false => rfl
    | true => exact absurd (hc.holds_of_le hle hk hkt) hf
  | case3 lo hi h hlt =>
    by_cases hk' : k < lo
    · simp [hk', below hk']
    · simp [hk', above (by omega)]

/-- The test holds of exactly the elements before the place. -/
theorem lt_partitionPoint (hc : Cuts holds xs) {k : Nat} (hk : k < xs.length) :
    k < partitionPoint holds xs ↔ holds xs[k] = true :=
  hc.lt_partitionBetween (Nat.le_refl _) hk (by omega) (by omega) (Nat.zero_le _)

end Cuts

end H8S
