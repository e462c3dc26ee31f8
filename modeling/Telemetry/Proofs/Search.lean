import Telemetry.Search

/-!
Binary search finds the border. In an array where no element that satisfies a predicate stands
behind one that fails it, `partitionPoint` is the place where the predicate turns:
`partitionPoint_bounds`. The invariant of the halving is `Splits`, everything before the range
being known to satisfy the predicate and everything behind it to fail.
-/

namespace Telemetry.Search

section Border

variable {α : Type} {p : α → Bool} {xs : Array α}

/-- No element that satisfies the predicate stands behind one that fails it. -/
def TurnsOnce (p : α → Bool) (xs : Array α) : Prop :=
  ∀ (i j : Nat) (x y : α), i ≤ j → xs[i]? = some x → xs[j]? = some y → p y = true → p x = true

/-- The elements before `lo` satisfy the predicate and those from `hi` on fail it. -/
structure Splits (p : α → Bool) (xs : Array α) (lo hi : Nat) : Prop where
  le : lo ≤ hi
  le_size : hi ≤ xs.size
  before : ∀ (i : Nat) (x : α), i < lo → xs[i]? = some x → p x = true
  behind : ∀ (i : Nat) (x : α), hi ≤ i → xs[i]? = some x → p x = false

/-- Halving keeps the invariant and ends in an empty range. -/
theorem bisect_splits (hturn : TurnsOnce p xs) {lo hi : Nat} (h : Splits p xs lo hi) :
    Splits p xs (bisect p xs lo hi) (bisect p xs lo hi) := by
  fun_induction bisect p xs lo hi with
  | case1 lo hi hlt mid x hx hp ih =>
    refine ih ⟨by omega, h.le_size, fun i y hi hy => ?_, h.behind⟩
    exact hturn i mid y x (by omega) hy hx hp
  | case2 lo hi hlt mid x hx hp ih =>
    refine ih ⟨by omega, by have := h.le_size; omega, h.before, fun i y hi hy => ?_⟩
    -- an element behind the middle that satisfied the predicate would carry the middle along
    cases hpy : p y with
    | false => rfl
    | true => exact absurd (hturn mid i x y hi hx hy hpy) hp
  | case3 lo hi hlt mid hnone ih =>
    have hsize := h.le_size
    rw [Array.getElem?_eq_none_iff] at hnone
    omega
  | case4 lo hi hge =>
    have heq : hi = lo := by have := h.le; omega
    subst heq
    exact h

/-- **The border**: the elements before `partitionPoint` satisfy the predicate, those from there on
fail it. -/
theorem partitionPoint_bounds (hturn : TurnsOnce p xs) :
    Splits p xs (partitionPoint p xs) (partitionPoint p xs) := by
  refine bisect_splits hturn ⟨Nat.zero_le _, Nat.le_refl _, ?_, ?_⟩
  · intro i x hi
    omega
  · intro i x hi hx
    have hlt := (Array.getElem?_eq_some_iff.mp hx).1
    omega

end Border

end Telemetry.Search
