import Mathlib.Data.List.Pairwise

/-!
Sorting without ties. Where no two elements of a list are in one place of an order, sorting puts the
list in strict order (`pairwise_mergeSort_lt`), and the sorted list depends on nothing but what is in
it (`mergeSort_eq_of_mem_iff`).
-/

namespace Telemetry

section Sorting

variable {α : Type} {cmp : α → α → Ordering} [Std.TransCmp cmp] {xs ys : List α}

/-- **A list without ties is put in strict order by sorting.** -/
theorem pairwise_mergeSort_lt (hxs : xs.Pairwise fun a b => cmp a b ≠ .eq) :
    (xs.mergeSort fun a b => (cmp a b).isLE).Pairwise fun a b => cmp a b = .lt := by
  have htrans : ∀ a b c, (cmp a b).isLE = true → (cmp b c).isLE = true → (cmp a c).isLE = true :=
    fun a b c => Std.TransCmp.isLE_trans
  have htotal : ∀ a b, ((cmp a b).isLE || (cmp b a).isLE) = true := by
    intro a b
    have hswap : cmp b a = (cmp a b).swap := Std.OrientedCmp.eq_swap
    rw [hswap]
    cases cmp a b <;> rfl
  have hle := List.pairwise_mergeSort htrans htotal xs
  have hne : (xs.mergeSort fun a b => (cmp a b).isLE).Pairwise fun a b => cmp a b ≠ .eq :=
    (List.mergeSort_perm xs _).symm.pairwise hxs fun hab hba => hab (Std.OrientedCmp.eq_symm hba)
  refine (hle.and hne).imp fun {a b} ⟨hle, hne⟩ => ?_
  cases hcmp : cmp a b with
  | lt => rfl
  | eq => exact absurd hcmp hne
  | gt =>
    rw [hcmp] at hle
    cases hle

/-- A list without ties has no element twice. -/
theorem nodup_of_pairwise_ne (hxs : xs.Pairwise fun a b => cmp a b ≠ .eq) : xs.Nodup := by
  refine hxs.imp fun {a b} hne heq => hne ?_
  rw [heq]
  exact Std.ReflCmp.compare_self

/-- **A sorted list without ties is determined by what is in it.** -/
theorem mergeSort_eq_of_mem_iff (hxs : xs.Pairwise fun a b => cmp a b ≠ .eq)
    (hys : ys.Pairwise fun a b => cmp a b ≠ .eq) (h : ∀ a, a ∈ xs ↔ a ∈ ys) :
    (xs.mergeSort fun a b => (cmp a b).isLE) = ys.mergeSort fun a b => (cmp a b).isLE := by
  have hperm : xs.Perm ys :=
    (List.perm_ext_iff_of_nodup (nodup_of_pairwise_ne hxs) (nodup_of_pairwise_ne hys)).mpr h
  refine List.Perm.eq_of_pairwise (fun a b _ _ hab hba => ?_) (pairwise_mergeSort_lt hxs)
    (pairwise_mergeSort_lt hys)
    ((List.mergeSort_perm xs _).trans (hperm.trans (List.mergeSort_perm ys _).symm))
  exact absurd hba (Std.OrientedCmp.not_lt_of_lt hab)

end Sorting

end Telemetry
