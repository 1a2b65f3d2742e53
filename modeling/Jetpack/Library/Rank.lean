import Mathlib.Data.Finset.Card
import Mathlib.Data.List.Sort

/-! Ranks in a sorted copy of a list: how many elements of the list are at least the one at a given
place, and which members of a group they belong to. -/

namespace Rank

/-- In a sorted list the first `k + 1` elements are not after the one at place `k`. -/
theorem succ_le_countP_of_sorted {α : Type} {le : α → α → Bool}
    (htrans : ∀ a b c, le a b = true → le b c = true → le a c = true)
    (htotal : ∀ a b, (le a b || le b a) = true) (l : List α) {k : Nat} {x : α}
    (hx : (l.mergeSort le)[k]? = some x) : k + 1 ≤ l.countP (fun y => le y x) := by
  let sorted := l.mergeSort le
  have hpair : sorted.Pairwise (fun a b => le a b = true) := List.pairwise_mergeSort htrans htotal l
  obtain ⟨hk, hget⟩ := List.getElem?_eq_some_iff.mp hx
  have hfirst : (sorted.take (k + 1)).countP (fun y => le y x) = k + 1 := by
    have hlen : (sorted.take (k + 1)).length = k + 1 := by
      rw [List.length_take]
      exact Nat.min_eq_left hk
    refine (List.countP_eq_length.mpr fun y hy => ?_).trans hlen
    obtain ⟨i, hi, rfl⟩ := List.getElem_of_mem hy
    rw [hlen] at hi
    rw [List.getElem_take, ← hget]
    rcases Nat.lt_or_eq_of_le (Nat.le_of_lt_succ hi) with hlt | rfl
    · exact List.pairwise_iff_getElem.mp hpair i k _ hk hlt
    · simpa using htotal sorted[i] sorted[i]
  calc k + 1 = (sorted.take (k + 1)).countP (fun y => le y x) := hfirst.symm
    _ ≤ sorted.countP (fun y => le y x) := (List.take_sublist _ _).countP_le
    _ = l.countP (fun y => le y x) := (List.mergeSort_perm l _).countP_eq _

theorem le_countP_of_descending (l : List Nat) {k x : Nat}
    (hx : (l.mergeSort (fun a b => b ≤ a))[k]? = some x) : k + 1 ≤ l.countP (fun y => x ≤ y) :=
  succ_le_countP_of_sorted (fun a b c hab hbc => by simp at *; omega) (fun a b => by simp; omega)
    l hx

theorem countP_le_of_ascending (l : List Nat) {k x : Nat} (hx : l.mergeSort[k]? = some x) :
    k + 1 ≤ l.countP (fun y => y ≤ x) :=
  succ_le_countP_of_sorted (fun a b c hab hbc => by simp at *; omega) (fun a b => by simp; omega)
    l hx

/-- In a list sorted upwards the elements from place `k` on are at least the one there. -/
theorem le_countP_of_ascending (l : List Nat) {k x : Nat} (hx : l.mergeSort[k]? = some x) :
    l.length - k ≤ l.countP (fun y => x ≤ y) := by
  let sorted := l.mergeSort
  have hpair : sorted.Pairwise (fun a b => a ≤ b) := by
    have hsorted : (l.mergeSort (fun a b => decide (a ≤ b))).Pairwise
        (fun a b => decide (a ≤ b) = true) :=
      List.pairwise_mergeSort (fun a b c hab hbc => by simp at *; omega)
        (fun a b => by simp; omega) l
    simpa using hsorted
  obtain ⟨hk, hget⟩ := List.getElem?_eq_some_iff.mp hx
  have hlast : (sorted.drop k).countP (fun y => x ≤ y) = l.length - k := by
    have hlen : (sorted.drop k).length = l.length - k := by
      rw [List.length_drop, List.length_mergeSort]
    refine (List.countP_eq_length.mpr fun y hy => ?_).trans hlen
    obtain ⟨i, hi, rfl⟩ := List.getElem_of_mem hy
    rw [List.getElem_drop, ← hget]
    rcases Nat.eq_zero_or_pos i with rfl | hpos
    · simp [sorted]
    · simpa using List.pairwise_iff_getElem.mp hpair k (k + i) hk _ (by omega)
  calc l.length - k = (sorted.drop k).countP (fun y => x ≤ y) := hlast.symm
    _ ≤ sorted.countP (fun y => x ≤ y) := (List.drop_sublist _ _).countP_le
    _ = l.countP (fun y => x ≤ y) := (List.mergeSort_perm l _).countP_eq _

theorem exists_finset_of_countP {ι : Type} [DecidableEq ι] {l : List ι} (hnd : l.Nodup)
    (p : ι → Bool) : ∃ F : Finset ι, F.card = l.countP p ∧ ∀ f ∈ F, f ∈ l ∧ p f = true := by
  refine ⟨(l.filter p).toFinset, ?_, fun f hf => List.mem_filter.mp (List.mem_toFinset.mp hf)⟩
  rw [List.toFinset_card_of_nodup (hnd.filter p), List.countP_eq_length_filter]

end Rank
