import Mathlib.Data.List.Basic
import Mathlib.Order.Lattice
import Mathlib.Algebra.Order.Group.Nat

/-! Merging two lists by a measure that need not grow along them. An element leaves its list when
the greatest measure up to it is below that of the other list. -/

namespace Merge

variable {α : Type} {f : α → Nat}

/-- Each element with the greatest measure up to it, and up to `m` before it. -/
def peaks (f : α → Nat) (m : Nat) : List α → List (α × Nat)
  | [] => []
  | x :: xs => (x, max m (f x)) :: peaks f (max m (f x)) xs

theorem peaks_map_fst (m : Nat) (xs : List α) : (peaks f m xs).map Prod.fst = xs := by
  induction xs generalizing m with
  | nil => rfl
  | cons x xs ih => rw [peaks, List.map_cons, ih]

theorem fst_mem_of_mem_peaks {m : Nat} {xs : List α} {a : α × Nat} (ha : a ∈ peaks f m xs) :
    a.1 ∈ xs := by
  have hin := List.mem_map_of_mem (f := Prod.fst) ha
  rwa [peaks_map_fst] at hin

theorem exists_mem_peaks {m : Nat} {xs : List α} {x : α} (hx : x ∈ xs) :
    ∃ k, (x, k) ∈ peaks f m xs := by
  rw [← peaks_map_fst (f := f) m xs] at hx
  obtain ⟨⟨y, k⟩, hy, rfl⟩ := List.mem_map.mp hx
  exact ⟨k, hy⟩

theorem le_of_mem_peaks {m : Nat} {xs : List α} {a : α × Nat} (ha : a ∈ peaks f m xs) :
    m ≤ a.2 := by
  induction xs generalizing m with
  | nil => cases ha
  | cons x xs ih =>
    rw [peaks] at ha
    rcases List.mem_cons.mp ha with rfl | ha
    · exact le_max_left m (f x)
    · exact (le_max_left m (f x)).trans (ih ha)

/-- A greatest measure from before only raises those that follow. -/
theorem mem_peaks_max {m : Nat} {xs : List α} {x : α} {k : Nat} :
    (x, k) ∈ peaks f m xs ↔ ∃ j, (x, j) ∈ peaks f 0 xs ∧ k = max m j := by
  induction xs generalizing m k with
  | nil => simp [peaks]
  | cons y xs ih =>
    simp only [peaks, List.mem_cons, Prod.mk.injEq]
    constructor
    · rintro (⟨rfl, rfl⟩ | hin)
      · exact ⟨f x, .inl ⟨rfl, by simp⟩, rfl⟩
      · obtain ⟨j, hj, rfl⟩ := ih.mp hin
        refine ⟨max (max 0 (f y)) j, .inr (ih.mpr ⟨j, hj, rfl⟩), ?_⟩
        simp [max_assoc]
    · rintro ⟨j, ⟨rfl, rfl⟩ | hin, rfl⟩
      · exact .inl ⟨rfl, by simp⟩
      · obtain ⟨i, hi, rfl⟩ := ih.mp hin
        exact .inr (ih.mpr ⟨i, hi, by simp [max_assoc]⟩)

/-- The peak of an element of the one list is below that of an element of the other exactly if it
comes first, so the one must be related to the other. -/
def Agrees (f : α → Nat) (R : α → α → Prop) (xs ys : List α) : Prop :=
  ∀ a ∈ peaks f 0 xs, ∀ b ∈ peaks f 0 ys,
    (a.2 < b.2 → R a.1 b.1) ∧ (b.2 ≤ a.2 → R b.1 a.1)

variable {R : α → α → Prop}

instance [DecidableRel R] (xs ys : List α) : Decidable (Agrees f R xs ys) :=
  inferInstanceAs (Decidable (∀ a ∈ peaks f 0 xs, ∀ b ∈ peaks f 0 ys, _ ∧ _))

theorem agrees_cons_left {x y : α} {xs ys : List α} (hxy : f x < f y) :
    Agrees f R (x :: xs) (y :: ys) ↔ (∀ z ∈ y :: ys, R x z) ∧ Agrees f R xs (y :: ys) := by
  have hhigh : ∀ b ∈ peaks f 0 (y :: ys), f x < b.2 := by
    intro b hb
    rw [peaks] at hb
    rcases List.mem_cons.mp hb with rfl | hb
    · simpa using hxy
    · have := le_of_mem_peaks hb
      omega
  constructor
  · intro h
    constructor
    · intro z hz
      obtain ⟨k, hk⟩ := exists_mem_peaks (f := f) (m := 0) hz
      have hin : (x, max 0 (f x)) ∈ peaks f 0 (x :: xs) := List.mem_cons_self
      exact (h _ hin _ hk).1 (by simpa using hhigh _ hk)
    · rintro ⟨a, j⟩ ha b hb
      have hin : (a, max (max 0 (f x)) j) ∈ peaks f 0 (x :: xs) :=
        List.mem_cons_of_mem _ (mem_peaks_max.mpr ⟨j, ha, rfl⟩)
      obtain ⟨h1, h2⟩ := h _ hin b hb
      have hxb := hhigh b hb
      constructor
      · intro hlt
        exact h1 (by simp only; omega)
      · intro hle
        exact h2 (by simp only at hle ⊢; omega)
  · rintro ⟨hx, h⟩ a ha b hb
    have hxb := hhigh b hb
    rw [peaks] at ha
    rcases List.mem_cons.mp ha with rfl | ha
    · constructor
      · intro _
        exact hx b.1 (fst_mem_of_mem_peaks hb)
      · intro hle
        simp only at hle
        omega
    · obtain ⟨a, k⟩ := a
      obtain ⟨j, hj, rfl⟩ := mem_peaks_max.mp ha
      obtain ⟨h1, h2⟩ := h _ hj b hb
      constructor
      · intro hlt
        exact h1 (by simp only at hlt ⊢; omega)
      · intro hle
        exact h2 (by simp only at hle ⊢; omega)

theorem agrees_cons_right {x y : α} {xs ys : List α} (hyx : f y ≤ f x) :
    Agrees f R (x :: xs) (y :: ys) ↔ (∀ z ∈ x :: xs, R y z) ∧ Agrees f R (x :: xs) ys := by
  have hhigh : ∀ a ∈ peaks f 0 (x :: xs), f y ≤ a.2 := by
    intro a ha
    rw [peaks] at ha
    rcases List.mem_cons.mp ha with rfl | ha
    · simpa using hyx
    · have := le_of_mem_peaks ha
      omega
  constructor
  · intro h
    constructor
    · intro z hz
      obtain ⟨k, hk⟩ := exists_mem_peaks (f := f) (m := 0) hz
      have hin : (y, max 0 (f y)) ∈ peaks f 0 (y :: ys) := List.mem_cons_self
      exact (h _ hk _ hin).2 (by simpa using hhigh _ hk)
    · rintro a ha ⟨b, j⟩ hb
      have hin : (b, max (max 0 (f y)) j) ∈ peaks f 0 (y :: ys) :=
        List.mem_cons_of_mem _ (mem_peaks_max.mpr ⟨j, hb, rfl⟩)
      obtain ⟨h1, h2⟩ := h a ha _ hin
      have hya := hhigh a ha
      constructor
      · intro hlt
        exact h1 (by simp only at hlt ⊢; omega)
      · intro hle
        exact h2 (by simp only at hle ⊢; omega)
  · rintro ⟨hy, h⟩ a ha b hb
    have hya := hhigh a ha
    rw [peaks] at hb
    rcases List.mem_cons.mp hb with rfl | hb
    · constructor
      · intro hlt
        simp only at hlt
        omega
      · intro _
        exact hy a.1 (fst_mem_of_mem_peaks ha)
    · obtain ⟨b, k⟩ := b
      obtain ⟨j, hj, rfl⟩ := mem_peaks_max.mp hb
      obtain ⟨h1, h2⟩ := h a ha _ hj
      constructor
      · intro hlt
        exact h1 (by simp only at hlt ⊢; omega)
      · intro hle
        exact h2 (by simp only at hle ⊢; omega)

/-- A merge by a measure is in the order of `R` exactly when both lists are and their peaks agree
with it. -/
theorem merge_pairwise_iff (xs ys : List α) :
    (xs.merge ys fun x y => f x < f y).Pairwise R ↔
      xs.Pairwise R ∧ ys.Pairwise R ∧ Agrees f R xs ys := by
  induction xs generalizing ys with
  | nil => simp [Agrees, peaks]
  | cons x xs ih =>
    induction ys with
    | nil => simp [Agrees, peaks]
    | cons y ys ihy =>
      rw [List.cons_merge_cons]
      by_cases hxy : f x < f y
      · have hmem : ∀ z, z ∈ xs.merge (y :: ys) (fun x y => f x < f y) ↔
            z ∈ xs ∨ z ∈ y :: ys := by
          intro z
          rw [List.mem_merge]
        rw [if_pos (decide_eq_true hxy), List.pairwise_cons, ih (y :: ys), agrees_cons_left hxy,
          List.pairwise_cons (a := x)]
        constructor
        · rintro ⟨hall, hxs, hys, hag⟩
          exact ⟨⟨fun z hz => hall z ((hmem z).mpr (.inl hz)), hxs⟩, hys,
            fun z hz => hall z ((hmem z).mpr (.inr hz)), hag⟩
        · rintro ⟨⟨hx, hxs⟩, hys, hall, hag⟩
          refine ⟨?_, hxs, hys, hag⟩
          intro z hz
          rcases (hmem z).mp hz with hz | hz
          · exact hx z hz
          · exact hall z hz
      · have hyx : f y ≤ f x := Nat.not_lt.mp hxy
        have hmem : ∀ z, z ∈ (x :: xs).merge ys (fun x y => f x < f y) ↔
            z ∈ x :: xs ∨ z ∈ ys := by
          intro z
          rw [List.mem_merge]
        rw [if_neg (by simpa using hyx), List.pairwise_cons, ihy, agrees_cons_right hyx,
          List.pairwise_cons (a := y)]
        constructor
        · rintro ⟨hall, hxs, hys, hag⟩
          exact ⟨hxs, ⟨fun z hz => hall z ((hmem z).mpr (.inr hz)), hys⟩,
            fun z hz => hall z ((hmem z).mpr (.inl hz)), hag⟩
        · rintro ⟨hxs, ⟨hy, hys⟩, hall, hag⟩
          refine ⟨?_, hxs, hys, hag⟩
          intro z hz
          rcases (hmem z).mp hz with hz | hz
          · exact hall z hz
          · exact hy z hz

end Merge
