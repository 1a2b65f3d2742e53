import Mathlib.Data.List.AList
import Mathlib.Data.List.Count

/-! Plurality counting: a stream of items is counted one at a time, and the first item to reach the
largest count so far is remembered. -/

namespace Plurality

/-- The counts so far with a running maximum and the item that reached it first. -/
structure Tally (α : Type) where
  counts : AList (fun _ : α => Nat) := ∅
  maxCount : Nat := 0
  maxItem : α

variable {α : Type} [DecidableEq α]

def Tally.empty (d : α) : Tally α := { maxItem := d }

def Tally.count (t : Tally α) (x : α) : Nat := (t.counts.lookup x).getD 0

def Tally.add (t : Tally α) (x : α) : Tally α :=
  let c := t.count x + 1
  { counts := t.counts.insert x c
    maxCount := if t.maxCount < c then c else t.maxCount
    maxItem := if t.maxCount < c then x else t.maxItem }

/-- The tally has counted the items of `l`. -/
structure Counted (t : Tally α) (l : List α) : Prop where
  count_eq : ∀ x, t.count x = l.count x
  count_le : ∀ x, l.count x ≤ t.maxCount
  attained : t.maxCount = 0 ∨ l.count t.maxItem = t.maxCount

theorem counted_empty (d : α) : Counted (Tally.empty d) [] :=
  ⟨fun _ => rfl, fun _ => Nat.le_refl _, .inl rfl⟩

theorem Tally.count_add (t : Tally α) (x y : α) :
    (t.add x).count y = if y = x then t.count x + 1 else t.count y := by
  by_cases h : y = x
  · subst h
    simp [Tally.add, Tally.count]
  · simp [Tally.add, Tally.count, h, AList.lookup_insert_ne h]

theorem Counted.add {t : Tally α} {l : List α} (h : Counted t l) (x : α) :
    Counted (t.add x) (l ++ [x]) := by
  have hcount : ∀ y, (l ++ [x]).count y = if y = x then t.count x + 1 else t.count y := by
    intro y
    rw [List.count_append, ← h.count_eq y]
    by_cases hy : y = x
    · simp [hy]
    · simp [hy, Ne.symm hy]
  have hle := h.count_le
  refine ⟨fun y => by rw [hcount, Tally.count_add], fun y => ?_, ?_⟩
  · rw [hcount]
    have hy := hle y
    rw [← h.count_eq] at hy
    simp only [Tally.add]
    split <;> split <;> omega
  · right
    rw [hcount]
    by_cases hmax : t.maxCount < t.count x + 1
    · simp [Tally.add, hmax]
    · have hne : t.maxItem ≠ x := by
        intro heq
        rcases h.attained with h0 | hat
        · omega
        · rw [heq, ← h.count_eq] at hat
          omega
      rcases h.attained with h0 | hat
      · omega
      · rw [← h.count_eq] at hat
        simp [Tally.add, hmax, hne, hat]

theorem counted_foldl (d : α) (l : List α) : Counted (l.foldl Tally.add (Tally.empty d)) l := by
  suffices h : ∀ (t : Tally α) (done : List α), Counted t done →
      Counted (l.foldl Tally.add t) (done ++ l) by
    simpa using h _ [] (counted_empty d)
  induction l with
  | nil => intro t done h; simpa using h
  | cons x l ih =>
    intro t done h
    simpa using ih (t.add x) (done ++ [x]) (h.add x)

theorem Counted.maxItem_eq {t : Tally α} {l : List α} (h : Counted t l) {x : α}
    (hpos : 0 < l.count x) (hmost : ∀ y, y ≠ x → l.count y < l.count x) :
    t.maxItem = x ∧ t.maxCount = l.count x := by
  have hle := h.count_le x
  have hat : l.count t.maxItem = t.maxCount := by
    rcases h.attained with h0 | hat
    · omega
    · exact hat
  have heq : t.maxItem = x := by
    by_contra hne
    have hlt := hmost _ hne
    omega
  exact ⟨heq, by rw [← hat, heq]⟩

section Keyed

variable {κ : Type} [DecidableEq κ]

abbrev KeyedTally (κ α : Type) := AList (fun _ : κ => Tally α)

def KeyedTally.at (s : KeyedTally κ α) (d : α) (k : κ) : Tally α :=
  (s.lookup k).getD (Tally.empty d)

def KeyedTally.addEntry (d : α) (s : KeyedTally κ α) (e : κ × α) : KeyedTally κ α :=
  s.insert e.1 ((s.at d e.1).add e.2)

def itemsOf (k : κ) (l : List (κ × α)) : List α :=
  l.filterMap fun e => if e.1 = k then some e.2 else none

theorem KeyedTally.at_addEntry (d : α) (s : KeyedTally κ α) (e : κ × α) (k : κ) :
    (s.addEntry d e).at d k = if e.1 = k then (s.at d k).add e.2 else s.at d k := by
  by_cases h : e.1 = k
  · subst h
    simp [KeyedTally.addEntry, KeyedTally.at]
  · simp [KeyedTally.addEntry, KeyedTally.at, h, AList.lookup_insert_ne (Ne.symm h)]

theorem KeyedTally.at_foldl (d : α) (l : List (κ × α)) (s : KeyedTally κ α) (k : κ) :
    KeyedTally.at (l.foldl (KeyedTally.addEntry d) s) d k
      = (itemsOf k l).foldl Tally.add (s.at d k) := by
  induction l generalizing s with
  | nil => rfl
  | cons e l ih =>
    rw [List.foldl_cons, ih, KeyedTally.at_addEntry]
    by_cases h : e.1 = k <;> simp [itemsOf, h]

omit [DecidableEq α] in
theorem itemsOf_flatMap {β : Type} (k : κ) (l : List β) (f : β → List (κ × α)) :
    itemsOf k (l.flatMap f) = l.flatMap fun x => itemsOf k (f x) := by
  simp only [itemsOf, List.filterMap_flatMap]

omit [DecidableEq α] in
theorem itemsOf_eq_nil {k : κ} {l : List (κ × α)} (h : k ∉ l.map Prod.fst) : itemsOf k l = [] := by
  simp only [itemsOf, List.filterMap_eq_nil_iff]
  intro e he
  rw [if_neg]
  rintro rfl
  exact h (List.mem_map_of_mem he)

omit [DecidableEq α] in
theorem itemsOf_eq_singleton {k : κ} {x : α} {l : List (κ × α)} (hnd : (l.map Prod.fst).Nodup)
    (h : (k, x) ∈ l) : itemsOf k l = [x] := by
  induction l with
  | nil => cases h
  | cons e l ih =>
    rw [List.map_cons, List.nodup_cons] at hnd
    rcases List.mem_cons.mp h with rfl | h
    · have hnil := itemsOf_eq_nil hnd.1
      simp only [itemsOf] at hnil ⊢
      simp [hnil]
    · have hne : e.1 ≠ k := by
        rintro rfl
        exact hnd.1 (List.mem_map.mpr ⟨_, h, rfl⟩)
      have hrest := ih hnd.2 h
      simp only [itemsOf] at hrest ⊢
      simp [hne, hrest]

theorem count_itemsOf_le_one {k : κ} {l : List (κ × α)} (hnd : (l.map Prod.fst).Nodup) (y : α) :
    (itemsOf k l).count y ≤ 1 := by
  by_cases h : ∃ x, (k, x) ∈ l
  · obtain ⟨x, hx⟩ := h
    rw [itemsOf_eq_singleton hnd hx]
    exact List.count_le_length
  · have hk : k ∉ l.map Prod.fst := by
      intro hk
      obtain ⟨⟨k', x⟩, hmem, rfl⟩ := List.mem_map.mp hk
      exact h ⟨x, hmem⟩
    rw [itemsOf_eq_nil hk]
    simp

/-- Voters with one item a key each: those that name `x` outvote nobody else's item more than the
remaining voters can. -/
theorem count_flatMap_itemsOf {β : Type} {k : κ} {x : α} {l : List β} {f : β → List (κ × α)}
    (hnd : ∀ v ∈ l, ((f v).map Prod.fst).Nodup) :
    l.countP (fun v => (k, x) ∈ f v) ≤ (l.flatMap fun v => itemsOf k (f v)).count x ∧
      ∀ y, y ≠ x → (l.flatMap fun v => itemsOf k (f v)).count y
        ≤ l.countP (fun v => ¬ (k, x) ∈ f v) := by
  induction l with
  | nil => simp
  | cons v l ih =>
    obtain ⟨ihx, ihy⟩ := ih (fun w hw => hnd w (List.mem_cons_of_mem v hw))
    have hv := hnd v List.mem_cons_self
    simp only [List.flatMap_cons, List.count_append, List.countP_cons]
    by_cases hmem : (k, x) ∈ f v
    · rw [itemsOf_eq_singleton hv hmem]
      refine ⟨by simp [hmem]; omega, fun y hy => ?_⟩
      have := ihy y hy
      simpa [hmem, Ne.symm hy] using this
    · refine ⟨by simp [hmem]; omega, fun y hy => ?_⟩
      have hone := count_itemsOf_le_one hv (k := k) y
      have := ihy y hy
      simp only [hmem, not_false_eq_true, decide_true, if_true]
      omega

end Keyed

end Plurality
