import Mathlib

/-! Sorted lists of entries with a key, in which entries of one key stand in the order of their
insertion. -/

namespace Multimap

variable {K α β : Type} [LinearOrder K]

/-- The new entry goes behind those with the same key. -/
def insert (e : K × α) : List (K × α) → List (K × α)
  | [] => [e]
  | x :: xs => if x.1 ≤ e.1 then x :: insert e xs else e :: x :: xs

def insertAll (l es : List (K × α)) : List (K × α) := es.foldl (fun l e => insert e l) l

def lowerBound (k : K) (l : List (K × α)) : Nat := (l.takeWhile fun e => e.1 < k).length

def upperBound (k : K) (l : List (K × α)) : Nat := (l.takeWhile fun e => e.1 ≤ k).length

def Sorted (l : List (K × α)) : Prop := l.Pairwise fun a b => a.1 ≤ b.1

def slice (i j : Nat) (l : List α) : List α := (l.take j).drop i

def mapRange (f : α → α) (i j : Nat) (l : List α) : List α :=
  l.take i ++ (slice i j l).map f ++ l.drop j

def filterRange (p : α → Bool) (i j : Nat) (l : List α) : List α :=
  l.take i ++ (slice i j l).filter p ++ l.drop j

omit [LinearOrder K] in
theorem slice_append (A B C : List α) : slice A.length (A ++ B).length (A ++ B ++ C) = B := by
  rw [slice, List.take_left, List.drop_left]

omit [LinearOrder K] in
theorem mem_of_mem_slice {i j : Nat} {l : List α} {x : α} (hx : x ∈ slice i j l) : x ∈ l :=
  List.mem_of_mem_take (List.mem_of_mem_drop hx)

omit [LinearOrder K] in
theorem mem_mapRange {f : α → α} {i j : Nat} {l : List α} {x : α} (hx : x ∈ mapRange f i j l) :
    ∃ y ∈ l, x = y ∨ x = f y := by
  rcases List.mem_append.mp hx with hx | hx
  · rcases List.mem_append.mp hx with hx | hx
    · exact ⟨x, List.mem_of_mem_take hx, .inl rfl⟩
    · obtain ⟨y, hy, rfl⟩ := List.mem_map.mp hx
      exact ⟨y, mem_of_mem_slice hy, .inr rfl⟩
  · exact ⟨x, List.mem_of_mem_drop hx, .inl rfl⟩

omit [LinearOrder K] in
theorem mem_of_mem_filterRange {p : α → Bool} {i j : Nat} {l : List α} {x : α}
    (hx : x ∈ filterRange p i j l) : x ∈ l := by
  rcases List.mem_append.mp hx with hx | hx
  · rcases List.mem_append.mp hx with hx | hx
    · exact List.mem_of_mem_take hx
    · exact mem_of_mem_slice (List.mem_of_mem_filter hx)
  · exact List.mem_of_mem_drop hx

theorem mem_insert {e x : K × α} {l : List (K × α)} : x ∈ insert e l ↔ x = e ∨ x ∈ l := by
  induction l with
  | nil => simp [insert]
  | cons y l ih =>
    simp only [insert]
    split
    · simp only [List.mem_cons, ih]
      tauto
    · simp only [List.mem_cons]

theorem sublist_insert (e : K × α) (l : List (K × α)) : l.Sublist (insert e l) := by
  induction l with
  | nil => exact List.nil_sublist _
  | cons x l ih =>
    rw [insert]
    split
    · exact ih.cons_cons x
    · exact List.sublist_cons_self e _

theorem Sorted.insert {l : List (K × α)} (hs : Sorted l) (e : K × α) :
    Sorted (insert e l) := by
  induction l with
  | nil => simp [Multimap.insert, Sorted]
  | cons x l ih =>
    obtain ⟨hx, hs'⟩ := List.pairwise_cons.mp hs
    simp only [Multimap.insert]
    split
    · next hle =>
      refine List.pairwise_cons.mpr ⟨?_, ih hs'⟩
      intro y hy
      rcases mem_insert.mp hy with rfl | hy
      · exact hle
      · exact hx y hy
    · next hlt =>
      have hlt' : e.1 ≤ x.1 := le_of_lt (not_le.mp hlt)
      refine List.pairwise_cons.mpr ⟨?_, hs⟩
      intro y hy
      rcases List.mem_cons.mp hy with rfl | hy
      · exact hlt'
      · exact hlt'.trans (hx y hy)

theorem Sorted.insertAll {l : List (K × α)} (hs : Sorted l) (es : List (K × α)) :
    Sorted (insertAll l es) := by
  induction es generalizing l with
  | nil => exact hs
  | cons e es ih => exact ih (hs.insert e)

theorem mem_insertAll {x : K × α} {l es : List (K × α)} :
    x ∈ insertAll l es ↔ x ∈ l ∨ x ∈ es := by
  induction es generalizing l with
  | nil => simp [insertAll]
  | cons e es ih =>
    show x ∈ insertAll (insert e l) es ↔ _
    rw [ih, mem_insert, List.mem_cons]
    tauto

theorem insert_of_lt {e : K × α} {l : List (K × α)} (h : ∀ x ∈ l, e.1 < x.1) :
    insert e l = e :: l := by
  cases l with
  | nil => rfl
  | cons x l => simp [insert, not_le.mpr (h x List.mem_cons_self)]

theorem insert_of_le {e : K × α} {l : List (K × α)} (h : ∀ x ∈ l, x.1 ≤ e.1) :
    insert e l = l ++ [e] := by
  induction l with
  | nil => rfl
  | cons x l ih =>
    have hl : ∀ y ∈ l, y.1 ≤ e.1 := fun y hy => h y (List.mem_cons_of_mem x hy)
    simp [insert, h x List.mem_cons_self, ih hl]

theorem insertAll_append {l es : List (K × α)} (hs : Sorted (l ++ es)) :
    insertAll l es = l ++ es := by
  induction es generalizing l with
  | nil => simp [insertAll]
  | cons e es ih =>
    have hle : ∀ x ∈ l, x.1 ≤ e.1 := fun x hx =>
      (List.pairwise_append.mp hs).2.2 x hx e List.mem_cons_self
    have hs' : Sorted (l ++ [e] ++ es) := by simpa using hs
    show insertAll (insert e l) es = _
    rw [insert_of_le hle, ih hs']
    simp

section Visible

variable {f : K × α → Option (K × β)}

theorem Sorted.filterMap (hkey : ∀ x y, f x = some y → y.1 = x.1) {l : List (K × α)}
    (hs : Sorted l) : Sorted (l.filterMap f) := by
  refine List.Pairwise.filterMap f ?_ hs
  intro a a' haa b hb b' hb'
  rw [hkey a b hb, hkey a' b' hb']
  exact haa

theorem filterMap_insert_none {e : K × α} (he : f e = none) (l : List (K × α)) :
    (insert e l).filterMap f = l.filterMap f := by
  induction l with
  | nil => simp [insert, he]
  | cons x l ih =>
    simp only [insert]
    split
    · simp only [List.filterMap_cons, ih]
    · simp only [List.filterMap_cons, he]

theorem filterMap_insert_some (hkey : ∀ x y, f x = some y → y.1 = x.1) {e : K × α} {e' : K × β}
    (he : f e = some e') {l : List (K × α)} (hs : Sorted l) :
    (insert e l).filterMap f = insert e' (l.filterMap f) := by
  have hke : e'.1 = e.1 := hkey e e' he
  induction l with
  | nil => simp [insert, he]
  | cons x l ih =>
    obtain ⟨hx, hs'⟩ := List.pairwise_cons.mp hs
    simp only [insert]
    split
    · next hle =>
      cases hfx : f x with
      | none => simp only [List.filterMap_cons, hfx, ih hs']
      | some x' =>
        have hkx := hkey x x' hfx
        have hle' : x'.1 ≤ e'.1 := by rw [hkx, hke]; exact hle
        simp only [List.filterMap_cons, hfx, ih hs', insert, if_pos hle']
    · next hlt =>
      have hgt : ∀ y ∈ (x :: l).filterMap f, e'.1 < y.1 := by
        intro y hy
        obtain ⟨z, hz, hzy⟩ := List.mem_filterMap.mp hy
        rw [hke, hkey z y hzy]
        rcases List.mem_cons.mp hz with rfl | hz
        · exact not_le.mp hlt
        · exact (not_le.mp hlt).trans_le (hx z hz)
      rw [insert_of_lt hgt, List.filterMap_cons, he]

end Visible

section Values

variable {k : K}

def values (k : K) (l : List (K × α)) : List α := (l.filter fun e => e.1 = k).map Prod.snd

theorem values_cons_self (v : α) (l : List (K × α)) : values k ((k, v) :: l) = v :: values k l := by
  simp [values]

theorem values_cons_of_ne {e : K × α} (h : e.1 ≠ k) (l : List (K × α)) :
    values k (e :: l) = values k l := by
  simp [values, h]

theorem values_eq_nil {l : List (K × α)} (h : ∀ e ∈ l, e.1 ≠ k) : values k l = [] := by
  rw [values, List.filter_eq_nil_iff.mpr (by simpa using h), List.map_nil]

theorem values_insert_self {v : α} {l : List (K × α)} (hs : Sorted l) :
    values k (insert (k, v) l) = values k l ++ [v] := by
  induction l with
  | nil => simp [insert, values]
  | cons x l ih =>
    have hs' := (List.pairwise_cons.mp hs).2
    rw [insert]
    by_cases hk : x.1 ≤ k
    · rw [if_pos hk]
      by_cases hx : x.1 = k
      · obtain ⟨x1, x2⟩ := x
        simp only at hx
        subst hx
        rw [values_cons_self, values_cons_self, ih hs']
        rfl
      · rw [values_cons_of_ne hx, values_cons_of_ne hx, ih hs']
    · have hlt : k < x.1 := not_le.mp hk
      have hne : ∀ e ∈ x :: l, e.1 ≠ k := by
        intro e he
        rcases List.mem_cons.mp he with rfl | he
        · exact hlt.ne'
        · exact (hlt.trans_le ((List.pairwise_cons.mp hs).1 e he)).ne'
      rw [if_neg hk, values_cons_self, values_eq_nil hne]
      rfl

theorem values_insert_of_ne {e : K × α} (h : e.1 ≠ k) (l : List (K × α)) :
    values k (insert e l) = values k l := by
  induction l with
  | nil => exact values_cons_of_ne h []
  | cons x l ih =>
    rw [insert]
    split
    · by_cases hx : x.1 = k
      · obtain ⟨x1, x2⟩ := x
        simp only at hx
        subst hx
        rw [values_cons_self, values_cons_self, ih]
      · rw [values_cons_of_ne hx, values_cons_of_ne hx, ih]
    · exact values_cons_of_ne h _

theorem eq_of_values {l l' : List (K × α)} (hs : Sorted l) (hs' : Sorted l')
    (h : ∀ k, values k l = values k l') : l = l' := by
  have hnil : ∀ {l : List (K × α)}, (∀ k, values k l = []) → l = [] := by
    intro l hl
    cases l with
    | nil => rfl
    | cons x l =>
      have := hl x.1
      rw [show x = (x.1, x.2) from rfl, values_cons_self] at this
      cases this
  induction l generalizing l' with
  | nil => exact (hnil fun k => (h k).symm).symm
  | cons x l ih =>
    cases l' with
    | nil => exact hnil h
    | cons y l' =>
      obtain ⟨x1, x2⟩ := x
      obtain ⟨y1, y2⟩ := y
      have hmin : ∀ {z : K × α} {m : List (K × α)}, Sorted (z :: m) → ∀ k, values k (z :: m) ≠ [] →
          z.1 ≤ k := by
        intro z m hz k hk
        by_contra hlt
        apply hk
        apply values_eq_nil
        intro e he
        rcases List.mem_cons.mp he with rfl | he
        · exact fun heq => hlt heq.le
        · exact fun heq => hlt (((List.pairwise_cons.mp hz).1 e he).trans heq.le)
      have hxy : x1 = y1 := by
        have h1 : values x1 ((x1, x2) :: l) ≠ [] := by
          rw [values_cons_self]
          simp
        have h2 : values y1 ((y1, y2) :: l') ≠ [] := by
          rw [values_cons_self]
          simp
        have hle := hmin hs' x1 (h x1 ▸ h1)
        have hge := hmin hs y1 ((h y1).symm ▸ h2)
        exact le_antisymm hge hle
      subst hxy
      have hhead := h x1
      rw [values_cons_self, values_cons_self, List.cons.injEq] at hhead
      obtain ⟨rfl, htail⟩ := hhead
      congr 1
      apply ih (List.pairwise_cons.mp hs).2 (List.pairwise_cons.mp hs').2
      intro k
      by_cases hk : x1 = k
      · exact hk ▸ htail
      · have hkk := h k
        rwa [values_cons_of_ne hk, values_cons_of_ne hk] at hkk

end Values

section Erase

omit [LinearOrder K]
variable [BEq α] [LawfulBEq α]

/-- The first element that meets a condition is the one to be erased. -/
theorem eraseP_eq_erase_iff {p : α → Bool} {l : List α} {y : α} (hy : y ∈ l) (hp : p y = true) :
    l.eraseP p = l.erase y ↔ l.find? p = some y := by
  induction l with
  | nil => cases hy
  | cons x l ih =>
    by_cases hx : p x = true
    · rw [List.eraseP_cons_of_pos hx, List.find?_cons_of_pos hx]
      by_cases hxy : x = y
      · subst hxy
        simp
      · have hin : y ∈ l := (List.mem_cons.mp hy).resolve_left (Ne.symm hxy)
        have hdiff : l ≠ x :: l.erase y := by
          intro he
          have hcount := congrArg (List.count y) he
          have hpos := List.count_pos_iff.mpr hin
          rw [List.count_cons_of_ne hxy, List.count_erase_self] at hcount
          omega
        rw [List.erase_cons_tail (by simp [hxy])]
        simp [hdiff, hxy]
    · have hne : x ≠ y := by
        rintro rfl
        exact hx hp
      have hin : y ∈ l := (List.mem_cons.mp hy).resolve_left (Ne.symm hne)
      rw [List.eraseP_cons_of_neg hx, List.find?_cons_of_neg hx, List.erase_cons_tail (by simp [hne]),
        List.cons_inj_right]
      exact ih hin

end Erase

section Bounds

variable {p q : K → Bool}

/-- With a predicate that smaller keys inherit, nothing follows the first entry that fails. -/
theorem false_of_head (hp : ∀ a b, a ≤ b → p b = true → p a = true) {x : K × α}
    {l : List (K × α)} (hs : Sorted (x :: l)) (hx : p x.1 = false) : ∀ y ∈ l, p y.1 = false := by
  intro y hy
  have hle := (List.pairwise_cons.mp hs).1 y hy
  by_contra hc
  have := hp x.1 y.1 hle (by simpa using hc)
  rw [hx] at this
  cases this

omit [LinearOrder K] in
theorem takeWhile_of_false {l : List (K × α)} (h : ∀ y ∈ l, p y.1 = false) :
    l.takeWhile (fun e => p e.1) = [] := by
  cases l with
  | nil => rfl
  | cons x l => simp [h x List.mem_cons_self]

theorem split_bounds (hp : ∀ a b, a ≤ b → p b = true → p a = true)
    (hq : ∀ a b, a ≤ b → q b = true → q a = true) (hpq : ∀ k, p k = true → q k = true)
    {l : List (K × α)} (hs : Sorted l) :
    ∃ A B C, l = A ++ B ++ C ∧ (l.takeWhile fun e => p e.1).length = A.length ∧
      (l.takeWhile fun e => q e.1).length = (A ++ B).length ∧
      (∀ e ∈ A, (q e.1 && !p e.1) = false) ∧ (∀ e ∈ B, (q e.1 && !p e.1) = true) ∧
      ∀ e ∈ C, (q e.1 && !p e.1) = false := by
  induction l with
  | nil => exact ⟨[], [], [], by simp⟩
  | cons x l ih =>
    have hs' := (List.pairwise_cons.mp hs).2
    obtain ⟨A, B, C, hl, hi, hj, hA, hB, hC⟩ := ih hs'
    by_cases hpx : p x.1 = true
    · have hqx := hpq x.1 hpx
      refine ⟨x :: A, B, C, by simp [hl], by simp [hpx, hi], by simp [hqx, hj], ?_, hB, hC⟩
      intro e he
      rcases List.mem_cons.mp he with rfl | he
      · simp [hpx]
      · exact hA e he
    · have hpx' : p x.1 = false := by simpa using hpx
      have hrest := false_of_head hp hs hpx'
      have hA0 : A = [] := by
        rw [takeWhile_of_false hrest] at hi
        exact List.length_eq_zero_iff.mp hi.symm
      subst hA0
      by_cases hqx : q x.1 = true
      · refine ⟨[], x :: B, C, by simp [hl], by simp [hpx'], by simpa [hqx] using hj, by simp, ?_,
          hC⟩
        intro e he
        rcases List.mem_cons.mp he with rfl | he
        · simp [hqx, hpx']
        · exact hB e he
      · have hqx' : q x.1 = false := by simpa using hqx
        refine ⟨[], [], x :: l, by simp, by simp [hpx'], by simp [hqx'], by simp, by simp, ?_⟩
        intro e he
        rcases List.mem_cons.mp he with rfl | he
        · simp [hqx']
        · simp [false_of_head hq hs hqx' e he]

theorem split_key (key : K) {l : List (K × α)} (hs : Sorted l) :
    ∃ A B C, l = A ++ B ++ C ∧ lowerBound key l = A.length ∧
      upperBound key l = (A ++ B).length ∧
      (∀ e ∈ A, e.1 ≠ key) ∧ (∀ e ∈ B, e.1 = key) ∧ ∀ e ∈ C, e.1 ≠ key := by
  obtain ⟨A, B, C, hl, hi, hj, hA, hB, hC⟩ :=
    split_bounds (p := fun k => decide (k < key)) (q := fun k => decide (k ≤ key))
      (fun a b hab h => decide_eq_true (hab.trans_lt (of_decide_eq_true h)))
      (fun a b hab h => decide_eq_true (hab.trans (of_decide_eq_true h)))
      (fun k h => decide_eq_true (of_decide_eq_true h).le) hs
  have hkey : ∀ e : K × α, (decide (e.1 ≤ key) && !decide (e.1 < key)) = true ↔ e.1 = key := by
    intro e
    simp only [Bool.and_eq_true, decide_eq_true_eq, Bool.not_eq_true', decide_eq_false_iff_not,
      not_lt]
    exact le_antisymm_iff.symm
  refine ⟨A, B, C, hl, hi, hj, ?_, fun e he => (hkey e).mp (hB e he), ?_⟩
  · intro e he hk
    exact Bool.false_ne_true ((hA e he).symm.trans ((hkey e).mpr hk))
  · intro e he hk
    exact Bool.false_ne_true ((hC e he).symm.trans ((hkey e).mpr hk))

variable (hp : ∀ a b, a ≤ b → p b = true → p a = true)
  (hq : ∀ a b, a ≤ b → q b = true → q a = true) (hpq : ∀ k, p k = true → q k = true)
include hp hq hpq

theorem bounds_le {l : List (K × α)} (hs : Sorted l) :
    (l.takeWhile fun e => p e.1).length ≤ (l.takeWhile fun e => q e.1).length := by
  obtain ⟨A, B, C, -, hi, hj, -⟩ := split_bounds hp hq hpq hs
  rw [hi, hj, List.length_append]
  omega

theorem slice_bounds {l : List (K × α)} (hs : Sorted l) :
    slice (l.takeWhile fun e => p e.1).length (l.takeWhile fun e => q e.1).length l =
      l.filter fun e => q e.1 && !p e.1 := by
  obtain ⟨A, B, C, hl, hi, hj, hA, hB, hC⟩ := split_bounds hp hq hpq hs
  have hfA : A.filter (fun e => q e.1 && !p e.1) = [] := by simpa using hA
  have hfB : B.filter (fun e => q e.1 && !p e.1) = B := List.filter_eq_self.mpr hB
  have hfC : C.filter (fun e => q e.1 && !p e.1) = [] := by simpa using hC
  rw [hi, hj, hl, List.filter_append, List.filter_append, hfA, hfB, hfC, slice_append]
  simp

theorem mapRange_bounds (f : K × α → K × α) {l : List (K × α)} (hs : Sorted l) :
    mapRange f (l.takeWhile fun e => p e.1).length (l.takeWhile fun e => q e.1).length l =
      l.map fun e => if q e.1 && !p e.1 then f e else e := by
  obtain ⟨A, B, C, hl, hi, hj, hA, hB, hC⟩ := split_bounds hp hq hpq hs
  have hfA : A.map (fun e => if q e.1 && !p e.1 then f e else e) = A := by
    refine (List.map_congr_left ?_).trans (List.map_id A)
    intro e he
    simp [hA e he]
  have hfB : B.map (fun e => if q e.1 && !p e.1 then f e else e) = B.map f := by
    apply List.map_congr_left
    intro e he
    simp [hB e he]
  have hfC : C.map (fun e => if q e.1 && !p e.1 then f e else e) = C := by
    refine (List.map_congr_left ?_).trans (List.map_id C)
    intro e he
    simp [hC e he]
  rw [hi, hj, hl, List.map_append, List.map_append, hfA, hfB, hfC, mapRange, slice_append,
    List.drop_left, List.append_assoc A B C, List.take_left]

theorem filterRange_bounds (keep : K × α → Bool) {l : List (K × α)} (hs : Sorted l) :
    filterRange keep (l.takeWhile fun e => p e.1).length (l.takeWhile fun e => q e.1).length l =
      l.filter fun e => !(q e.1 && !p e.1) || keep e := by
  obtain ⟨A, B, C, hl, hi, hj, hA, hB, hC⟩ := split_bounds hp hq hpq hs
  have hfA : A.filter (fun e => !(q e.1 && !p e.1) || keep e) = A :=
    List.filter_eq_self.mpr fun e he => by simp [hA e he]
  have hfB : B.filter (fun e => !(q e.1 && !p e.1) || keep e) = B.filter keep := by
    apply List.filter_congr
    intro e he
    simp [hB e he]
  have hfC : C.filter (fun e => !(q e.1 && !p e.1) || keep e) = C :=
    List.filter_eq_self.mpr fun e he => by simp [hC e he]
  rw [hi, hj, hl, List.filter_append, List.filter_append, hfA, hfB, hfC, filterRange, slice_append,
    List.drop_left, List.append_assoc A B C, List.take_left]

end Bounds

end Multimap
