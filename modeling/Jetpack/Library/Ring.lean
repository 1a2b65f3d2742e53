import Mathlib.Data.List.Rotate

/-! Circular doubly linked lists. -/

namespace Ring

variable {κ : Type}

/-- The pointers run around the list in its order. -/
structure IsRing (next prev : κ → Option κ) (l : List κ) : Prop where
  nodup : l.Nodup
  next : l.map next = (l.rotate 1).map some
  prev : (l.rotate 1).map prev = l.map some

variable {next prev next' prev' : κ → Option κ} {l t : List κ} {a x : κ}

theorem IsRing.nil : IsRing next prev ([] : List κ) := ⟨List.nodup_nil, rfl, rfl⟩

theorem IsRing.rotate (h : IsRing next prev l) (n : Nat) : IsRing next prev (l.rotate n) where
  nodup := List.nodup_rotate.mpr h.nodup
  next := by
    rw [List.map_rotate, h.next, ← List.map_rotate, List.rotate_rotate, List.rotate_rotate,
      Nat.add_comm]
  prev := by
    rw [List.rotate_rotate, Nat.add_comm, ← List.rotate_rotate, List.map_rotate, h.prev,
      ← List.map_rotate]

/-- A ring can be read from any of its members on. -/
theorem IsRing.from_mem (h : IsRing next prev l) (ha : a ∈ l) :
    ∃ t, IsRing next prev (a :: t) ∧ (a :: t).Perm l := by
  obtain ⟨u, v, rfl⟩ := List.append_of_mem ha
  have hr : (u ++ a :: v).rotate u.length = a :: (v ++ u) := by
    rw [List.rotate_append_length_eq]
    rfl
  refine ⟨v ++ u, ?_, ?_⟩
  · rw [← hr]
    exact h.rotate u.length
  · rw [← hr]
    exact List.rotate_perm _ _

theorem IsRing.single (hn : next a = some a) (hp : prev a = some a) : IsRing next prev [a] where
  nodup := by simp
  next := by simp [hn]
  prev := by simp [hp]

theorem IsRing.congr (h : IsRing next prev l) (hn : ∀ b ∈ l, next' b = next b)
    (hp : ∀ b ∈ l, prev' b = prev b) : IsRing next' prev' l where
  nodup := h.nodup
  next := by
    rw [← h.next]
    exact List.map_congr_left hn
  prev := by
    rw [← h.prev]
    refine List.map_congr_left ?_
    intro b hb
    exact hp b (List.mem_rotate.mp hb)

theorem IsRing.cons (h : IsRing next prev (a :: t)) :
    ∃ u p, a :: t = u ++ [p] ∧ u.map next = t.map some ∧ next p = some a ∧ prev a = some p ∧
      t.map prev = u.map some := by
  obtain ⟨u, p, hu⟩ : ∃ u p, a :: t = u ++ [p] := by
    rcases List.eq_nil_or_concat (a :: t) with h0 | ⟨u, p, h1⟩
    · cases h0
    · exact ⟨u, p, by simpa using h1⟩
  have hn := h.next
  have hp := h.prev
  rw [List.rotate_cons_succ, List.rotate_zero] at hn hp
  rw [hu, List.map_append, List.map_append] at hn
  rw [hu, List.map_append, List.map_append] at hp
  have hn' := List.append_inj' hn rfl
  have hp' := List.append_inj' hp rfl
  refine ⟨u, p, hu, hn'.1, by simpa using hn'.2, by simpa using hp'.2, hp'.1⟩

theorem IsRing.eq_nil (h : IsRing next prev (a :: t)) (hpa : prev a = some a) : t = [] := by
  obtain ⟨u, p, hu, -, -, hpp, -⟩ := h.cons
  obtain rfl : a = p := Option.some.inj (hpa.symm.trans hpp)
  cases u with
  | nil => simpa using hu
  | cons b u =>
    simp only [List.cons_append, List.cons.injEq] at hu
    have hat : a ∉ t := (List.nodup_cons.mp h.nodup).1
    exact absurd (by simp [hu.2]) hat

theorem IsRing.insert (h : IsRing next prev (a :: t)) (hx : x ∉ a :: t) {p : κ}
    (hpa : prev a = some p) (hnp : next' p = some x) (hnx : next' x = some a)
    (hn : ∀ b ∈ a :: t, b ≠ p → next' b = next b) (hpa' : prev' a = some x)
    (hpx : prev' x = some p) (hp : ∀ b ∈ t, prev' b = prev b) :
    IsRing next' prev' (a :: t ++ [x]) := by
  obtain ⟨u, p', hu, hnu, -, hpp, hpt⟩ := h.cons
  obtain rfl : p = p' := Option.some.inj (hpa.symm.trans hpp)
  have hnd := h.nodup
  have hpu : p ∉ u := by
    rw [hu] at hnd
    exact fun hm => List.disjoint_of_nodup_append hnd hm (by simp)
  refine ⟨?_, ?_, ?_⟩
  · refine List.nodup_append'.mpr ⟨hnd, by simp, ?_⟩
    simpa using hx
  · have hmap : u.map next' = t.map some := by
      rw [← hnu]
      apply List.map_congr_left
      intro b hb
      exact hn b (by rw [hu]; simp [hb]) (fun he => hpu (he ▸ hb))
    rw [List.cons_append, List.rotate_cons_succ, List.rotate_zero, ← List.cons_append, hu]
    simp [hmap, hnp, hnx]
  · have hmap : t.map prev' = u.map some := by
      rw [← hpt]
      exact List.map_congr_left hp
    rw [List.cons_append, List.rotate_cons_succ, List.rotate_zero, ← List.cons_append, hu]
    simp [hmap, hpa', hpx]

theorem IsRing.remove {b : κ} {s : List κ} (h : IsRing next prev (a :: b :: s)) {p : κ}
    (hpa : prev a = some p) (hnp : next' p = some b)
    (hn : ∀ c ∈ b :: s, c ≠ p → next' c = next c) (hpb : prev' b = some p)
    (hp : ∀ c ∈ s, prev' c = prev c) : IsRing next' prev' (b :: s) := by
  obtain ⟨u, p', hu, hnu, -, hpp, hpt⟩ := h.cons
  obtain rfl : p = p' := Option.some.inj (hpa.symm.trans hpp)
  have hnd := h.nodup
  obtain ⟨v, rfl⟩ : ∃ v, u = a :: v := by
    cases u with
    | nil => simp at hu
    | cons c v =>
      simp only [List.cons_append, List.cons.injEq] at hu
      exact ⟨v, by rw [hu.1]⟩
  simp only [List.cons_append, List.cons.injEq, true_and] at hu
  simp only [List.map_cons, List.cons.injEq] at hnu hpt
  have hpv : p ∉ v := by
    rw [hu] at hnd
    exact fun hm => List.disjoint_of_nodup_append (List.nodup_cons.mp hnd).2 hm (by simp)
  refine ⟨(List.nodup_cons.mp hnd).2, ?_, ?_⟩
  · have hmap : v.map next' = s.map some := by
      rw [← hnu.2]
      apply List.map_congr_left
      intro c hc
      exact hn c (by rw [hu]; simp [hc]) (fun he => hpv (he ▸ hc))
    rw [List.rotate_cons_succ, List.rotate_zero, hu]
    simp [hmap, hnp]
  · have hmap : s.map prev' = v.map some := by
      rw [← hpt.2]
      exact List.map_congr_left hp
    rw [List.rotate_cons_succ, List.rotate_zero, hu]
    simp [hmap, hpb]

theorem IsRing.next_eq (h : IsRing next prev (a :: t)) {u s : List κ} {c : κ}
    (hs : a :: t = u ++ c :: s) : next c = some (s.headD a) := by
  have hr : (a :: t).rotate u.length = c :: (s ++ u) := by
    rw [hs, List.rotate_append_length_eq]
    rfl
  have hn := (h.rotate u.length).next
  rw [hr, List.rotate_cons_succ, List.rotate_zero] at hn
  cases s with
  | cons d s =>
    simp only [List.map_cons, List.cons_append, List.cons.injEq] at hn
    exact hn.1
  | nil =>
    -- the last member points to the first one
    rw [List.nil_append, ← hs] at hn
    simp only [List.map_cons, List.cons.injEq] at hn
    exact hn.1

/-- A member that is its own successor is its own predecessor. -/
theorem IsRing.prev_of_next_self (h : IsRing next prev (a :: t)) (hn : next a = some a) :
    prev a = some a := by
  have hn' := h.next_eq (u := []) rfl
  cases t with
  | nil =>
    have hp := h.prev
    simpa using hp
  | cons c t =>
    have he : a = c := Option.some.inj (hn.symm.trans hn')
    have hnd := h.nodup
    simp [he] at hnd

end Ring
