import Jetpack.Memdb.Txn

/-! The staged values of a row: what a column reads as, and staging values on top of others. -/

namespace Jetpack.Memdb

open Multimap

variable {V : Type}

def stageCol (c : Nat) (v : V) : List (Nat × V) → List (Nat × V)
  | [] => [(c, v)]
  | u :: us => if u.1 = c then (c, v) :: us else u :: stageCol c v us

def lookupCol (c : Nat) (us : List (Nat × V)) : Option V :=
  (us.find? fun u => u.1 == c).map Prod.snd

/-- The values in `own` staged one by one on top of those in `base`. -/
def stageAll (base own : List (Nat × V)) : List (Nat × V) :=
  own.foldl (fun us u => stageCol u.1 u.2 us) base

/-- The columns of a row with the values in `own` on top. -/
def overlay (column : Nat → V) (own : List (Nat × V)) : Nat → V :=
  own.foldl (fun f u => Function.update f u.1 u.2) column

section Columns

variable {c d : Nat} {v w : V} {us own base : List (Nat × V)}

theorem lookupCol_cons (u : Nat × V) (us : List (Nat × V)) :
    lookupCol c (u :: us) = if u.1 = c then some u.2 else lookupCol c us := by
  by_cases hc : u.1 = c
  · simp [lookupCol, hc]
  · simp [lookupCol, hc]

theorem lookupCol_eq_none (h : c ∉ us.map Prod.fst) : lookupCol c us = none := by
  rw [lookupCol, Option.map_eq_none_iff, List.find?_eq_none]
  intro u hu hc
  exact h (List.mem_map.mpr ⟨u, hu, beq_iff_eq.mp hc⟩)

theorem lookupCol_stageCol :
    lookupCol d (stageCol c v us) = if c = d then some v else lookupCol d us := by
  induction us with
  | nil => simp [stageCol, lookupCol_cons]
  | cons u us ih =>
    rw [stageCol]
    by_cases hu : u.1 = c
    · rw [if_pos hu, lookupCol_cons, lookupCol_cons]
      by_cases hd : c = d
      · rw [if_pos hd, if_pos hd]
      · rw [if_neg hd, if_neg hd, if_neg (hu ▸ hd)]
    · rw [if_neg hu, lookupCol_cons, lookupCol_cons, ih]
      by_cases hd : c = d
      · rw [if_pos hd, if_pos hd, if_neg (hd ▸ hu)]
      · rw [if_neg hd, if_neg hd]

theorem stageCol_fst (c : Nat) (v : V) (us : List (Nat × V)) :
    (stageCol c v us).map Prod.fst =
      if c ∈ us.map Prod.fst then us.map Prod.fst else us.map Prod.fst ++ [c] := by
  induction us with
  | nil => simp [stageCol]
  | cons u us ih =>
    rw [stageCol]
    by_cases hu : u.1 = c
    · simp [hu]
    · have hne : ¬ c = u.1 := fun h => hu h.symm
      rw [if_neg hu, List.map_cons, ih]
      by_cases hin : c ∈ us.map Prod.fst
      · simp [hin]
      · simp only [List.map_cons, List.mem_cons, hne, hin, or_self, if_false,
          List.cons_append]

theorem nodup_stageCol (h : (us.map Prod.fst).Nodup) (c : Nat) (v : V) :
    ((stageCol c v us).map Prod.fst).Nodup := by
  rw [stageCol_fst]
  split
  · exact h
  · next hc => exact h.append (List.nodup_singleton c) (by simpa using hc)

theorem stageCol_idem : stageCol c v (stageCol c w us) = stageCol c v us := by
  induction us with
  | nil => simp [stageCol]
  | cons u us ih =>
    by_cases hu : u.1 = c
    · simp [stageCol, hu]
    · simp [stageCol, hu, ih]

theorem stageCol_comm (hcd : c ≠ d) (hc : c ∈ us.map Prod.fst) :
    stageCol c v (stageCol d w us) = stageCol d w (stageCol c v us) := by
  induction us with
  | nil => cases hc
  | cons u us ih =>
    by_cases hu : u.1 = c
    · have hud : u.1 ≠ d := hu ▸ hcd
      simp [stageCol, hu, hcd]
    · have hc' : c ∈ us.map Prod.fst := by
        rw [List.map_cons] at hc
        exact (List.mem_cons.mp hc).resolve_left fun h => hu h.symm
      by_cases hud : u.1 = d
      · have hdc : ¬ d = c := fun h => hcd h.symm
        simp [stageCol, hud, hdc]
      · simp [stageCol, hu, hud, ih hc']

theorem stageCol_stageAll (hc : c ∉ own.map Prod.fst) (hb : c ∈ base.map Prod.fst) :
    stageCol c v (stageAll base own) = stageAll (stageCol c v base) own := by
  induction own generalizing base with
  | nil => rfl
  | cons u own ih =>
    rw [List.map_cons] at hc
    have hne : c ≠ u.1 := List.ne_of_not_mem_cons hc
    have hrest : c ∉ own.map Prod.fst := List.not_mem_of_not_mem_cons hc
    have hin : c ∈ (stageCol u.1 u.2 base).map Prod.fst := by
      rw [stageCol_fst]
      split
      · exact hb
      · exact List.mem_append_left _ hb
    show stageCol c v (stageAll (stageCol u.1 u.2 base) own) =
      stageAll (stageCol u.1 u.2 (stageCol c v base)) own
    rw [ih hrest hin, stageCol_comm hne hb]

/-- Staging a value and then everything is staging everything and then the value. -/
theorem stageAll_stageCol (hnd : (own.map Prod.fst).Nodup) :
    stageAll base (stageCol c v own) = stageCol c v (stageAll base own) := by
  induction own generalizing base with
  | nil => rfl
  | cons u own ih =>
    have hnd' := List.nodup_cons.mp hnd
    rw [stageCol]
    by_cases hu : u.1 = c
    · rw [if_pos hu]
      have hin : c ∈ (stageCol c u.2 base).map Prod.fst := by
        rw [stageCol_fst]
        split
        · next h => exact h
        · simp
      have hout : c ∉ own.map Prod.fst := hu ▸ hnd'.1
      show stageAll (stageCol c v base) own = stageCol c v (stageAll (stageCol u.1 u.2 base) own)
      rw [hu, stageCol_stageAll hout hin, stageCol_idem]
    · rw [if_neg hu]
      exact ih hnd'.2

theorem lookupCol_stageAll (hnd : (own.map Prod.fst).Nodup) :
    lookupCol c (stageAll base own) = (lookupCol c own).or (lookupCol c base) := by
  induction own generalizing base with
  | nil => rfl
  | cons u own ih =>
    have hnd' := List.nodup_cons.mp hnd
    show lookupCol c (stageAll (stageCol u.1 u.2 base) own) = _
    rw [ih hnd'.2, lookupCol_stageCol, lookupCol_cons]
    by_cases hu : u.1 = c
    · rw [if_pos hu, if_pos hu, lookupCol_eq_none (hu ▸ hnd'.1)]
      rfl
    · rw [if_neg hu, if_neg hu]

theorem overlay_apply (hnd : (own.map Prod.fst).Nodup) (column : Nat → V) :
    overlay column own c = (lookupCol c own).getD (column c) := by
  induction own generalizing column with
  | nil => rfl
  | cons u own ih =>
    have hnd' := List.nodup_cons.mp hnd
    show overlay (Function.update column u.1 u.2) own c = _
    rw [ih hnd'.2, lookupCol_cons]
    by_cases hu : u.1 = c
    · rw [if_pos hu, lookupCol_eq_none (hu ▸ hnd'.1), ← hu, Option.getD_none, Function.update_self]
      rfl
    · rw [if_neg hu, Function.update_of_ne fun h => hu h.symm]

theorem overlay_stageCol (hnd : (own.map Prod.fst).Nodup) (column : Nat → V) :
    overlay column (stageCol c v own) = Function.update (overlay column own) c v := by
  funext x
  rw [overlay_apply (nodup_stageCol hnd c v), lookupCol_stageCol, Function.update_apply]
  by_cases hx : c = x
  · rw [if_pos hx, if_pos hx.symm]
    rfl
  · rw [if_neg hx, if_neg fun h => hx h.symm, overlay_apply hnd]

end Columns

section Updates

variable {updates : List (Nat × (Nat × V))} {row col : Nat}

theorem stagedValue_eq (updates : List (Nat × (Nat × V))) (row col : Nat) :
    stagedValue updates row col = lookupCol col (values row updates) := by
  induction updates with
  | nil => rfl
  | cons u us ih =>
    obtain ⟨r, c, v⟩ := u
    by_cases hr : r = row
    · subst hr
      rw [values_cons_self, lookupCol_cons, ← ih]
      by_cases hc : c = col
      · simp [stagedValue, hc]
      · simp [stagedValue, hc]
    · rw [values_cons_of_ne hr, ← ih]
      simp [stagedValue, hr]

theorem stageValue_none {v : V} (h : stageValue row col v updates = none) :
    stageCol col v (values row updates) = values row updates ++ [(col, v)] := by
  induction updates with
  | nil => rfl
  | cons u us ih =>
    obtain ⟨r, c, x⟩ := u
    rw [stageValue] at h
    split at h
    · cases h
    · next hu =>
      have hrest := Option.map_eq_none_iff.mp h
      by_cases hr : r = row
      · subst hr
        have hc : ¬ c = col := by
          intro hc
          simp [hc] at hu
        rw [values_cons_self, stageCol, if_neg hc, ih hrest]
        rfl
      · rw [values_cons_of_ne hr]
        exact ih hrest

theorem stageValue_some {v : V} {updates' : List (Nat × (Nat × V))}
    (h : stageValue row col v updates = some updates') :
    updates'.map Prod.fst = updates.map Prod.fst ∧
      ∀ r, values r updates' =
        if r = row then stageCol col v (values r updates) else values r updates := by
  induction updates generalizing updates' with
  | nil => cases h
  | cons u us ih =>
    obtain ⟨r, c, x⟩ := u
    rw [stageValue] at h
    split at h
    · next hu =>
      obtain rfl := Option.some.inj h
      obtain ⟨hr, hc⟩ : r = row ∧ c = col := by simpa using hu
      subst hr hc
      refine ⟨rfl, ?_⟩
      intro r'
      by_cases hr' : r' = r
      · subst hr'
        rw [values_cons_self, values_cons_self, if_pos rfl, stageCol, if_pos rfl]
      · have hne : r ≠ r' := fun h => hr' h.symm
        rw [values_cons_of_ne hne, values_cons_of_ne hne, if_neg hr']
    · next hu =>
      obtain ⟨us', hus, rfl⟩ := Option.map_eq_some_iff.mp h
      obtain ⟨hkeys, hvalues⟩ := ih hus
      refine ⟨by rw [List.map_cons, List.map_cons, hkeys], ?_⟩
      intro r'
      have hr := hvalues r'
      by_cases hrr : r = r'
      · subst hrr
        rw [values_cons_self, values_cons_self, hr]
        by_cases hrow : r = row
        · subst hrow
          have hc : ¬ c = col := by
            intro hc
            simp [hc] at hu
          rw [if_pos rfl, if_pos rfl, stageCol, if_neg hc]
        · rw [if_neg hrow, if_neg hrow]
      · rw [values_cons_of_ne hrr, values_cons_of_ne hrr, hr]

theorem sorted_stageUpdate (hs : Sorted updates) (row col : Nat) (v : V) :
    Sorted (stageUpdate updates row col v) := by
  rw [stageUpdate]
  cases h : stageValue row col v updates with
  | none => exact hs.insert _
  | some updates' =>
    have hkeys := (stageValue_some h).1
    rw [Option.getD_some, Sorted, ← List.pairwise_map (f := Prod.fst) (R := (· ≤ ·)), hkeys,
      List.pairwise_map]
    exact hs

theorem values_stageUpdate (hs : Sorted updates) (row col : Nat) (v : V) (r : Nat) :
    values r (stageUpdate updates row col v) =
      if r = row then stageCol col v (values r updates) else values r updates := by
  rw [stageUpdate]
  cases h : stageValue row col v updates with
  | none =>
    rw [Option.getD_none]
    by_cases hr : r = row
    · subst hr
      rw [if_pos rfl, values_insert_self hs, stageValue_none h]
    · rw [if_neg hr, values_insert_of_ne fun he => hr he.symm]
  | some updates' => exact (stageValue_some h).2 r

theorem values_filter_ne (updates : List (Nat × (Nat × V))) (row r : Nat) :
    values r (updates.filter fun u => u.1 != row) = if r = row then [] else values r updates := by
  by_cases hr : r = row
  · subst hr
    rw [if_pos rfl]
    apply values_eq_nil
    intro e he
    simpa using (List.mem_filter.mp he).2
  · rw [if_neg hr, values, values, List.filter_filter]
    congr 1
    apply List.filter_congr
    intro e _
    by_cases he : e.1 = r
    · simp [he, hr]
    · simp [he]

end Updates

end Jetpack.Memdb
