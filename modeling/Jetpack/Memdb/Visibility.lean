import Jetpack.Memdb.Snapshot

/-! What a version sees of the shared entries, and the entries of a range query. -/

namespace Jetpack.Memdb

open Multimap

variable {K V : Type} [LinearOrder K]

def visible (v : Nat) (data : List (K × VersionedValue V)) : List (K × V) :=
  data.filterMap fun e => if e.2.validAt v then some (e.1, e.2.val) else none

namespace VersionedValue

variable {V : Type} {vv : VersionedValue V} {u v : Nat}

theorem validAt_iff : vv.validAt v = true ↔ vv.createdAt ≤ v ∧ ∀ r ∈ vv.removedAt, v < r := by
  cases hrem : vv.removedAt with
  | none => simp [validAt, hrem]
  | some r => simp [validAt, hrem]

theorem validAt_succ (hc : vv.createdAt ≤ v) (hr : ∀ r ∈ vv.removedAt, r ≤ v) :
    vv.validAt (v + 1) = vv.validAt v := by
  rw [Bool.eq_iff_iff, validAt_iff, validAt_iff]
  constructor
  · rintro ⟨-, h⟩
    exact ⟨hc, fun r hrm => (Nat.lt_succ_self v).trans (h r hrm)⟩
  · rintro ⟨-, h⟩
    refine ⟨Nat.le_succ_of_le hc, fun r hrm => ?_⟩
    have h1 := h r hrm
    have h2 := hr r hrm
    omega

theorem validAt_remove_old (hu : vv.validAt u = true) (hv : v ≤ u) :
    (vv.remove (u + 1)).validAt v = vv.validAt v := by
  obtain ⟨-, hr⟩ := validAt_iff.mp hu
  rw [Bool.eq_iff_iff, validAt_iff, validAt_iff]
  constructor
  · rintro ⟨hc, -⟩
    exact ⟨hc, fun r hrm => hv.trans_lt (hr r hrm)⟩
  · rintro ⟨hc, -⟩
    refine ⟨hc, fun r hrm => ?_⟩
    have he : u + 1 = r := Option.some.inj hrm
    omega

theorem validAt_remove_new : (vv.remove v).validAt v = false := by
  rw [Bool.eq_false_iff]
  intro h
  have := (validAt_iff.mp h).2 v rfl
  omega

end VersionedValue

section Visible

variable {data : List (K × VersionedValue V)} {v u : Nat}

omit [LinearOrder K] in
theorem visible_key {v : Nat} {x : K × VersionedValue V} {y : K × V}
    (h : (if x.2.validAt v then some (x.1, x.2.val) else none) = some y) : y.1 = x.1 := by
  split at h
  · cases h
    rfl
  · cases h

theorem sorted_visible (hs : Sorted data) : Sorted (visible v data) :=
  hs.filterMap fun _ _ h => visible_key h

omit [LinearOrder K] in
theorem visible_succ
    (hle : ∀ e ∈ data, e.2.createdAt ≤ v ∧ ∀ r ∈ e.2.removedAt, r ≤ v) :
    visible (v + 1) data = visible v data := by
  apply List.filterMap_congr
  intro e he
  rw [VersionedValue.validAt_succ (hle e he).1 (hle e he).2]

theorem visible_insertAll_old (hv : v < u) (entries : List (K × V)) :
    visible v (insertAll data (entries.map fun e => (e.1, { createdAt := u, val := e.2 }))) =
      visible v data := by
  induction entries generalizing data with
  | nil => rfl
  | cons e es ih =>
    have hnone : ¬ u ≤ v := by omega
    show visible v (insertAll (Multimap.insert _ data) _) = _
    rw [ih]
    apply filterMap_insert_none
    simp [VersionedValue.validAt, hnone]

theorem visible_insertAll_new (hs : Sorted data) (entries : List (K × V)) :
    visible u (insertAll data (entries.map fun e => (e.1, { createdAt := u, val := e.2 }))) =
      insertAll (visible u data) entries := by
  induction entries generalizing data with
  | nil => rfl
  | cons e es ih =>
    show visible u (insertAll (Multimap.insert _ data) _) = insertAll (Multimap.insert e _) es
    rw [ih (hs.insert _)]
    congr 1
    apply filterMap_insert_some (fun _ _ h => visible_key h) _ hs
    simp [VersionedValue.validAt]

omit [LinearOrder K] in
/-- Marking what version `u` sees as removed after it changes nothing for versions up to `u`. -/
theorem visible_marked_old (hv : v ≤ u) (sel : K × VersionedValue V → Bool) :
    visible v (data.map fun e =>
      if sel e && e.2.validAt u then (e.1, e.2.remove (u + 1)) else e) = visible v data := by
  rw [visible, List.filterMap_map]
  apply List.filterMap_congr
  intro e _
  simp only [Function.comp]
  split
  · next hsel =>
    have hval := VersionedValue.validAt_remove_old (Bool.and_eq_true_iff.mp hsel).2 hv
    simp only [hval]
    rfl
  · rfl

omit [LinearOrder K] in
theorem visible_marked_new
    (hle : ∀ e ∈ data, e.2.createdAt ≤ u ∧ ∀ r ∈ e.2.removedAt, r ≤ u) (sel : K → V → Bool) :
    visible (u + 1) (data.map fun e =>
      if sel e.1 e.2.val && e.2.validAt u then (e.1, e.2.remove (u + 1)) else e) =
      (visible u data).filter fun e => !sel e.1 e.2 := by
  rw [visible, visible, List.filterMap_map, List.filter_filterMap]
  apply List.filterMap_congr
  intro e he
  have hval := VersionedValue.validAt_succ (hle e he).1 (hle e he).2
  simp only [Function.comp]
  cases hv : e.2.validAt u with
  | false => simp [hval, hv]
  | true =>
    cases hsel : sel e.1 e.2.val with
    | false => simp [hval, hv, hsel, Option.filter]
    | true => simp [VersionedValue.validAt_remove_new, hsel, Option.filter]

omit [LinearOrder K] in
theorem visible_filter (sel : K → V → Bool) :
    visible u (data.filter fun e => !sel e.1 e.2.val) =
      (visible u data).filter fun e => !sel e.1 e.2 := by
  rw [visible, visible, List.filterMap_filter, List.filter_filterMap]
  apply List.filterMap_congr
  intro e _
  cases hv : e.2.validAt u with
  | false => simp
  | true => cases hsel : sel e.1 e.2.val <;> simp [hsel, Option.filter]

omit [LinearOrder K] in
/-- Entries that version `v` does not see can be dropped. -/
theorem visible_filter_invisible {keep : K × VersionedValue V → Bool}
    (h : ∀ e ∈ data, keep e = false → e.2.validAt v = false) :
    visible v (data.filter keep) = visible v data := by
  rw [visible, visible, List.filterMap_filter]
  apply List.filterMap_congr
  intro e he
  cases hk : keep e with
  | true => simp
  | false => simp [h e he hk]

end Visible

namespace Query

/-- The keys before the range, and the keys up to its end. -/
def before (q : Query K) (k : K) : Bool :=
  match q with
  | .all => false
  | .query key => k < key
  | .queryLt _ => false
  | .queryGt key => k ≤ key
  | .queryIn low _ => k ≤ low

def upto (q : Query K) (k : K) : Bool :=
  match q with
  | .all => true
  | .query key => k ≤ key
  | .queryLt key => k < key
  | .queryGt _ => true
  | .queryIn _ high => k < high

def holds (q : Query K) (k : K) : Bool := q.upto k && !q.before k

def ordered (q : Query K) : Bool :=
  match q with
  | .queryIn low high => low < high
  | _ => true

variable {α : Type} {q : Query K}

theorem first_eq (q : Query K) (data : List (K × α)) :
    q.first data = (data.takeWhile fun e => q.before e.1).length := by
  have hfalse : data.takeWhile (fun _ => false) = [] := by cases data <;> rfl
  cases q with
  | all => simp only [first, before, hfalse, List.length_nil]
  | queryLt key => simp only [first, before, hfalse, List.length_nil]
  | query key => rfl
  | queryGt key => rfl
  | queryIn low high => rfl

theorem last_eq (q : Query K) (data : List (K × α)) :
    q.last data = (data.takeWhile fun e => q.upto e.1).length := by
  have htrue : data.takeWhile (fun _ => true) = data := by simp
  cases q with
  | all => simp only [last, upto, htrue]
  | queryGt key => simp only [last, upto, htrue]
  | query key => rfl
  | queryLt key => rfl
  | queryIn low high => rfl

theorem before_mono (q : Query K) (a b : K) (hab : a ≤ b) (h : q.before b = true) :
    q.before a = true := by
  cases q with
  | all => cases h
  | queryLt key => cases h
  | query key => exact decide_eq_true (hab.trans_lt (of_decide_eq_true h))
  | queryGt key => exact decide_eq_true (hab.trans (of_decide_eq_true h))
  | queryIn low high => exact decide_eq_true (hab.trans (of_decide_eq_true h))

theorem upto_mono (q : Query K) (a b : K) (hab : a ≤ b) (h : q.upto b = true) :
    q.upto a = true := by
  cases q with
  | all => rfl
  | queryGt key => rfl
  | query key => exact decide_eq_true (hab.trans (of_decide_eq_true h))
  | queryLt key => exact decide_eq_true (hab.trans_lt (of_decide_eq_true h))
  | queryIn low high => exact decide_eq_true (hab.trans_lt (of_decide_eq_true h))

theorem upto_of_before (hq : q.ordered = true) (k : K) (h : q.before k = true) :
    q.upto k = true := by
  cases q with
  | all => cases h
  | queryLt key => cases h
  | query key => exact decide_eq_true (of_decide_eq_true h).le
  | queryGt key => rfl
  | queryIn low high =>
    have hlt : low < high := of_decide_eq_true hq
    exact decide_eq_true ((of_decide_eq_true h).trans_lt hlt)

theorem first_le_last (hq : q.ordered = true) {data : List (K × α)} (hs : Sorted data) :
    q.first data ≤ q.last data := by
  rw [first_eq, last_eq]
  exact bounds_le q.before_mono q.upto_mono (upto_of_before hq) hs

theorem slice_eq (hq : q.ordered = true) {data : List (K × α)} (hs : Sorted data) :
    slice (q.first data) (q.last data) data = data.filter fun e => q.holds e.1 := by
  rw [first_eq, last_eq]
  exact slice_bounds q.before_mono q.upto_mono (upto_of_before hq) hs

theorem mapRange_eq (hq : q.ordered = true) (f : K × α → K × α) {data : List (K × α)}
    (hs : Sorted data) :
    mapRange f (q.first data) (q.last data) data =
      data.map fun e => if q.holds e.1 then f e else e := by
  rw [first_eq, last_eq]
  exact mapRange_bounds q.before_mono q.upto_mono (upto_of_before hq) f hs

theorem filterRange_eq (hq : q.ordered = true) (keep : K × α → Bool) {data : List (K × α)}
    (hs : Sorted data) :
    filterRange keep (q.first data) (q.last data) data =
      data.filter fun e => !q.holds e.1 || keep e := by
  rw [first_eq, last_eq]
  exact filterRange_bounds q.before_mono q.upto_mono (upto_of_before hq) keep hs

end Query

end Jetpack.Memdb
