import Mathlib

/-! Pieces laid one after the other in a buffer: where each ends, and writing one of them. -/

namespace Packing

variable {α : Type}

/-- `none` when the write would leave the buffer. -/
def writeAt (buf : List α) (pos : Nat) (bs : List α) : Option (List α) :=
  if pos + bs.length ≤ buf.length then
    some (buf.take pos ++ (bs ++ buf.drop (pos + bs.length)))
  else none

/-- Where each piece ends, when the first one begins at `base`. -/
def ends (base : Nat) : List (List α) → List Nat
  | [] => []
  | p :: ps => (base + p.length) :: ends (base + p.length) ps

def start (stops : List Nat) (i : Nat) : Option Nat :=
  if i = 0 then some 0 else stops[i - 1]?

theorem writeAt_middle (pre post : List α) {mid bs : List α} (h : bs.length = mid.length) :
    writeAt (pre ++ (mid ++ post)) pre.length bs = some (pre ++ (bs ++ post)) := by
  have hroom : pre.length + bs.length ≤ (pre ++ (mid ++ post)).length := by
    simp only [List.length_append]
    omega
  have hdrop : (pre ++ (mid ++ post)).drop (pre.length + bs.length) = post := by
    rw [h, ← List.drop_drop, List.drop_left, List.drop_left]
  rw [writeAt, if_pos hroom, hdrop, List.take_left]

theorem length_writeAt {buf buf' bs : List α} {pos : Nat} (h : writeAt buf pos bs = some buf') :
    buf'.length = buf.length := by
  unfold writeAt at h
  split at h
  · next hroom =>
    cases h
    simp only [List.length_append, List.length_take, List.length_drop]
    omega
  · cases h

theorem take_drop_middle (pre mid post : List α) :
    ((pre ++ (mid ++ post)).drop pre.length).take mid.length = mid := by
  rw [List.drop_left, List.take_left]

@[simp]
theorem length_ends (base : Nat) (ps : List (List α)) : (ends base ps).length = ps.length := by
  induction ps generalizing base with
  | nil => rfl
  | cons p ps ih => simp [ends, ih]

theorem ends_append (base : Nat) (ps qs : List (List α)) :
    ends base (ps ++ qs) = ends base ps ++ ends (base + ps.flatten.length) qs := by
  induction ps generalizing base with
  | nil => simp [ends]
  | cons p ps ih => simp [ends, ih, Nat.add_assoc]

/-- The end of a piece, and with it the beginning of the next. -/
theorem ends_getElem? (pre post : List (List α)) (p : List α) :
    (ends 0 (pre ++ p :: post))[pre.length]? = some (pre.flatten.length + p.length) := by
  have hlen : (ends 0 pre).length = pre.length := length_ends 0 pre
  rw [ends_append, List.getElem?_append_right (Nat.le_of_eq hlen), hlen, Nat.sub_self]
  simp [ends]

theorem start_ends (pre post : List (List α)) :
    start (ends 0 (pre ++ post)) pre.length = some pre.flatten.length := by
  cases pre using List.reverseRecOn with
  | nil => rfl
  | append_singleton pre p =>
    have hne : (pre ++ [p]).length ≠ 0 := by simp
    have hlast : (pre ++ [p]).length - 1 = pre.length := by simp
    rw [start, if_neg hne, hlast, List.append_assoc, List.singleton_append, ends_getElem?]
    simp

theorem ends_congr (base : Nat) (pre post : List (List α)) {p q : List α}
    (h : q.length = p.length) : ends base (pre ++ q :: post) = ends base (pre ++ p :: post) := by
  rw [ends_append, ends_append]
  simp only [ends, h]

theorem piece_flatten (pre post : List (List α)) (p : List α) :
    ((pre ++ p :: post).flatten.drop pre.flatten.length).take p.length = p := by
  rw [List.flatten_append, List.flatten_cons]
  exact take_drop_middle _ _ _

theorem exists_pieces {l : List α} {i : Nat} {x : α} (h : l[i]? = some x) :
    ∃ pre post, l = pre ++ x :: post ∧ pre.length = i := by
  obtain ⟨hlt, hx⟩ := List.getElem?_eq_some_iff.mp h
  refine ⟨l.take i, l.drop (i + 1), ?_, ?_⟩
  · rw [← hx, ← List.drop_eq_getElem_cons hlt, List.take_append_drop]
  · rw [List.length_take]
    omega

theorem mapM_range {l : List α} {f : Nat → Option α} (h : ∀ i x, l[i]? = some x → f i = some x) :
    (List.range l.length).mapM f = some l := by
  induction l using List.reverseRecOn with
  | nil => rfl
  | append_singleton l x ih =>
    have hinit : (List.range l.length).mapM f = some l := by
      apply ih
      intro i y hi
      obtain ⟨hlt, -⟩ := List.getElem?_eq_some_iff.mp hi
      exact h i y ((List.getElem?_append_left hlt).trans hi)
    have hlast : f l.length = some x := h _ x List.getElem?_concat_length
    rw [List.length_append, List.length_singleton, List.range_succ, List.mapM_append, hinit]
    simp [hlast]

theorem writeAt_end (done : List α) {rest bs : List α} (h : bs.length ≤ rest.length) :
    writeAt (done ++ rest) done.length bs = some ((done ++ bs) ++ rest.drop bs.length) := by
  have hlen : bs.length = (rest.take bs.length).length := by
    rw [List.length_take]
    omega
  have hwrite := writeAt_middle done (rest.drop bs.length) hlen
  rw [List.take_append_drop] at hwrite
  rw [hwrite, List.append_assoc]

end Packing
