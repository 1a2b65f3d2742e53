import Mathlib.Data.List.Basic
import Mathlib.Data.List.Nodup
import Mathlib.Logic.Function.Basic

/-! A stream of items that one reader consumes in order. Slices of it can be handed to readers of
their own, and ranges can be reserved and filled later. The items may be stored at addresses. -/

namespace SharedStream

variable {α κ : Type}

/-- A slice is given by its next item and its end, a reserved range by its start and its length. -/
structure Stream (α : Type) where
  items : List α := []
  pos : Nat := 0
  slices : List (Nat × Nat) := []
  reserved : List (Nat × Nat) := []

namespace Stream

def unread (s : Stream α) : List α := s.items.drop s.pos

def slice (s : Stream α) (v : Nat × Nat) : List α := (s.items.take v.2).drop v.1

def append (s : Stream α) (p : List α) : Stream α := { s with items := s.items ++ p }

def advance (s : Stream α) (n : Nat) : Stream α :=
  { s with pos := min (s.pos + n) s.items.length }

def reserve (s : Stream α) (p : List α) : Stream α :=
  { s with
    items := s.items ++ p
    reserved := s.reserved ++ [(s.items.length, p.length)] }

def fill (s : Stream α) (r : Nat × Nat) (p : List α) : Stream α :=
  { s with items := s.items.take r.1 ++ p ++ s.items.drop (r.1 + r.2) }

def chop (s : Stream α) (n : Nat) : Stream α :=
  { s with
    pos := s.pos + n
    slices := s.slices ++ [(s.pos, s.pos + n)] }

def advanceSlice (s : Stream α) (i : Nat) (v : Nat × Nat) (n : Nat) : Stream α :=
  { s with slices := s.slices.set i (min (v.1 + n) v.2, v.2) }

end Stream

/-- The items of the stream lie at the addresses `A`, one each. -/
structure Located (A : List κ) (ptr : κ → α) (s : Stream α) : Prop where
  nodup : A.Nodup
  items : s.items = A.map ptr
  pos : s.pos ≤ A.length

variable {A new : List κ} {ptr ptr' : κ → α} {s : Stream α}

theorem Located.empty (ptr : κ → α) : Located [] ptr {} :=
  ⟨List.nodup_nil, rfl, Nat.le_refl 0⟩

theorem Located.length (h : Located A ptr s) : s.items.length = A.length := by
  simp [h.items]

theorem Located.unread (h : Located A ptr s) : s.unread = (A.drop s.pos).map ptr := by
  rw [Stream.unread, h.items, List.map_drop]

theorem Located.slice (h : Located A ptr s) (v : Nat × Nat) :
    s.slice v = ((A.take v.2).drop v.1).map ptr := by
  rw [Stream.slice, h.items, List.map_drop, List.map_take]

theorem Located.append (h : Located A ptr s) (hnew : new.Nodup) (hdis : A.Disjoint new)
    (hkept : ∀ a ∉ new, ptr' a = ptr a) : Located (A ++ new) ptr' (s.append (new.map ptr')) where
  nodup := List.nodup_append'.mpr ⟨h.nodup, hnew, hdis⟩
  items := by
    have hA : A.map ptr = A.map ptr' := by
      apply List.map_congr_left
      intro a ha
      exact (hkept a (hdis ha)).symm
    simp [Stream.append, h.items, hA]
  pos := by
    have := h.pos
    simp only [Stream.append, List.length_append]
    omega

theorem Located.advance (h : Located A ptr s) (n : Nat) : Located A ptr (s.advance n) where
  nodup := h.nodup
  items := h.items
  pos := by
    simp only [Stream.advance, h.length]
    omega

theorem drop_advance (h : Located A ptr s) (n : Nat) :
    A.drop (s.advance n).pos = (A.drop s.pos).drop n := by
  rw [List.drop_drop, Stream.advance, h.length]
  rcases Nat.le_total (s.pos + n) A.length with hle | hle
  · rw [Nat.min_eq_left hle]
  · rw [Nat.min_eq_right hle, List.drop_of_length_le (Nat.le_refl _), List.drop_of_length_le hle]

theorem drop_advanceSlice (A : List κ) (v : Nat × Nat) (n : Nat) :
    (A.take v.2).drop (min (v.1 + n) v.2) = ((A.take v.2).drop v.1).drop n := by
  rw [List.drop_drop]
  rcases Nat.le_total (v.1 + n) v.2 with hle | hle
  · rw [Nat.min_eq_left hle]
  · have hl : (A.take v.2).length ≤ v.2 := List.length_take_le _ _
    rw [Nat.min_eq_right hle, List.drop_of_length_le hl,
      List.drop_of_length_le (Nat.le_trans hl hle)]

/-- A range of items is replaced where the memory changes at their addresses only. -/
theorem Located.fill (h : Located A ptr s) (r : Nat × Nat) (ptr' : κ → α)
    (hkept : ∀ a ∉ (A.drop r.1).take r.2, ptr' a = ptr a) :
    Located A ptr' (s.fill r (((A.drop r.1).take r.2).map ptr')) := by
  have hdrop : A.drop (r.1 + r.2) = (A.drop r.1).drop r.2 := by rw [List.drop_drop]
  have hsplit : A = A.take r.1 ++ ((A.drop r.1).take r.2 ++ A.drop (r.1 + r.2)) := by
    rw [hdrop, List.take_append_drop, List.take_append_drop]
  have hnd := h.nodup
  rw [hsplit] at hnd
  obtain ⟨-, hnd', hdis⟩ := List.nodup_append'.mp hnd
  obtain ⟨-, -, hdis'⟩ := List.nodup_append'.mp hnd'
  have hfst : (A.take r.1).map ptr = (A.take r.1).map ptr' := by
    apply List.map_congr_left
    intro a ha
    exact (hkept a (fun hm => hdis ha (List.mem_append_left _ hm))).symm
  have hlast : (A.drop (r.1 + r.2)).map ptr = (A.drop (r.1 + r.2)).map ptr' := by
    apply List.map_congr_left
    intro a ha
    exact (hkept a (fun hm => hdis' hm ha)).symm
  refine ⟨h.nodup, ?_, h.pos⟩
  rw [Stream.fill, h.items, ← List.map_take, ← List.map_drop, hfst, hlast, List.append_assoc,
    ← List.map_append, ← List.map_append, ← hsplit]

end SharedStream
