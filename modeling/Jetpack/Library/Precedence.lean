import Mathlib.Data.List.Nodup
import Mathlib.Data.List.TakeWhile

/-! The order in which two elements occur in a list. -/

namespace Precedence

variable {α : Type} {l l' : List α} {a b c : α}

def Before (l : List α) (a b : α) : Prop :=
  [a, b].Sublist l

theorem Before.left_mem (h : Before l a b) : a ∈ l :=
  h.subset List.mem_cons_self

theorem Before.right_mem (h : Before l a b) : b ∈ l :=
  h.subset (List.mem_cons_of_mem a List.mem_cons_self)

theorem Before.mono (h : Before l a b) (hl : l.Sublist l') : Before l' a b :=
  h.trans hl

theorem before_append_of_mem (ha : a ∈ l) : Before (l ++ [b]) a b :=
  (List.singleton_sublist.mpr ha).append (List.Sublist.refl [b])

theorem Before.of_append (h : Before (l ++ [c]) a b) : Before l a b ∨ a ∈ l ∧ b = c := by
  obtain ⟨x, y, hxy, hx, hy⟩ := List.sublist_append_iff.mp h
  rcases List.sublist_singleton.mp hy with rfl | rfl
  · rw [List.append_nil] at hxy
    subst hxy
    exact .inl hx
  · have hxy : [a] ++ [b] = x ++ [c] := hxy
    obtain ⟨hx', hc⟩ := List.append_inj' hxy rfl
    subst hx'
    exact .inr ⟨List.singleton_sublist.mp hx, (List.cons.inj hc).1⟩

theorem Before.mem_takeWhile [BEq α] [LawfulBEq α] (hnd : l.Nodup) (h : Before l a b) :
    a ∈ l.takeWhile (· != b) := by
  induction l with
  | nil => exact absurd h.left_mem List.not_mem_nil
  | cons x l ih =>
    obtain ⟨hx, hl⟩ := List.nodup_cons.mp hnd
    rcases List.sublist_cons_iff.mp h with hab | ⟨r, hr, hb⟩
    · have hxb : x ≠ b := fun hxb => hx (hxb ▸ Before.right_mem hab)
      rw [List.takeWhile_cons_of_pos (by simpa using hxb)]
      exact List.mem_cons_of_mem x (ih hl hab)
    · obtain ⟨rfl, rfl⟩ := List.cons.inj hr
      have hab : a ≠ b := fun hab => hx (hab ▸ List.singleton_sublist.mp hb)
      rw [List.takeWhile_cons_of_pos (by simpa using hab)]
      exact List.mem_cons_self

end Precedence
