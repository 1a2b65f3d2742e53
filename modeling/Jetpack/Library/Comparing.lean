import Mathlib

/-! Lists kept in order by a comparison that need not be transitive everywhere, only on the
elements at hand. -/

namespace Comparing

variable {α : Type} {lt : α → α → Bool}

def insertAfter (lt : α → α → Bool) (x : α) (l : List α) : List α :=
  l.takeWhile (fun y => !lt x y) ++ x :: l.dropWhile (fun y => !lt x y)

/-- The elements before the range of `x`, the range itself, and those behind it. -/
def before (lt : α → α → Bool) (x : α) (l : List α) : List α := l.takeWhile fun y => lt y x

def range (lt : α → α → Bool) (x : α) (l : List α) : List α :=
  (l.dropWhile fun y => lt y x).takeWhile fun y => !lt x y

def after (lt : α → α → Bool) (x : α) (l : List α) : List α :=
  (l.dropWhile fun y => lt y x).dropWhile fun y => !lt x y

def Sorted (lt : α → α → Bool) (l : List α) : Prop := l.Pairwise fun a b => lt b a = false

/-- Not being smaller is transitive on these elements. -/
def WeakOn (lt : α → α → Bool) (s : α → Prop) : Prop :=
  ∀ a b c, s a → s b → s c → lt a b = false → lt b c = false → lt a c = false

theorem append_range (lt : α → α → Bool) (x : α) (l : List α) :
    before lt x l ++ (range lt x l ++ after lt x l) = l := by
  rw [range, after, List.takeWhile_append_dropWhile, before, List.takeWhile_append_dropWhile]

theorem insertAfter_perm (x : α) (l : List α) : (insertAfter lt x l).Perm (x :: l) := by
  rw [insertAfter]
  refine List.perm_middle.trans (List.Perm.cons x ?_)
  rw [List.takeWhile_append_dropWhile]

theorem head_dropWhile {p : α → Bool} {l m : List α} {y : α} (h : l.dropWhile p = y :: m) :
    p y = false := by
  induction l with
  | nil => cases h
  | cons x l ih =>
    rw [List.dropWhile_cons] at h
    split at h
    · exact ih h
    · next hx =>
      cases h
      simpa using hx

theorem Sorted.insertAfter {l : List α} {x : α} (hs : Sorted lt l)
    (hasymm : ∀ a b, lt a b = true → lt b a = false)
    (hweak : WeakOn lt fun y => y ∈ x :: l) : Sorted lt (insertAfter lt x l) := by
  have hsplit : l.takeWhile (fun y => !lt x y) ++ l.dropWhile (fun y => !lt x y) = l :=
    List.takeWhile_append_dropWhile
  have hs' := hs
  rw [Sorted, ← hsplit, List.pairwise_append] at hs'
  obtain ⟨hfront, hback, hacross⟩ := hs'
  have hmemback : ∀ y ∈ l.dropWhile (fun y => !lt x y), y ∈ l :=
    fun y hy => (List.dropWhile_sublist _).subset hy
  rw [Sorted, Comparing.insertAfter, List.pairwise_append]
  refine ⟨hfront, List.pairwise_cons.mpr ⟨?_, hback⟩, ?_⟩
  · -- the first element behind `x` is greater, and the others are not smaller than that one
    intro y hy
    cases hdrop : l.dropWhile (fun y => !lt x y) with
    | nil =>
      rw [hdrop] at hy
      cases hy
    | cons z m =>
      have hz : lt x z = true := by simpa using head_dropWhile hdrop
      rw [hdrop] at hy hback hmemback
      rcases List.mem_cons.mp hy with rfl | hy
      · exact hasymm _ _ hz
      · have hyz : lt y z = false := (List.pairwise_cons.mp hback).1 y hy
        by_contra hyx
        have hxy : lt x y = false := hasymm _ _ (by simpa using hyx)
        have hxz := hweak x y z List.mem_cons_self
          (List.mem_cons_of_mem x (hmemback y (List.mem_cons_of_mem z hy)))
          (List.mem_cons_of_mem x (hmemback z List.mem_cons_self)) hxy hyz
        rw [hz] at hxz
        cases hxz
  · intro a ha b hb
    have hxa : lt x a = false := by simpa using List.mem_takeWhile_imp ha
    rcases List.mem_cons.mp hb with rfl | hb
    · exact hxa
    · exact hacross a ha b hb

theorem mem_range {l : List α} {x y : α} (hs : Sorted lt l) (hweak : WeakOn lt fun z => z ∈ x :: l)
    (hy : y ∈ l) (hyx : lt y x = false) (hxy : lt x y = false) : y ∈ range lt x l := by
  have hsplit := append_range lt x l
  have hparts := hy
  rw [← hsplit, List.mem_append, List.mem_append] at hparts
  rcases hparts with hb | hr | ha
  · have := List.mem_takeWhile_imp hb
    rw [hyx] at this
    cases this
  · exact hr
  · -- what follows the range begins with a greater element
    cases hdrop : after lt x l with
    | nil =>
      rw [hdrop] at ha
      cases ha
    | cons z m =>
      have hz : lt x z = true := by simpa using head_dropWhile hdrop
      rw [hdrop] at ha
      rcases List.mem_cons.mp ha with rfl | ha
      · rw [hz] at hxy
        cases hxy
      · have hsub : (z :: m).Sublist l := by
          rw [← hdrop]
          exact (List.dropWhile_sublist _).trans (List.dropWhile_sublist _)
        have hyz : lt y z = false := (List.pairwise_cons.mp (hs.sublist hsub)).1 y ha
        have hxz := hweak x y z List.mem_cons_self (List.mem_cons_of_mem x hy)
          (List.mem_cons_of_mem x (hsub.subset List.mem_cons_self)) hxy hyz
        rw [hz] at hxz
        cases hxz

theorem WeakOn.mono {s u : α → Prop} (h : WeakOn lt u) (hsub : ∀ a, s a → u a) : WeakOn lt s :=
  fun a b c ha hb hc => h a b c (hsub a ha) (hsub b hb) (hsub c hc)

end Comparing
