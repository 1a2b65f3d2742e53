import Mathlib

/-! The bookkeeping of a depth-first search for strongly connected components: a stack of vertices,
their indexes in the order of the visits, and for each a lowest index known to be in reach. -/

namespace Components

open Relation

variable {V : Type} [DecidableEq V]

structure Search (V : Type) where
  stack : List V := []
  onStack : V → Bool := fun _ => false
  index : V → Option Nat := fun _ => none
  lowlink : V → Nat := fun _ => 0
  nextIndex : Nat := 0

namespace Search

def push (s : Search V) (v : V) : Search V where
  stack := v :: s.stack
  onStack := Function.update s.onStack v true
  index := Function.update s.index v (some s.nextIndex)
  lowlink := Function.update s.lowlink v s.nextIndex
  nextIndex := s.nextIndex + 1

def lower (s : Search V) (v : V) (low : Nat) : Search V :=
  { s with lowlink := Function.update s.lowlink v (min (s.lowlink v) low) }

def popUntil (v : V) : List V → List V × List V
  | [] => ([], [])
  | top :: rest =>
    if top = v then ([top], rest) else (top :: (popUntil v rest).1, (popUntil v rest).2)

def component (s : Search V) (v : V) : List V := (popUntil v s.stack).1

def pop (s : Search V) (v : V) : Search V :=
  { s with
    stack := (popUntil v s.stack).2
    onStack := fun u => s.onStack u && !(s.component v).contains u }

def Visited (s : Search V) (v : V) : Prop := (s.index v).isSome

def Popped (s : Search V) (v : V) : Prop := s.Visited v ∧ v ∉ s.stack

def idx (s : Search V) (v : V) : Nat := (s.index v).getD 0

@[simp] theorem lower_stack (s : Search V) (v : V) (low : Nat) : (s.lower v low).stack = s.stack := rfl

@[simp] theorem lower_idx (s : Search V) (v : V) (low : Nat) : (s.lower v low).idx = s.idx := rfl

@[simp] theorem pop_idx (s : Search V) (v : V) : (s.pop v).idx = s.idx := rfl

@[simp] theorem push_idx_self (s : Search V) (v : V) : (s.push v).idx v = s.nextIndex := by
  simp [push, idx]

theorem push_idx_ne (s : Search V) {v u : V} (h : u ≠ v) : (s.push v).idx u = s.idx u := by
  simp [push, idx, h]

theorem push_visited (s : Search V) (v u : V) : (s.push v).Visited u ↔ u = v ∨ s.Visited u := by
  unfold Visited push
  by_cases h : u = v
  · simp [h]
  · simp [h]

theorem push_popped (s : Search V) {v : V} (hv : ¬ s.Visited v) (u : V) :
    (s.push v).Popped u ↔ s.Popped u := by
  unfold Popped
  rw [push_visited]
  show (u = v ∨ s.Visited u) ∧ u ∉ v :: s.stack ↔ s.Visited u ∧ u ∉ s.stack
  rw [List.mem_cons, not_or]
  constructor
  · rintro ⟨heq | hvisited, hne, hnot⟩
    · exact absurd heq hne
    · exact ⟨hvisited, hnot⟩
  · rintro ⟨hvisited, hnot⟩
    exact ⟨.inr hvisited, fun heq => hv (heq ▸ hvisited), hnot⟩

theorem lower_lowlink_self (s : Search V) (v : V) (low : Nat) :
    (s.lower v low).lowlink v = min (s.lowlink v) low := by
  simp [lower]

theorem lower_lowlink_ne (s : Search V) {v u : V} (low : Nat) (h : u ≠ v) :
    (s.lower v low).lowlink u = s.lowlink u := by
  simp [lower, h]

theorem lower_le (s : Search V) (v u : V) (low : Nat) :
    (s.lower v low).lowlink u ≤ s.lowlink u := by
  by_cases h : u = v
  · rw [h, lower_lowlink_self]
    exact min_le_left _ _
  · rw [lower_lowlink_ne s low h]

theorem popUntil_append (v : V) {new rest : List V} (h : v ∉ new) :
    popUntil v (new ++ v :: rest) = (new ++ [v], rest) := by
  induction new with
  | nil => simp [popUntil]
  | cons top new ih =>
    have htop : top ≠ v := fun heq => h (heq ▸ List.mem_cons_self)
    rw [List.cons_append, popUntil, if_neg htop, ih fun hmem => h (List.mem_cons_of_mem top hmem)]
    rfl

end Search

/-- The search with the vertices `gray` that are in progress. Every other vertex on the stack has a
lower one in reach, and what was popped leads only to what was popped. -/
structure Inv (E : V → V → Prop) (s : Search V) (gray : List V) : Prop where
  onStack : ∀ v, s.onStack v = true ↔ v ∈ s.stack
  visited : ∀ v ∈ s.stack, s.Visited v
  bound : ∀ v, s.Visited v → s.idx v < s.nextIndex
  sorted : s.stack.Pairwise fun a b => s.idx b < s.idx a
  inProgress : ∀ g ∈ gray, g ∈ s.stack
  reach : ∀ v ∈ s.stack, s.lowlink v ≤ s.idx v ∧
    ∃ w ∈ s.stack, s.idx w = s.lowlink v ∧ ReflTransGen E v w
  descend : ∀ g ∈ gray, ∀ v ∈ s.stack, s.idx g ≤ s.idx v → ReflTransGen E g v
  finished : ∀ v ∈ s.stack, v ∉ gray → s.lowlink v < s.idx v ∧
    ∀ b, E v b → s.Visited b ∧ (b ∈ s.stack → s.lowlink v ≤ s.idx b)
  closed : ∀ v, s.Popped v → ∀ b, E v b → s.Popped b

namespace Inv

variable {E : V → V → Prop} {s : Search V} {gray : List V}

omit [DecidableEq V] in
theorem start {n : Nat} : Inv E ({ nextIndex := n } : Search V) [] where
  onStack v := by simp
  visited v hv := by cases hv
  bound v hv := by cases hv
  sorted := .nil
  inProgress g hg := by cases hg
  reach v hv := by cases hv
  descend g hg := by cases hg
  finished v hv := by cases hv
  closed v hv := by cases hv.1

omit [DecidableEq V] in
theorem later (h : Inv E s gray) {n : Nat} (hn : s.nextIndex ≤ n) :
    Inv E { s with nextIndex := n } gray where
  onStack := h.onStack
  visited := h.visited
  bound v hv := lt_of_lt_of_le (h.bound v hv) hn
  sorted := h.sorted
  inProgress := h.inProgress
  reach := h.reach
  descend := h.descend
  finished := h.finished
  closed := h.closed

theorem push (h : Inv E s gray) {v : V} (hv : ¬ s.Visited v)
    (hreach : ∀ g ∈ gray, ReflTransGen E g v) : Inv E (s.push v) (v :: gray) := by
  have hne : ∀ u ∈ s.stack, u ≠ v := fun u hu heq => hv (heq ▸ h.visited u hu)
  have hidx : ∀ u ∈ s.stack, (s.push v).idx u = s.idx u := fun u hu => s.push_idx_ne (hne u hu)
  have hlow : ∀ u ∈ s.stack, (s.push v).lowlink u = s.lowlink u := fun u hu =>
    Function.update_of_ne (hne u hu) _ _
  have hlt : ∀ u ∈ s.stack, s.idx u < s.nextIndex := fun u hu => h.bound u (h.visited u hu)
  constructor
  · intro u
    by_cases hu : u = v
    · simp [Search.push, hu]
    · simp [Search.push, hu, h.onStack u]
  · intro u hu
    rw [Search.push_visited]
    exact (List.mem_cons.mp hu).imp_right (h.visited u)
  · intro u hu
    show (s.push v).idx u < s.nextIndex + 1
    by_cases huv : u = v
    · rw [huv, Search.push_idx_self]
      omega
    · rw [Search.push_idx_ne s huv]
      have hbound := h.bound u (((Search.push_visited s v u).mp hu).resolve_left huv)
      omega
  · refine List.pairwise_cons.mpr ⟨fun u hu => ?_, h.sorted.imp_of_mem fun ha hb hab => ?_⟩
    · rw [hidx u hu, Search.push_idx_self]
      exact hlt u hu
    · rw [hidx _ ha, hidx _ hb]
      exact hab
  · intro g hg
    exact List.mem_cons.mpr ((List.mem_cons.mp hg).imp_right (h.inProgress g))
  · intro u hu
    rcases List.mem_cons.mp hu with rfl | hu
    · have hself : (s.push u).lowlink u = s.nextIndex := Function.update_self u _ _
      rw [hself, Search.push_idx_self]
      exact ⟨le_refl _, u, List.mem_cons_self, Search.push_idx_self s u, .refl⟩
    · obtain ⟨hle, w, hw, hwlow, huw⟩ := h.reach u hu
      rw [hidx u hu, hlow u hu]
      exact ⟨hle, w, List.mem_cons_of_mem v hw, (hidx w hw).trans hwlow, huw⟩
  · intro g hg u hu hle
    rcases List.mem_cons.mp hg with rfl | hprogress
    · rcases List.mem_cons.mp hu with rfl | hu
      · exact .refl
      · rw [hidx u hu, Search.push_idx_self] at hle
        have hbound := hlt u hu
        omega
    · rcases List.mem_cons.mp hu with rfl | hu
      · exact hreach g hprogress
      · rw [hidx u hu, hidx g (h.inProgress g hprogress)] at hle
        exact h.descend g hprogress u hu hle
  · intro u hu hgray
    have huv : u ≠ v := fun heq => hgray (heq ▸ List.mem_cons_self)
    have hmem := (List.mem_cons.mp hu).resolve_left huv
    obtain ⟨hlowlt, hedges⟩ := h.finished u hmem fun hg => hgray (List.mem_cons_of_mem v hg)
    rw [hidx u hmem, hlow u hmem]
    refine ⟨hlowlt, fun b hb => ?_⟩
    obtain ⟨hbvisited, hble⟩ := hedges b hb
    have hbv : b ≠ v := fun heq => hv (heq ▸ hbvisited)
    refine ⟨(Search.push_visited s v b).mpr (.inr hbvisited), fun hbstack => ?_⟩
    rw [Search.push_idx_ne s hbv]
    exact hble ((List.mem_cons.mp hbstack).resolve_left hbv)
  · rintro u ⟨huvisited, hu⟩ b hb
    have huv : u ≠ v := fun heq => hu (heq ▸ List.mem_cons_self)
    have hold : s.Popped u := ⟨((Search.push_visited s v u).mp huvisited).resolve_left huv,
      fun hmem => hu (List.mem_cons_of_mem v hmem)⟩
    obtain ⟨hbvisited, hbstack⟩ := h.closed u hold b hb
    have hbv : b ≠ v := fun heq => hv (heq ▸ hbvisited)
    exact ⟨(Search.push_visited s v b).mpr (.inr hbvisited),
      fun hmem => hbstack ((List.mem_cons.mp hmem).resolve_left hbv)⟩

theorem lower (h : Inv E s gray) {v : V} {low : Nat}
    (hlow : s.lowlink v ≤ low ∨ ∃ w ∈ s.stack, s.idx w = low ∧ ReflTransGen E v w) :
    Inv E (s.lower v low) gray := by
  have hle := fun u => s.lower_le v u low
  refine ⟨h.onStack, h.visited, h.bound, h.sorted, h.inProgress, fun u hu => ?_, h.descend,
    fun u hu hgray => ?_, h.closed⟩
  · obtain ⟨hreach, w, hw, hwlow, huw⟩ := h.reach u hu
    refine ⟨le_trans (hle u) hreach, ?_⟩
    by_cases huv : u = v
    · subst huv
      rw [Search.lower_lowlink_self]
      rcases hlow with hlow | ⟨x, hx, hxlow, hux⟩
      · rw [min_eq_left hlow]
        exact ⟨w, hw, hwlow, huw⟩
      · rcases min_choice (s.lowlink u) low with hmin | hmin
        · rw [hmin]
          exact ⟨w, hw, hwlow, huw⟩
        · rw [hmin]
          exact ⟨x, hx, hxlow, hux⟩
    · rw [Search.lower_lowlink_ne s low huv]
      exact ⟨w, hw, hwlow, huw⟩
  · obtain ⟨hlt, hedges⟩ := h.finished u hu hgray
    refine ⟨lt_of_le_of_lt (hle u) hlt, fun b hb => ?_⟩
    obtain ⟨hvisited, hidx⟩ := hedges b hb
    exact ⟨hvisited, fun hstack => le_trans (hle u) (hidx hstack)⟩

theorem finish {v : V} (h : Inv E s (v :: gray)) (hlt : s.lowlink v < s.idx v)
    (hedges : ∀ b, E v b → s.Visited b ∧ (b ∈ s.stack → s.lowlink v ≤ s.idx b)) :
    Inv E s gray where
  onStack := h.onStack
  visited := h.visited
  bound := h.bound
  sorted := h.sorted
  inProgress g hg := h.inProgress g (List.mem_cons_of_mem v hg)
  reach := h.reach
  descend g hg := h.descend g (List.mem_cons_of_mem v hg)
  finished u hu hgray := by
    by_cases huv : u = v
    · rw [huv]
      exact ⟨hlt, hedges⟩
    · apply h.finished u hu
      intro hmem
      rcases List.mem_cons.mp hmem with heq | hmem
      · exact huv heq
      · exact hgray hmem
  closed := h.closed

theorem reaches_top {v : V} (h : Inv E s (v :: gray)) (hgray : ∀ g ∈ gray, ReflTransGen E g v) :
    ∀ u ∈ s.stack, ReflTransGen E u v := by
  intro u hu
  generalize hn : s.idx u = n
  induction n using Nat.strong_induction_on generalizing u with
  | _ n ih =>
    by_cases hmem : u ∈ v :: gray
    · rcases List.mem_cons.mp hmem with rfl | hmem
      · exact .refl
      · exact hgray u hmem
    · obtain ⟨hlt, -⟩ := h.finished u hu hmem
      obtain ⟨-, w, hw, hwlow, huw⟩ := h.reach u hu
      exact huw.trans (ih (s.idx w) (by omega) w hw rfl)

/-- A vertex whose lowest index is its own is popped with all that is above it: a strongly connected
component, from which edges lead only to what was popped before. -/
theorem pop {v : V} {new rest : List V} (h : Inv E s (v :: gray))
    (hgray : ∀ g ∈ gray, ReflTransGen E g v ∧ g ∈ rest) (hstack : s.stack = new ++ v :: rest)
    (hlow : s.lowlink v = s.idx v) (hnew : ∀ u ∈ new, s.lowlink v ≤ s.lowlink u)
    (hedges : ∀ b, E v b → s.Visited b ∧ (b ∈ s.stack → s.lowlink v ≤ s.idx b)) :
    s.component v = new ++ [v] ∧ (s.pop v).stack = rest ∧ Inv E (s.pop v) gray ∧
      (∀ u, (s.pop v).Popped u ↔ u ∈ new ++ [v] ∨ s.Popped u) ∧
      (∀ a ∈ new ++ [v], ∀ b ∈ new ++ [v], ReflTransGen E a b) ∧
      ∀ a ∈ new ++ [v], ∀ b, E a b → b ∈ new ++ [v] ∨ s.Popped b := by
  have hsorted := h.sorted
  rw [hstack] at hsorted
  obtain ⟨-, htail, habove⟩ := List.pairwise_append.mp hsorted
  obtain ⟨hbelow, hrestsorted⟩ := List.pairwise_cons.mp htail
  have hvnew : v ∉ new := by
    intro hmem
    have hlt := habove v hmem v List.mem_cons_self
    omega
  have hpop : Search.popUntil v s.stack = (new ++ [v], rest) := by
    rw [hstack]
    exact Search.popUntil_append v hvnew
  have hcomponent : s.component v = new ++ [v] := congrArg Prod.fst hpop
  have hrest : (s.pop v).stack = rest := congrArg Prod.snd hpop
  have hmem : ∀ u, u ∈ s.stack ↔ u ∈ new ++ [v] ∨ u ∈ rest := by
    intro u
    rw [hstack]
    simp [or_assoc]
  have hhigh : ∀ u ∈ new ++ [v], s.idx v ≤ s.idx u := by
    intro u hu
    rcases List.mem_append.mp hu with hu | hu
    · exact le_of_lt (habove u hu v List.mem_cons_self)
    · rw [List.mem_singleton.mp hu]
  have hapart : ∀ u ∈ rest, u ∉ new ++ [v] := by
    intro u hu hcomp
    have hlt := hbelow u hu
    have hge := hhigh u hcomp
    omega
  have hup := h.reaches_top fun g hg => (hgray g hg).1
  have hdown : ∀ u ∈ new ++ [v], ReflTransGen E v u := fun u hu =>
    h.descend v List.mem_cons_self u ((hmem u).mpr (.inl hu)) (hhigh u hu)
  have hout : ∀ a ∈ new ++ [v], ∀ b, E a b → s.Visited b ∧ (b ∈ s.stack → s.idx v ≤ s.idx b) := by
    intro a ha b hb
    rcases List.mem_append.mp ha with hanew | ha
    · have hanotgray : a ∉ v :: gray := by
        intro hagray
        rcases List.mem_cons.mp hagray with rfl | hagray
        · exact hvnew hanew
        · exact hapart a (hgray a hagray).2 (List.mem_append_left _ hanew)
      obtain ⟨-, hfinished⟩ := h.finished a ((hmem a).mpr (.inl (List.mem_append_left _ hanew)))
        hanotgray
      obtain ⟨hvisited, hidx⟩ := hfinished b hb
      refine ⟨hvisited, fun hbstack => ?_⟩
      have hle := hidx hbstack
      have hlowa := hnew a hanew
      omega
    · rw [List.mem_singleton.mp ha] at hb
      obtain ⟨hvisited, hidx⟩ := hedges b hb
      exact ⟨hvisited, fun hbstack => hlow ▸ hidx hbstack⟩
  have hleave : ∀ a ∈ new ++ [v], ∀ b, E a b → b ∈ new ++ [v] ∨ s.Popped b := by
    intro a ha b hb
    obtain ⟨hvisited, hidx⟩ := hout a ha b hb
    by_cases hbstack : b ∈ s.stack
    · rcases (hmem b).mp hbstack with hcomp | hbrest
      · exact .inl hcomp
      · have hge := hidx hbstack
        have hlt := hbelow b hbrest
        omega
    · exact .inr ⟨hvisited, hbstack⟩
  have hpopped : ∀ u, (s.pop v).Popped u ↔ u ∈ new ++ [v] ∨ s.Popped u := by
    intro u
    unfold Search.Popped
    rw [hrest, hmem]
    constructor
    · rintro ⟨hvisited, hnot⟩
      by_cases hcomp : u ∈ new ++ [v]
      · exact .inl hcomp
      · exact .inr ⟨hvisited, fun hor => hor.elim hcomp hnot⟩
    · rintro (hcomp | ⟨hvisited, hnot⟩)
      · exact ⟨h.visited u ((hmem u).mpr (.inl hcomp)), fun hurest => hapart u hurest hcomp⟩
      · exact ⟨hvisited, fun hurest => hnot (.inr hurest)⟩
  refine ⟨hcomponent, hrest, ?_, hpopped, fun a ha b hb =>
    (hup a ((hmem a).mpr (.inl ha))).trans (hdown b hb), hleave⟩
  constructor
  · intro u
    show (s.onStack u && !(s.component v).contains u) = true ↔ u ∈ (s.pop v).stack
    rw [hrest, hcomponent, Bool.and_eq_true, h.onStack u, hmem, Bool.not_eq_true',
      ← Bool.not_eq_true, List.contains_iff_mem]
    constructor
    · rintro ⟨hor, hnot⟩
      exact hor.resolve_left hnot
    · exact fun hu => ⟨.inr hu, hapart u hu⟩
  · intro u hu
    rw [hrest] at hu
    exact h.visited u ((hmem u).mpr (.inr hu))
  · exact h.bound
  · rw [hrest]
    exact hrestsorted
  · intro g hg
    rw [hrest]
    exact (hgray g hg).2
  · intro u hu
    rw [hrest] at hu ⊢
    obtain ⟨hle, w, hw, hwlow, huw⟩ := h.reach u ((hmem u).mpr (.inr hu))
    refine ⟨hle, w, ?_, hwlow, huw⟩
    rcases (hmem w).mp hw with hcomp | hw
    · have hge := hhigh w hcomp
      have hlt := hbelow u hu
      omega
    · exact hw
  · intro g hg u hu hle
    rw [hrest] at hu
    exact h.descend g (List.mem_cons_of_mem v hg) u ((hmem u).mpr (.inr hu)) hle
  · intro u hu hnotgray
    rw [hrest] at hu ⊢
    have hnot : u ∉ v :: gray := by
      intro hmemu
      rcases List.mem_cons.mp hmemu with rfl | hmemu
      · exact hapart u hu (by simp)
      · exact hnotgray hmemu
    obtain ⟨hlt, hfinished⟩ := h.finished u ((hmem u).mpr (.inr hu)) hnot
    refine ⟨hlt, fun b hb => ?_⟩
    obtain ⟨hvisited, hidx⟩ := hfinished b hb
    exact ⟨hvisited, fun hbrest => hidx ((hmem b).mpr (.inr hbrest))⟩
  · intro u hu b hb
    rw [hpopped] at hu ⊢
    rcases hu with hcomp | hu
    · exact hleave u hcomp b hb
    · exact .inr (h.closed u hu b hb)

omit [DecidableEq V] in
theorem popped_star (h : Inv E s gray) {a b : V} (ha : s.Popped a) (hab : ReflTransGen E a b) :
    s.Popped b := by
  induction hab with
  | refl => exact ha
  | tail _ hedge ih => exact h.closed _ ih _ hedge

omit [DecidableEq V] in
theorem stack_nil (h : Inv E s []) : s.stack = [] := by
  have hnone : ∀ n, ∀ v ∈ s.stack, s.idx v ≠ n := by
    intro n
    induction n using Nat.strong_induction_on with
    | _ n ih =>
      intro v hv heq
      obtain ⟨hlt, -⟩ := h.finished v hv List.not_mem_nil
      obtain ⟨-, w, hw, hwlow, -⟩ := h.reach v hv
      exact ih (s.idx w) (by omega) w hw rfl
  rw [List.eq_nil_iff_forall_not_mem]
  exact fun v hv => hnone (s.idx v) v hv rfl

end Inv

/-- What a finished search from `v` adds to the search `s`. -/
structure Searched (E : V → V → Prop) (gray : List V) (s : Search V) (v : V) (t : Search V) :
    Prop where
  inv : Inv E t gray
  visited : t.Visited v
  grows : ∀ u, s.Visited u → t.Visited u ∧ t.idx u = s.idx u
  older : ∀ u ∈ s.stack, t.lowlink u = s.lowlink u
  stack : ∃ new, t.stack = new ++ s.stack ∧ ∀ u ∈ new, t.lowlink v ≤ t.lowlink u
  gone : v ∉ t.stack → s.nextIndex ≤ t.lowlink v
  nextIndex : s.nextIndex ≤ t.nextIndex

/-- The search from `v` begun at `s`, with the successors `left` still to be looked at. -/
structure Searching (E : V → V → Prop) (gray : List V) (s : Search V) (v : V) (left : List V)
    (t : Search V) : Prop where
  inv : Inv E t (v :: gray)
  visited : t.Visited v
  grows : ∀ u, s.Visited u → t.Visited u ∧ t.idx u = s.idx u
  self : t.idx v = s.nextIndex
  older : ∀ u ∈ s.stack, t.lowlink u = s.lowlink u
  stack : ∃ new, t.stack = new ++ v :: s.stack ∧ ∀ u ∈ new, t.lowlink v ≤ t.lowlink u
  nextIndex : s.nextIndex < t.nextIndex
  edges : ∀ b, E v b → b ∉ left → t.Visited b ∧ (b ∈ t.stack → t.lowlink v ≤ t.idx b)

namespace Searching

variable {E : V → V → Prop} {s t u : Search V} {gray left : List V} {v p : V}

theorem start (hinv : Inv E s gray) (hgray : ∀ g ∈ gray, ReflTransGen E g v)
    (hv : ¬ s.Visited v) (hleft : ∀ b, E v b → b ∈ left) :
    Searching E gray s v left (s.push v) := by
  have hne : ∀ u, s.Visited u → u ≠ v := fun u hu heq => hv (heq ▸ hu)
  constructor
  · exact hinv.push hv hgray
  · exact (s.push_visited v v).mpr (.inl rfl)
  · intro u hu
    exact ⟨(s.push_visited v u).mpr (.inr hu), s.push_idx_ne (hne u hu)⟩
  · exact s.push_idx_self v
  · intro u hu
    exact Function.update_of_ne (hne u (hinv.visited u hu)) _ _
  · exact ⟨[], rfl, fun u hu => absurd hu List.not_mem_nil⟩
  · exact Nat.lt_succ_self _
  · intro b hb hnot
    exact absurd (hleft b hb) hnot

omit [DecidableEq V] in
theorem skip (h : Searching E gray s v (p :: left) t)
    (hp : t.Visited p ∧ (p ∈ t.stack → t.lowlink v ≤ t.idx p)) :
    Searching E gray s v left t where
  inv := h.inv
  visited := h.visited
  grows := h.grows
  self := h.self
  older := h.older
  stack := h.stack
  nextIndex := h.nextIndex
  edges b hb hnot := by
    by_cases hbp : b = p
    · rw [hbp]
      exact hp
    · apply h.edges b hb
      intro hmem
      rcases List.mem_cons.mp hmem with heq | hmem
      · exact hbp heq
      · exact hnot hmem

theorem lower (h : Searching E gray s v left t) (hv : ¬ s.Visited v)
    (hstack : ∀ u ∈ s.stack, s.Visited u) {low : Nat}
    (hlow : t.lowlink v ≤ low ∨ ∃ w ∈ t.stack, t.idx w = low ∧ ReflTransGen E v w) :
    Searching E gray s v left (t.lower v low) where
  inv := h.inv.lower hlow
  visited := h.visited
  grows := h.grows
  self := h.self
  older u hu := by
    have hne : u ≠ v := fun heq => hv (heq ▸ hstack u hu)
    rw [Search.lower_lowlink_ne _ _ hne]
    exact h.older u hu
  stack := by
    obtain ⟨new, heq, hnew⟩ := h.stack
    refine ⟨new, heq, fun u hu => ?_⟩
    by_cases huv : u = v
    · rw [huv]
    · rw [Search.lower_lowlink_ne _ _ huv]
      exact le_trans (t.lower_le v v low) (hnew u hu)
  nextIndex := h.nextIndex
  edges b hb hnot := by
    obtain ⟨hvisited, hle⟩ := h.edges b hb hnot
    exact ⟨hvisited, fun hmem => le_trans (t.lower_le v v low) (hle hmem)⟩

theorem learn (h : Searching E gray s v (p :: left) t) (hv : ¬ s.Visited v)
    (hstack : ∀ u ∈ s.stack, s.Visited u) (hedge : E v p) (hp : p ∈ t.stack) :
    Searching E gray s v left (t.lower v (t.idx p)) := by
  have hlower := h.lower hv hstack (.inr ⟨p, hp, rfl, .single hedge⟩)
  apply hlower.skip
  refine ⟨h.inv.visited p hp, fun _ => ?_⟩
  rw [Search.lower_lowlink_self]
  exact min_le_right _ _

/-- `v` learns of the lowest index of a successor that was searched. -/
theorem connect (h : Searching E gray s v (p :: left) t) (hpost : Searched E (v :: gray) t p u)
    (hedge : E v p) (hv : ¬ s.Visited v) (hstack : ∀ u ∈ s.stack, s.Visited u) :
    Searching E gray s v left (u.lower v (u.lowlink p)) := by
  obtain ⟨new, hold, hnew⟩ := h.stack
  obtain ⟨new', hnow, hnew'⟩ := hpost.stack
  have hmemt : v ∈ t.stack := h.inv.inProgress v List.mem_cons_self
  have hself : u.idx v = s.nextIndex := (hpost.grows v h.visited).2.trans h.self
  have hlep : (u.lower v (u.lowlink p)).lowlink v ≤ u.lowlink p := by
    rw [Search.lower_lowlink_self]
    exact min_le_right _ _
  have hlev : (u.lower v (u.lowlink p)).lowlink v ≤ t.lowlink v := by
    rw [← hpost.older v hmemt]
    exact u.lower_le v v _
  constructor
  · apply hpost.inv.lower
    by_cases hp : p ∈ u.stack
    · obtain ⟨-, w, hw, hwlow, hreach⟩ := hpost.inv.reach p hp
      exact .inr ⟨w, hw, hwlow, .head hedge hreach⟩
    · have hgone := hpost.gone hp
      have hlt := h.nextIndex
      have hle := (hpost.inv.reach v (hpost.inv.inProgress v List.mem_cons_self)).1
      exact .inl (by omega)
  · exact (hpost.grows v h.visited).1
  · intro w hw
    obtain ⟨hvisited, hidx⟩ := h.grows w hw
    obtain ⟨hvisited', hidx'⟩ := hpost.grows w hvisited
    exact ⟨hvisited', hidx'.trans hidx⟩
  · exact hself
  · intro w hw
    have hne : w ≠ v := fun heq => hv (heq ▸ hstack w hw)
    have hmem : w ∈ t.stack := by
      rw [hold]
      exact List.mem_append_right _ (List.mem_cons_of_mem v hw)
    rw [Search.lower_lowlink_ne _ _ hne, hpost.older w hmem]
    exact h.older w hw
  · refine ⟨new' ++ new, ?_, fun w hw => ?_⟩
    · rw [Search.lower_stack, hnow, hold, List.append_assoc]
    · by_cases hwv : w = v
      · rw [hwv]
      · rw [Search.lower_lowlink_ne _ _ hwv]
        rcases List.mem_append.mp hw with hw | hw
        · exact le_trans hlep (hnew' w hw)
        · have hmem : w ∈ t.stack := by
            rw [hold]
            exact List.mem_append_left _ hw
          rw [hpost.older w hmem]
          exact le_trans hlev (hnew w hw)
  · exact lt_of_lt_of_le h.nextIndex hpost.nextIndex
  · intro b hb hnot
    -- above what was on the stack, indexes are higher than that of `v`
    by_cases hbp : b = p
    · rw [hbp]
      exact ⟨hpost.visited, fun hmem => le_trans hlep (hpost.inv.reach p hmem).1⟩
    · have hnot' : b ∉ p :: left := by
        intro hmem
        rcases List.mem_cons.mp hmem with heq | hmem
        · exact hbp heq
        · exact hnot hmem
      obtain ⟨hvisited, hidx⟩ := h.edges b hb hnot'
      obtain ⟨hvisited', hsame⟩ := hpost.grows b hvisited
      refine ⟨hvisited', fun hmem => ?_⟩
      rw [Search.lower_idx]
      rw [Search.lower_stack, hnow] at hmem
      rcases List.mem_append.mp hmem with hmem | hmem
      · have hsorted := hpost.inv.sorted
        rw [hnow] at hsorted
        have hlt := (List.pairwise_append.mp hsorted).2.2 b hmem v hmemt
        have hle := (h.inv.reach v hmemt).1
        have hsamev := (hpost.grows v h.visited).2
        omega
      · have hle := hidx hmem
        omega

theorem finish (h : Searching E gray s v [] t) (hne : t.lowlink v ≠ t.idx v) :
    Searched E gray s v t := by
  obtain ⟨new, hstack, hnew⟩ := h.stack
  have hmem : v ∈ t.stack := h.inv.inProgress v List.mem_cons_self
  have hless := lt_of_le_of_ne (h.inv.reach v hmem).1 hne
  constructor
  · exact h.inv.finish hless fun b hb => h.edges b hb List.not_mem_nil
  · exact h.visited
  · exact h.grows
  · exact h.older
  · refine ⟨new ++ [v], by rw [hstack, List.append_assoc]; rfl, fun w hw => ?_⟩
    rcases List.mem_append.mp hw with hw | hw
    · exact hnew w hw
    · rw [List.mem_singleton.mp hw]
  · exact fun hnot => absurd hmem hnot
  · exact le_of_lt h.nextIndex

/-- The root of a component is popped with it. What is mutually in reach of a member is a member. -/
theorem pop (h : Searching E gray s v [] t) (hinv : Inv E s gray)
    (hgray : ∀ g ∈ gray, ReflTransGen E g v) (hroot : t.lowlink v = t.idx v) :
    Searched E gray s v (t.pop v) ∧ v ∈ t.component v ∧ (t.component v).Nodup ∧
      (∀ u ∈ t.component v, u ∈ t.stack) ∧
      (∀ u, (t.pop v).Popped u ↔ u ∈ t.component v ∨ t.Popped u) ∧
      ∀ a ∈ t.component v, ∀ b,
        b ∈ t.component v ↔ ReflTransGen E a b ∧ ReflTransGen E b a := by
  obtain ⟨new, hstack, hnew⟩ := h.stack
  obtain ⟨hcomponent, hrest, hpop, hpopped, hscc, hleave⟩ :=
    h.inv.pop (fun g hg => ⟨hgray g hg, hinv.inProgress g hg⟩) hstack hroot hnew
      fun b hb => h.edges b hb List.not_mem_nil
  have hmem : ∀ u ∈ new ++ [v], u ∈ t.stack := by
    intro u hu
    rw [hstack, List.append_cons]
    exact List.mem_append_left _ hu
  have hnodup : (new ++ [v]).Nodup := by
    have hsorted := h.inv.sorted
    rw [hstack, ← List.singleton_append, ← List.append_assoc] at hsorted
    apply (List.pairwise_append.mp hsorted).1.imp
    intro a b hlt heq
    rw [heq] at hlt
    omega
  rw [hcomponent]
  refine ⟨?_, by simp, hnodup, hmem, hpopped, ?_⟩
  · constructor
    · exact hpop
    · exact h.visited
    · exact h.grows
    · exact h.older
    · rw [hrest]
      exact ⟨[], rfl, fun w hw => absurd hw List.not_mem_nil⟩
    · intro _
      show s.nextIndex ≤ t.lowlink v
      rw [hroot, h.self]
    · exact le_of_lt h.nextIndex
  · intro a ha b
    constructor
    · exact fun hb => ⟨hscc a ha b hb, hscc b hb a ha⟩
    · rintro ⟨hab, hba⟩
      have hstar : ∀ {c}, ReflTransGen E a c → c ∈ new ++ [v] ∨ t.Popped c := by
        intro c hac
        induction hac with
        | refl => exact .inl ha
        | tail _ hedge ih =>
          rcases ih with hin | hold
          · exact hleave _ hin _ hedge
          · exact .inr (h.inv.closed _ hold _ hedge)
      rcases hstar hab with hin | hold
      · exact hin
      · exact absurd (hmem a ha) (h.inv.popped_star hold hba).2

end Searching

end Components
