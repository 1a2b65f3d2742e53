import Jetpack.Rcc.Graph

/-! The recursive search gives every vertex in reach the component of the vertices that are mutually
in reach with it, and the search with its own stack does the same. -/

namespace Jetpack.Rcc

open Components Relation

variable {V : Type} [LinearOrder V] {deps : Deps V} {rank : Rank}

def Deps.Reach (deps : Deps V) (rank : Rank) : V → V → Prop := ReflTransGen (deps.Edge rank)

def Deps.Mutual (deps : Deps V) (rank : Rank) (v w : V) : Prop :=
  deps.Reach rank v w ∧ deps.Reach rank w v

namespace Dfs

/-- A vertex that was popped shares the sorted vector of its component, and no other has one. -/
structure Good (deps : Deps V) (rank : Rank) (s : Dfs V) : Prop where
  owner : ∀ v, s.Popped v → s.Popped (s.scc v)
  sorted : ∀ v, s.Popped v → (s.sccOf v).Pairwise (· < ·)
  members : ∀ v, s.Popped v → ∀ w, w ∈ s.sccOf v ↔ deps.Mutual rank v w
  shared : ∀ v, s.Popped v → ∀ w, deps.Mutual rank v w → s.scc w = s.scc v
  fresh : ∀ v, ¬ s.Popped v → s.scc v = v ∧ s.vectors v = []

namespace Good

variable {s t : Dfs V} {v : V}

theorem of_popped (h : Good deps rank s) (hscc : t.scc = s.scc) (hvectors : t.vectors = s.vectors)
    (hpopped : ∀ v, t.Popped v ↔ s.Popped v) : Good deps rank t := by
  have hof : t.sccOf = s.sccOf := by
    funext v
    rw [sccOf, hscc, hvectors]
    rfl
  constructor
  · intro v hv
    rw [hpopped, hscc]
    exact h.owner v ((hpopped v).mp hv)
  · rw [hof]
    exact fun v hv => h.sorted v ((hpopped v).mp hv)
  · rw [hof]
    exact fun v hv => h.members v ((hpopped v).mp hv)
  · rw [hscc]
    exact fun v hv => h.shared v ((hpopped v).mp hv)
  · rw [hscc, hvectors]
    exact fun v hv => h.fresh v (fun hp => hv ((hpopped v).mpr hp))

theorem sccOf_eq_nil (h : Good deps rank s) (v : V) : s.sccOf v = [] ↔ ¬ s.Popped v := by
  constructor
  · intro hnil hv
    have hself := (h.members v hv v).mpr ⟨.refl, .refl⟩
    rw [hnil] at hself
    cases hself
  · intro hv
    obtain ⟨hscc, hvectors⟩ := h.fresh v hv
    rw [sccOf, hscc, hvectors]

theorem push (h : Good deps rank s) (hv : ¬ s.Visited v) :
    Good deps rank { s with toSearch := s.push v } :=
  h.of_popped rfl rfl (s.push_popped hv)

theorem lower (h : Good deps rank s) (v : V) (low : Nat) :
    Good deps rank { s with toSearch := s.lower v low } :=
  h.of_popped rfl rfl fun _ => Iff.rfl

theorem findOrCreate (h : Good deps rank s) (v : V) : Good deps rank (s.findOrCreate v) :=
  h.of_popped rfl rfl fun _ => Iff.rfl

end Good

theorem complete_spec {s t : Dfs V} {v : V} {gray : List V} (hgood : Good deps rank t)
    (hinv : Inv (deps.Edge rank) s.toSearch gray) (hgray : ∀ g ∈ gray, deps.Reach rank g v)
    (h : Searching (deps.Edge rank) gray s.toSearch v [] t.toSearch) :
    ∃ u, complete v t = some u ∧ Good deps rank u ∧
      Searched (deps.Edge rank) gray s.toSearch v u.toSearch := by
  by_cases hroot : t.lowlink v = t.idx v
  · obtain ⟨hpost, hself, hnodup, hstack, hpopped, hmutual⟩ := h.pop hinv hgray hroot
    have hv : ¬ t.Popped v := fun hv => hv.2 (h.inv.inProgress v List.mem_cons_self)
    have hnone : ∀ w ∈ t.component v, ¬ t.Popped w := fun w hw hp => hp.2 (hstack w hw)
    have howner := (hgood.fresh v hv).1
    have hnil := (hgood.sccOf_eq_nil v).mpr hv
    refine ⟨_, by rw [complete, if_pos hroot, hnil], ?_, hpost⟩
    set comp := t.component v with hcomp
    set u : Dfs V := { t with
      toSearch := t.pop v
      vectors := Function.update t.vectors (t.scc v) (comp.insertionSort (· ≤ ·))
      scc := fun w => if comp.contains w then t.scc v else t.scc w } with hu
    have hin : ∀ w ∈ comp, u.scc w = v := by
      intro w hw
      show (if comp.contains w then t.scc v else t.scc w) = v
      rw [if_pos (List.contains_iff_mem.mpr hw), howner]
    have hout : ∀ w, w ∉ comp → u.scc w = t.scc w := by
      intro w hw
      show (if comp.contains w then t.scc v else t.scc w) = t.scc w
      rw [if_neg fun hc => hw (List.contains_iff_mem.mp hc)]
    have hvectors : u.vectors v = comp.insertionSort (· ≤ ·) := by
      show Function.update t.vectors (t.scc v) _ v = _
      rw [howner, Function.update_self]
    have hkept : ∀ w, w ≠ v → u.vectors w = t.vectors w := by
      intro w hw
      show Function.update t.vectors (t.scc v) _ w = _
      rw [howner, Function.update_of_ne hw]
    have hnew : ∀ w ∈ comp, u.sccOf w = comp.insertionSort (· ≤ ·) := by
      intro w hw
      rw [sccOf, hin w hw, hvectors]
    -- an older component keeps its vector
    have hold : ∀ w, t.Popped w → u.scc w = t.scc w ∧ u.sccOf w = t.sccOf w := by
      intro w hw
      have hnot : w ∉ comp := fun hc => hnone w hc hw
      have hne : t.scc w ≠ v := fun heq => hv (heq ▸ hgood.owner w hw)
      refine ⟨hout w hnot, ?_⟩
      rw [sccOf, sccOf, hout w hnot, hkept _ hne]
    constructor
    · intro w hw
      rcases (hpopped w).mp hw with hw | hw
      · rw [hin w hw]
        exact (hpopped v).mpr (.inl hself)
      · rw [(hold w hw).1]
        exact (hpopped _).mpr (.inr (hgood.owner w hw))
    · intro w hw
      rcases (hpopped w).mp hw with hw | hw
      · rw [hnew w hw]
        have hle := comp.pairwise_insertionSort (· ≤ ·)
        have hdistinct : (comp.insertionSort (· ≤ ·)).Pairwise (· ≠ ·) :=
          (comp.perm_insertionSort (· ≤ ·)).nodup_iff.mpr hnodup
        exact hle.imp₂ (fun a b hab hne => lt_of_le_of_ne hab hne) hdistinct
      · rw [(hold w hw).2]
        exact hgood.sorted w hw
    · intro w hw x
      rcases (hpopped w).mp hw with hw | hw
      · rw [hnew w hw, List.mem_insertionSort]
        exact hmutual w hw x
      · rw [(hold w hw).2]
        exact hgood.members w hw x
    · intro w hw x hx
      rcases (hpopped w).mp hw with hw | hw
      · rw [hin w hw, hin x ((hmutual w hw x).mpr hx)]
      · have hxpopped := h.inv.popped_star hw hx.1
        rw [(hold w hw).1, (hold x hxpopped).1]
        exact hgood.shared w hw x hx
    · intro w hw
      have hnot := (not_congr (hpopped w)).mp hw
      obtain ⟨hnotin, hnotpopped⟩ := not_or.mp hnot
      have hne : w ≠ v := fun heq => hnotin (heq ▸ hself)
      rw [hout w hnotin, hkept w hne]
      exact hgood.fresh w hnotpopped
  · exact ⟨t, by rw [complete, if_neg hroot], hgood, h.finish hroot⟩

def unvisited (U : Finset V) (s : Dfs V) : Nat := (U.filter fun v => s.index v = none).card

omit [LinearOrder V] in
theorem unvisited_le (U : Finset V) {s t : Dfs V} (h : ∀ v, s.Visited v → t.Visited v) :
    unvisited U t ≤ unvisited U s := by
  apply Finset.card_le_card
  intro v hv
  rw [Finset.mem_filter] at hv ⊢
  refine ⟨hv.1, ?_⟩
  by_contra hsome
  have hvisited := h v (Option.isSome_iff_ne_none.mpr hsome)
  rw [Search.Visited, hv.2] at hvisited
  cases hvisited

theorem unvisited_push {U : Finset V} {s : Dfs V} {v : V} (hU : v ∈ U) (hv : s.index v = none) :
    unvisited U { s with toSearch := s.push v } < unvisited U s := by
  apply Finset.card_lt_card
  rw [Finset.ssubset_iff_of_subset]
  · refine ⟨v, Finset.mem_filter.mpr ⟨hU, hv⟩, ?_⟩
    rw [Finset.mem_filter]
    rintro ⟨-, hnone⟩
    simp [Search.push] at hnone
  · intro w hw
    rw [Finset.mem_filter] at hw ⊢
    refine ⟨hw.1, ?_⟩
    by_cases hwv : w = v
    · rw [hwv, hv]
    · simpa [Search.push, hwv] using hw.2

/-- What a search that is deep enough for the vertices left does. -/
def Connects (deps : Deps V) (rank : Rank) (U : Finset V) (fuel : Nat)
    (connect : V → Dfs V → Option (Dfs V)) : Prop :=
  ∀ s v gray, Good deps rank s → Inv (deps.Edge rank) s.toSearch gray →
    (∀ g ∈ gray, deps.Reach rank g v) → v ∈ U → s.index v = none → unvisited U s ≤ fuel →
    ∃ t, connect v s = some t ∧ Good deps rank t ∧
      Searched (deps.Edge rank) gray s.toSearch v t.toSearch

variable {U : Finset V} {fuel : Nat}

theorem scanParents_spec {connect : V → Dfs V → Option (Dfs V)}
    (hconnect : Connects deps rank U fuel connect)
    (hU : ∀ v ∈ U, ∀ w ∈ deps.parents rank v, w ∈ U) {gray : List V} {s t : Dfs V} {v : V}
    {ps : List V} (hps : ∀ p ∈ ps, p ∈ deps.parents rank v) (hvU : v ∈ U)
    (hinv : Inv (deps.Edge rank) s.toSearch gray) (hgray : ∀ g ∈ gray, deps.Reach rank g v)
    (hv : ¬ s.Visited v) (hfuel : unvisited U t ≤ fuel) (hgood : Good deps rank t)
    (h : Searching (deps.Edge rank) gray s.toSearch v ps t.toSearch) :
    ∃ u, scanParents connect v ps t = some u ∧ Good deps rank u ∧
      Searching (deps.Edge rank) gray s.toSearch v [] u.toSearch := by
  induction ps generalizing t with
  | nil => exact ⟨t, rfl, hgood, h⟩
  | cons p ps ih =>
    have hedge : deps.Edge rank v p := hps p List.mem_cons_self
    have hrest : ∀ p ∈ ps, p ∈ deps.parents rank v :=
      fun q hq => hps q (List.mem_cons_of_mem p hq)
    have hgood' := hgood.findOrCreate p
    rw [scanParents]
    by_cases hnil : (t.findOrCreate p).sccOf p = []
    · have hnot : ¬ t.Popped p := (hgood'.sccOf_eq_nil p).mp hnil
      simp only [ne_eq, hnil, not_true_eq_false, if_false]
      cases hindex : (t.findOrCreate p).index p with
      | none =>
        have hpath : ∀ g ∈ v :: gray, deps.Reach rank g p := by
          intro g hg
          rcases List.mem_cons.mp hg with rfl | hg
          · exact .single hedge
          · exact (hgray g hg).tail hedge
        obtain ⟨u, hcall, hgoodu, hpost⟩ := hconnect (t.findOrCreate p) p (v :: gray) hgood' h.inv
          hpath (hU v hvU p hedge) hindex hfuel
        simp only [hcall, Option.bind_some]
        apply ih hrest
        · exact le_trans (unvisited_le U fun w hw => (hpost.grows w hw).1) hfuel
        · exact hgoodu.lower v _
        · exact h.connect hpost hedge hv hinv.visited
      | some i =>
        have hvisited : t.Visited p := by
          show (t.index p).isSome = true
          rw [show t.index p = some i from hindex]
          rfl
        have hmem : p ∈ t.stack := by
          by_contra hout
          exact hnot ⟨hvisited, hout⟩
        have hidx : t.idx p = i := by
          show (t.index p).getD 0 = i
          rw [show t.index p = some i from hindex]
          rfl
        have hon : (t.findOrCreate p).onStack p = true := (h.inv.onStack p).mpr hmem
        simp only [hon, if_true]
        refine ih hrest ?_ ?_ ?_
        · exact hfuel
        · exact hgood'.lower v i
        · exact hidx ▸ h.learn hv hinv.visited hedge hmem
    · have hpopped : t.Popped p := by
        by_contra hnot
        exact hnil ((hgood'.sccOf_eq_nil p).mpr hnot)
      simp only [ne_eq, hnil, not_false_eq_true, if_true]
      refine ih hrest ?_ hgood' ?_
      · exact hfuel
      · exact h.skip ⟨hpopped.1, fun hmem => absurd hmem hpopped.2⟩

theorem strongConnectPred_spec (hU : ∀ v ∈ U, ∀ w ∈ deps.parents rank v, w ∈ U) (fuel : Nat) :
    Connects deps rank U fuel (strongConnectPred deps rank fuel) := by
  induction fuel with
  | zero =>
    intro s v gray hgood hinv hgray hvU hindex hfuel
    have hlt := unvisited_push hvU hindex
    omega
  | succ fuel ih =>
    intro s v gray hgood hinv hgray hvU hindex hfuel
    have hlt := unvisited_push hvU hindex
    have hv : ¬ s.Visited v := by
      rw [Search.Visited, hindex]
      exact Bool.false_ne_true
    have hstart : Searching (deps.Edge rank) gray s.toSearch v (deps.parents rank v) (s.push v) :=
      Searching.start hinv hgray hv fun b hb => hb
    obtain ⟨t, hscan, hgoodt, hsearching⟩ := scanParents_spec ih hU (fun p hp => hp) hvU hinv hgray
      hv (by omega) (hgood.push hv) hstart
    obtain ⟨u, hcomplete, hgoodu, hpost⟩ := complete_spec hgoodt hinv hgray hsearching
    refine ⟨u, ?_, hgoodu, hpost⟩
    rw [strongConnectPred]
    simp only [hindex, hscan, Option.bind_some, hcomplete]

section Simulation

theorem loop_cons (fuel : Nat) (v : V) (i : Nat) (rest : List (V × Nat)) (s : Dfs V) :
    loop deps rank (fuel + 1) ((v, i) :: rest) s =
      (turn deps rank v i rest s).bind fun x => loop deps rank fuel x.1 x.2 := rfl

theorem loop_nil (fuel : Nat) (s : Dfs V) : loop deps rank fuel [] s = some ([], s) := by
  cases fuel <;> rfl

theorem loop_more {fuel : Nat} {stack : List (V × Nat)} {s : Dfs V} {x : List (V × Nat) × Dfs V}
    (h : loop deps rank fuel stack s = some x) (more : Nat) :
    loop deps rank (fuel + more) stack s = some x := by
  induction fuel generalizing stack s with
  | zero =>
    cases stack with
    | nil =>
      rw [loop_nil] at h ⊢
      exact h
    | cons top rest => cases h
  | succ fuel ih =>
    cases stack with
    | nil =>
      rw [loop_nil] at h ⊢
      exact h
    | cons top rest =>
      obtain ⟨v, i⟩ := top
      rw [loop_cons] at h
      obtain ⟨y, hy, h⟩ := Option.bind_eq_some_iff.mp h
      rw [Nat.add_right_comm, loop_cons, hy, Option.bind_some]
      exact ih h

/-- The loop gets from the one search stack to the other. -/
def Leads (deps : Deps V) (rank : Rank) (x y : List (V × Nat) × Dfs V) : Prop :=
  ∃ k, ∀ n, loop deps rank (k + n) x.1 x.2 = loop deps rank n y.1 y.2

/-- Resuming at a parent, the loop does what is left of the recursive loop over the parents. -/
theorem scanParents_leads {connect : V → Dfs V → Option (Dfs V)}
    (hconnect : ∀ w s t rest, connect w s = some t →
      Leads deps rank ((w, 0) :: rest, s) (rest, passDown w rest t))
    {v : V} {rest : List (V × Nat)} {t : Dfs V} {ps : List V} {i : Nat} {s u : Dfs V}
    (hps : (deps.parents rank v).drop i = ps) (hscan : scanParents connect v ps s = some u)
    (hcomplete : complete v u = some t) :
    ∃ k, ∀ n, ((resume deps rank v i rest s).bind fun x => loop deps rank (k + n) x.1 x.2) =
      loop deps rank n rest (passDown v rest t) := by
  induction ps generalizing i s with
  | nil =>
    obtain rfl := Option.some.inj hscan
    refine ⟨0, fun n => ?_⟩
    rw [resume, hps, scanFrom]
    simp only [hcomplete, Option.map_some, Option.bind_some, Nat.zero_add]
  | cons p ps ih =>
    have hnext : (deps.parents rank v).drop (i + 1) = ps := by
      rw [← List.tail_drop, hps, List.tail_cons]
    rw [scanParents] at hscan
    by_cases hnil : (s.findOrCreate p).sccOf p = []
    · simp only [ne_eq, hnil, not_true_eq_false, if_false] at hscan
      cases hindex : (s.findOrCreate p).index p with
      | none =>
        simp only [hindex] at hscan
        obtain ⟨s₂, hcall, hscan⟩ := Option.bind_eq_some_iff.mp hscan
        obtain ⟨k₁, h₁⟩ := hconnect p _ s₂ ((v, i + 1) :: rest) hcall
        obtain ⟨k₂, h₂⟩ := ih hnext hscan
        refine ⟨k₁ + (k₂ + 1), fun n => ?_⟩
        have hresume : resume deps rank v i rest s =
            some ((p, 0) :: (v, i + 1) :: rest, s.findOrCreate p) := by
          rw [resume, hps, scanFrom]
          simp only [ne_eq, hnil, not_true_eq_false, if_false, hindex]
        have hfuel : k₁ + (k₂ + 1) + n = k₁ + (k₂ + n + 1) := by omega
        rw [hresume, Option.bind_some, hfuel, h₁, loop_cons, turn, if_neg (Nat.succ_ne_zero i)]
        exact h₂ n
      | some j =>
        simp only [hindex] at hscan
        obtain ⟨k, h⟩ := ih hnext hscan
        refine ⟨k, fun n => ?_⟩
        rw [← h n, resume, resume, hps, hnext, scanFrom]
        simp only [ne_eq, hnil, not_true_eq_false, if_false, hindex]
    · simp only [ne_eq, hnil, not_false_eq_true, if_true] at hscan
      obtain ⟨k, h⟩ := ih hnext hscan
      refine ⟨k, fun n => ?_⟩
      rw [← h n, resume, resume, hps, hnext, scanFrom]
      simp only [ne_eq, hnil, not_false_eq_true, if_true]

/-- The loop with its own stack does what the recursive search does. -/
theorem strongConnectPred_leads (fuel : Nat) : ∀ v s t rest,
    strongConnectPred deps rank fuel v s = some t →
      Leads deps rank ((v, 0) :: rest, s) (rest, passDown v rest t) := by
  induction fuel with
  | zero =>
    intro v s t rest h
    cases h
  | succ fuel ih =>
    intro v s t rest h
    rw [strongConnectPred] at h
    cases hindex : s.index v with
    | some i =>
      rw [hindex] at h
      cases h
    | none =>
      rw [hindex] at h
      obtain ⟨u, hscan, hcomplete⟩ := Option.bind_eq_some_iff.mp h
      have hall : (deps.parents rank v).drop 0 = deps.parents rank v := rfl
      obtain ⟨k, hk⟩ := scanParents_leads ih hall hscan hcomplete
      refine ⟨k + 1, fun n => ?_⟩
      have hfuel : k + 1 + n = k + n + 1 := by omega
      rw [hfuel, loop_cons, turn, if_pos rfl, hindex]
      exact hk n

end Simulation

end Dfs

structure Graph.Idle (deps : Deps V) (g : Graph V) : Prop where
  searchStack : g.searchStack = []
  good : ∀ rank, Dfs.Good deps rank (g.load rank)
  inv : ∀ rank, Inv (deps.Edge rank) (g.load rank).toSearch []

inductive Graph.Reached (deps : Deps V) : Graph V → Prop
  | start : Reached deps { vertexIndex := deps.vertices }
  | call {g g' : Graph V} {fuel : Nat} {v : V} {rank : Rank} {l : List V} : Reached deps g →
      g.findSccPred deps fuel v rank = some (l, g') → Reached deps g'

/-- The component of a vertex, as all its members have it. -/
structure Graph.Computed (deps : Deps V) (g : Graph V) (rank : Rank) (v : V) : Prop where
  sorted : ((g.load rank).sccOf v).Pairwise (· < ·)
  members : ∀ w, w ∈ (g.load rank).sccOf v ↔ deps.Mutual rank v w
  shared : ∀ w, deps.Mutual rank v w → (g.helper rank).scc w = (g.helper rank).scc v

namespace Graph

variable {g : Graph V}

omit [LinearOrder V] in
theorem load_store (g : Graph V) (rank : Rank) (s : Dfs V) : (g.store rank s).load rank = s := by
  cases rank <;> rfl

omit [LinearOrder V] in
theorem load_store_of_ne (g : Graph V) {rank r : Rank} (h : r ≠ rank) (s : Dfs V) :
    (g.store rank s).load r = { g.load r with
      vertexIndex := s.vertexIndex, nextIndex := s.nextIndex, stack := s.stack } := by
  cases rank <;> cases r <;> first | rfl | exact absurd rfl h

theorem Idle.start : Idle deps { vertexIndex := deps.vertices } where
  searchStack := rfl
  good rank := by
    have hnot : ∀ v, ¬ (({ vertexIndex := deps.vertices } : Graph V).load rank).Popped v := by
      rintro v ⟨hv, -⟩
      cases hv
    exact ⟨fun v hv => absurd hv (hnot v), fun v hv => absurd hv (hnot v),
      fun v hv => absurd hv (hnot v), fun v hv => absurd hv (hnot v), fun v _ => ⟨rfl, rfl⟩⟩
  inv rank := Inv.start

theorem Idle.store (h : Idle deps g) {rank : Rank} {s : Dfs V} (hgood : Dfs.Good deps rank s)
    (hinv : Inv (deps.Edge rank) s.toSearch []) (hnext : g.nextIndex ≤ s.nextIndex) :
    Idle deps (g.store rank s) := by
  have hstack : s.stack = g.stack := by
    have hold : g.stack = [] := (h.inv rank).stack_nil
    rw [hinv.stack_nil, hold]
  constructor
  · exact h.searchStack
  · intro r
    by_cases hr : r = rank
    · rw [hr, load_store]
      exact hgood
    · rw [load_store_of_ne g hr, hstack]
      exact (h.good r).of_popped rfl rfl fun _ => Iff.rfl
  · intro r
    by_cases hr : r = rank
    · rw [hr, load_store]
      exact hinv
    · rw [load_store_of_ne g hr, hstack]
      exact (h.inv r).later hnext

theorem Idle.computed (h : Idle deps g) {rank : Rank} {v : V}
    (hv : (g.load rank).Popped v) : Computed deps g rank v :=
  ⟨(h.good rank).sorted v hv, (h.good rank).members v hv, (h.good rank).shared v hv⟩

def meetable (deps : Deps V) (rank : Rank) (v : V) : Finset V :=
  insert v (deps.vertices.biUnion fun w => (deps.parents rank w).toFinset)

theorem meetable_closed (deps : Deps V) (rank : Rank) (v : V) :
    ∀ w ∈ meetable deps rank v, ∀ p ∈ deps.parents rank w, p ∈ meetable deps rank v := by
  intro w _ p hp
  have hw : w ∈ deps.vertices := by
    by_contra hout
    rw [deps.created rank w hout] at hp
    cases hp
  exact Finset.mem_insert_of_mem (Finset.mem_biUnion.mpr ⟨w, hw, List.mem_toFinset.mpr hp⟩)

theorem Idle.search (h : Idle deps g) {rank : Rank} {v : V} (hnil : (g.load rank).sccOf v = []) :
    ∃ fuel s, Idle deps (g.store rank s) ∧ s.Popped v ∧
      (∀ more, g.findSccPred deps (fuel + more) v rank = some (s.sccOf v, g.store rank s)) ∧
      ∀ more, Dfs.strongConnectPred deps rank (fuel + more) v (g.load rank) = some s := by
  have hnot : ¬ (g.load rank).Popped v := ((h.good rank).sccOf_eq_nil v).mp hnil
  have hstack : (g.load rank).stack = [] := (h.inv rank).stack_nil
  have hindex : (g.load rank).index v = none := by
    by_contra hsome
    refine hnot ⟨Option.isSome_iff_ne_none.mpr hsome, ?_⟩
    rw [hstack]
    exact List.not_mem_nil
  have hspec : ∀ fuel, Dfs.unvisited (meetable deps rank v) (g.load rank) ≤ fuel →
      ∃ s, Dfs.strongConnectPred deps rank fuel v (g.load rank) = some s ∧
        Dfs.Good deps rank s ∧ Searched (deps.Edge rank) [] (g.load rank).toSearch v s.toSearch :=
    fun fuel hfuel => Dfs.strongConnectPred_spec (meetable_closed deps rank v) fuel (g.load rank) v
      [] (h.good rank) (h.inv rank) (fun w hw => absurd hw List.not_mem_nil)
      (Finset.mem_insert_self _ _) hindex hfuel
  obtain ⟨s, hcall, hgood, hpost⟩ := hspec _ (le_refl _)
  have hleads : ∀ {fuel t}, Dfs.strongConnectPred deps rank fuel v (g.load rank) = some t →
      ∃ k, ∀ n, Dfs.loop deps rank (k + n) [(v, 0)] (g.load rank) = some ([], t) := by
    intro fuel t ht
    obtain ⟨k, hk⟩ := Dfs.strongConnectPred_leads fuel v (g.load rank) t [] ht
    refine ⟨k, fun n => ?_⟩
    rw [hk n]
    exact Dfs.loop_nil n t
  obtain ⟨k, hk⟩ := hleads hcall
  refine ⟨Dfs.unvisited (meetable deps rank v) (g.load rank) + k, s,
    h.store hgood hpost.inv hpost.nextIndex, ⟨hpost.visited, ?_⟩, fun more => ?_, fun more => ?_⟩
  · rw [hpost.inv.stack_nil]
    exact List.not_mem_nil
  · have hloop := hk (Dfs.unvisited (meetable deps rank v) (g.load rank) + more)
    rw [Nat.add_left_comm, ← Nat.add_assoc] at hloop
    have hgraph : { g.store rank s with searchStack := [] } = g.store rank s := by
      rw [← h.searchStack]
      rfl
    rw [findSccPred, if_neg (not_not.mpr hnil), strongConnectPredNonRecursive, h.searchStack]
    simp only [hloop, Option.map_some, hgraph, load_store]
  · obtain ⟨t, ht, -, -⟩ :=
      hspec (Dfs.unvisited (meetable deps rank v) (g.load rank) + k + more) (by omega)
    obtain ⟨k', hk'⟩ := hleads ht
    have heq := hk' k
    rw [Nat.add_comm, hk k'] at heq
    obtain ⟨-, rfl⟩ := Prod.mk.inj (Option.some.inj heq)
    exact ht

theorem findSccPred_more {fuel : Nat} {v : V} {rank : Rank} {x : List V × Graph V}
    (h : g.findSccPred deps fuel v rank = some x) (more : Nat) :
    g.findSccPred deps (fuel + more) v rank = some x := by
  rw [findSccPred] at h ⊢
  split at h
  · next hscc => rwa [if_pos hscc]
  · next hscc =>
    rw [if_neg hscc]
    rw [strongConnectPredNonRecursive] at h ⊢
    cases hstack : g.searchStack with
    | cons top rest =>
      rw [hstack] at h
      cases h
    | nil =>
      rw [hstack] at h
      obtain ⟨g', hg, h⟩ := Option.map_eq_some_iff.mp h
      obtain ⟨y, hy, hg⟩ := Option.map_eq_some_iff.mp hg
      simp only [Dfs.loop_more hy more, Option.map_some, hg, h]

theorem Reached.idle (h : Reached deps g) : Idle deps g := by
  induction h with
  | start => exact Idle.start
  | @call g g' fuel v rank l _ hcall ih =>
    by_cases hnil : (g.load rank).sccOf v = []
    · obtain ⟨k, s, hidle, -, hfind, -⟩ := ih.search hnil
      have heq := findSccPred_more hcall k
      rw [Nat.add_comm, hfind fuel] at heq
      obtain ⟨-, rfl⟩ := Prod.mk.inj (Option.some.inj heq)
      exact hidle
    · rw [findSccPred, if_pos hnil] at hcall
      obtain ⟨-, rfl⟩ := Prod.mk.inj (Option.some.inj hcall)
      exact ih

/-- Every call returns the vertices that are mutually in reach with the argument, and gives all that
it reaches their components. The recursive search leaves the same graph. -/
theorem findSccPred_exact (h : Reached deps g) (v : V) (rank : Rank) :
    ∃ fuel l g', (∀ more, g.findSccPred deps (fuel + more) v rank = some (l, g')) ∧
      l.Pairwise (· < ·) ∧ (∀ w, w ∈ l ↔ deps.Mutual rank v w) ∧
      (∀ w, deps.Reach rank v w → Computed deps g' rank w) ∧
      g'.stack = [] ∧ g'.searchStack = [] ∧
      ((g.load rank).sccOf v = [] → ∀ more,
        (Dfs.strongConnectPred deps rank (fuel + more) v (g.load rank)).map (g.store rank) =
          some g') := by
  have hidle := h.idle
  by_cases hnil : (g.load rank).sccOf v = []
  · obtain ⟨fuel, s, hstore, hv, hfind, hrecursive⟩ := hidle.search hnil
    have hload := load_store g rank s
    have hv' : ((g.store rank s).load rank).Popped v := by rwa [hload]
    refine ⟨fuel, s.sccOf v, g.store rank s, hfind, ?_, ?_, fun w hw => ?_, ?_, hstore.searchStack,
      fun _ more => by rw [hrecursive more, Option.map_some]⟩
    · have hsorted := (hstore.computed hv').sorted
      rwa [hload] at hsorted
    · have hmembers := (hstore.computed hv').members
      rwa [hload] at hmembers
    · exact hstore.computed ((hstore.inv rank).popped_star hv' hw)
    · exact (hstore.inv rank).stack_nil
  · have hv : (g.load rank).Popped v := by
      by_contra hnot
      exact hnil (((hidle.good rank).sccOf_eq_nil v).mpr hnot)
    refine ⟨0, (g.load rank).sccOf v, g, fun more => ?_, (hidle.computed hv).sorted,
      (hidle.computed hv).members, fun w hw => hidle.computed ((hidle.inv rank).popped_star hv hw),
      (hidle.inv rank).stack_nil, hidle.searchStack, fun hn => absurd hn hnil⟩
    rw [findSccPred, if_pos hnil]

def cycle : Deps Nat where
  vertices := {1, 2, 3}
  parents rank v :=
    match rank, v with
    | .I, 1 => [2, 3, 2]
    | .I, 2 => [3, 1]
    | _, _ => []
  created rank v hv := by
    match rank, v with
    | .I, 1 => simp at hv
    | .I, 2 => simp at hv
    | .I, 0 | .I, _ + 3 | .D, _ => rfl

example : (findSccPred cycle 5 { vertexIndex := {1, 2, 3} } 1 .I).map Prod.fst = some [1, 2] := by
  decide

theorem findSccPred_exact_cycle : ∃ fuel l g', (∀ more,
    findSccPred cycle (fuel + more) { vertexIndex := cycle.vertices } 2 .I = some (l, g')) ∧
      l.Pairwise (· < ·) ∧ (∀ w, w ∈ l ↔ cycle.Mutual .I 2 w) ∧ g'.stack = [] := by
  obtain ⟨fuel, l, g', hfind, hsorted, hmembers, -, hstack, -⟩ :=
    findSccPred_exact (Reached.start : Reached cycle _) 2 .I
  exact ⟨fuel, l, g', hfind, hsorted, hmembers, hstack⟩

end Graph

end Jetpack.Rcc
