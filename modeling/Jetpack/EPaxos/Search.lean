import Jetpack.EPaxos.Execution

/-! A search executes complete components only, each instance once and after what it depends on. -/

namespace Jetpack.EPaxos

open Components Relation

variable {γ : Type} {n : Nat} {I : Instances γ}

/-- The parts of a search that stay true when it gives up. -/
structure Good (n : Nat) (I : Instances γ) (s : Dfs γ) : Prop where
  space : ∀ k, s.instances.lookup k = (I.lookup k).map fun inst =>
    if k ∈ s.executed then { inst with status := .executed } else inst
  once : s.executed.Nodup ∧ ∀ k ∈ s.executed, ¬ Done I k
  ready : ∀ v, s.Visited v → Ready I v
  popped : ∀ k ∈ s.executed, s.Popped k
  closed : ∀ v, s.Popped v → ∀ b, Edge n I v b → s.Popped b
  done : ∀ v, s.Popped v → Done I v ∨ v ∈ s.executed
  order : ∀ front a back, s.executed = front ++ a :: back → ∀ b, ReflTransGen (Edge n I) a b →
    ¬ ReflTransGen (Edge n I) b a → Done I b ∨ b ∈ front

namespace Good

theorem start {I' : Instances γ} (h : ∀ k, I'.lookup k = I.lookup k) :
    Good n I { instances := I' } where
  space k := by
    show I'.lookup k = _
    rw [h k]
    cases I.lookup k <;> rfl
  once := ⟨List.nodup_nil, fun k hk => by cases hk⟩
  ready v hv := by cases hv
  popped k hk := by cases hk
  closed v hv := by cases hv.1
  done v hv := by cases hv.1
  order front a back h := by simp at h

variable {s : Dfs γ}

theorem closed_star (h : Good n I s) {a b : InstanceKey} (ha : s.Popped a)
    (hab : ReflTransGen (Edge n I) a b) : s.Popped b := by
  induction hab with
  | refl => exact ha
  | tail _ hedge ih => exact h.closed _ ih _ hedge

theorem of_popped (h : Good n I s) {t : Search InstanceKey}
    (hready : ∀ v, t.Visited v → Ready I v) (ht : ∀ v, t.Popped v ↔ s.Popped v) :
    Good n I { s with toSearch := t } where
  space := h.space
  once := h.once
  ready := hready
  popped k hk := (ht k).mpr (h.popped k hk)
  closed v hv b hb := (ht b).mpr (h.closed v ((ht v).mp hv) b hb)
  done v hv := h.done v ((ht v).mp hv)
  order := h.order

theorem push (h : Good n I s) {key : InstanceKey} (hkey : ¬ s.Visited key)
    (hready : Ready I key) : Good n I { s with toSearch := s.push key } := by
  apply h.of_popped
  · intro v hv
    rcases (s.push_visited key v).mp hv with heq | hvisited
    · rw [heq]
      exact hready
    · exact h.ready v hvisited
  · exact s.push_popped hkey

theorem lower (h : Good n I s) (key : InstanceKey) (low : Nat) :
    Good n I { s with toSearch := s.lower key low } :=
  h.of_popped h.ready fun _ => Iff.rfl

theorem lookup (h : Good n I s) {k : InstanceKey} {d : EPaxosInstance γ}
    (hd : s.instances.lookup k = some d) : ∃ inst, I.lookup k = some inst ∧ d.deps = inst.deps ∧
      (d.status.toNat < Status.committed.toNat → ¬ Ready I k) ∧
      (¬ d.status.toNat < Status.committed.toNat → Ready I k) := by
  have hspace := h.space k
  rw [hd] at hspace
  obtain ⟨inst, hinst, heq⟩ := Option.map_eq_some_iff.mp hspace.symm
  refine ⟨inst, hinst, ?_, ?_, ?_⟩
  · rw [← heq]
    split_ifs
    · rfl
    · rfl
  · rintro hlt ⟨inst', hinst', hstatus⟩
    obtain rfl := Option.some.inj (hinst.symm.trans hinst')
    have hle : Status.committed.toNat ≤ inst.status.toNat := by
      rcases hstatus with hstatus | hstatus
      · rw [hstatus]
      · rw [hstatus]
        exact Nat.le_succ 4
    rw [← heq] at hlt
    by_cases hk : k ∈ s.executed
    · rw [if_pos hk] at hlt
      have hlt : 5 < 4 := hlt
      omega
    · rw [if_neg hk] at hlt
      omega
  · intro hge
    by_cases hk : k ∈ s.executed
    · exact h.ready k (h.popped k hk).1
    · rw [if_neg hk] at heq
      subst heq
      refine ⟨inst, hinst, ?_⟩
      cases hstatus : inst.status <;> simp [hstatus, Status.toNat] at hge ⊢

end Good

theorem executeAll_spec {s : Dfs γ} (keys : List InstanceKey)
    (hspace : ∀ k, s.instances.lookup k = (I.lookup k).map fun inst =>
      if k ∈ s.executed then { inst with status := .executed } else inst)
    (hready : ∀ k ∈ keys, Ready I k) :
    ∃ ks, (s.executeAll keys).executed = s.executed ++ ks ∧ ks.Sublist keys ∧
      (s.executeAll keys).toSearch = s.toSearch ∧
      (∀ k, (s.executeAll keys).instances.lookup k = (I.lookup k).map fun inst =>
        if k ∈ s.executed ++ ks then { inst with status := .executed } else inst) ∧
      (∀ k ∈ ks, ¬ Done I k) ∧ ∀ k ∈ keys, Done I k ∨ k ∈ s.executed ++ ks := by
  induction keys generalizing s with
  | nil =>
    refine ⟨[], (List.append_nil _).symm, .slnil, rfl, ?_, ?_, ?_⟩
    · rw [List.append_nil]
      exact hspace
    · exact fun k hk => absurd hk List.not_mem_nil
    · exact fun k hk => absurd hk List.not_mem_nil
  | cons key keys ih =>
    have hkeys : ∀ k ∈ keys, Ready I k := fun k hk => hready k (List.mem_cons_of_mem key hk)
    obtain ⟨inst, hinst, hstatus⟩ := hready key List.mem_cons_self
    have hlookup := hspace key
    rw [hinst, Option.map_some] at hlookup
    by_cases hdone : inst.status = .executed ∨ key ∈ s.executed
    · -- executed before
      have hskip : s.executeInstance key = s := by
        unfold Dfs.executeInstance
        rw [hlookup]
        by_cases hkey : key ∈ s.executed
        · simp [hkey]
        · simp [hkey, hdone.resolve_right hkey]
      obtain ⟨ks, hexecuted, hsub, hsearch, hspace', hnew, hall⟩ := ih hspace hkeys
      refine ⟨ks, ?_, hsub.cons key, ?_, ?_, hnew, fun k hk => ?_⟩
      · rw [Dfs.executeAll, hskip, hexecuted]
      · rw [Dfs.executeAll, hskip, hsearch]
      · rw [Dfs.executeAll, hskip]
        exact hspace'
      · rcases List.mem_cons.mp hk with rfl | hk
        · rcases hdone with hdone | hdone
          · exact .inl ⟨inst, hinst, hdone⟩
          · exact .inr (List.mem_append_left _ hdone)
        · exact hall k hk
    · -- executed now
      obtain ⟨hstatusne, hkey⟩ := not_or.mp hdone
      have hnew : s.executeInstance key = { s with
          instances := s.instances.insert key { inst with status := .executed }
          executed := s.executed ++ [key] } := by
        unfold Dfs.executeInstance
        rw [hlookup, if_neg hkey]
        simp [hstatusne]
      have hspace' : ∀ k, (s.executeInstance key).instances.lookup k = (I.lookup k).map fun inst =>
          if k ∈ (s.executeInstance key).executed then { inst with status := .executed }
          else inst := by
        intro k
        rw [hnew]
        by_cases hk : k = key
        · subst hk
          simp [hinst]
        · rw [AList.lookup_insert_ne hk, hspace k]
          simp [hk]
      obtain ⟨ks, hexecuted, hsub, hsearch, hspace'', hnotdone, hall⟩ := ih hspace' hkeys
      have happend : (s.executeInstance key).executed ++ ks = s.executed ++ key :: ks := by
        rw [hnew, List.append_assoc]
        rfl
      rw [happend] at hexecuted
      rw [happend] at hspace''
      refine ⟨key :: ks, hexecuted, hsub.cons_cons key, ?_, hspace'', fun k hk => ?_, fun k hk => ?_⟩
      · rw [Dfs.executeAll, hsearch, hnew]
      · rcases List.mem_cons.mp hk with rfl | hk
        · rintro ⟨inst', hinst', hexec⟩
          rw [Option.some.inj (hinst.symm.trans hinst')] at hstatusne
          exact hstatusne hexec
        · exact hnotdone k hk
      · rcases List.mem_cons.mp hk with rfl | hk
        · exact .inr (by simp)
        · rw [← happend]
          exact hall k hk

section Search

variable {sort : (InstanceKey → InstanceKey → Bool) → List InstanceKey → List InstanceKey}
  (hsort : ∀ lt l, (sort lt l).Perm l)
include hsort

theorem popComponent_spec {s : Dfs γ} (h : Good n I s) {gray new rest : List InstanceKey}
    {key : InstanceKey} (hinv : Inv (Edge n I) s.toSearch (key :: gray))
    (hgray : ∀ g ∈ gray, ReflTransGen (Edge n I) g key ∧ g ∈ rest)
    (hstack : s.stack = new ++ key :: rest) (hlow : s.lowlink key = s.idx key)
    (hnew : ∀ u ∈ new, s.lowlink key ≤ s.lowlink u)
    (hedges : ∀ b, Edge n I key b → s.Visited b ∧ (b ∈ s.stack → s.lowlink key ≤ s.idx b)) :
    Good n I (s.popComponent sort key) ∧ (s.popComponent sort key).toSearch = s.pop key ∧
      (s.pop key).stack = rest ∧ Inv (Edge n I) (s.pop key) gray := by
  obtain ⟨hcomponent, hrest, hpop, hpopped, hscc, hleave⟩ :=
    hinv.pop hgray hstack hlow hnew hedges
  have hmem : ∀ u ∈ new ++ [key], u ∈ s.stack := by
    intro u hu
    rw [hstack]
    have hor := List.mem_append.mp hu
    simp only [List.mem_singleton] at hor
    rcases hor with hu | rfl
    · exact List.mem_append_left _ hu
    · simp
  have hperm := hsort (before s.instances) (s.component key)
  rw [hcomponent] at hperm
  have hnodup : (new ++ [key]).Nodup := by
    have hsorted := hinv.sorted
    rw [hstack, ← List.singleton_append, ← List.append_assoc] at hsorted
    apply (List.pairwise_append.mp hsorted).1.imp
    intro a b hlt heq
    rw [heq] at hlt
    omega
  obtain ⟨ks, hexecuted, hsub, hsearch, hspace, hnotdone, hall⟩ :=
    @executeAll_spec γ I { s with toSearch := s.pop key }
      (sort (before s.instances) (s.component key)) h.space (by
        intro k hk
        rw [hcomponent] at hk
        exact h.ready k (hinv.visited k (hmem k (hperm.mem_iff.mp hk))))
  have hks : ∀ k ∈ ks, k ∈ new ++ [key] := by
    intro k hk
    have hsorted := hsub.mem hk
    rw [hcomponent] at hsorted
    exact hperm.mem_iff.mp hsorted
  have hstar : ∀ a ∈ new ++ [key], ∀ b, ReflTransGen (Edge n I) a b →
      b ∈ new ++ [key] ∨ s.Popped b := by
    intro a ha b hab
    induction hab with
    | refl => exact .inl ha
    | tail _ hedge ih =>
      rcases ih with hcomp | hold
      · exact hleave _ hcomp _ hedge
      · exact .inr (h.closed _ hold _ hedge)
  refine ⟨?_, hsearch, hrest, hpop⟩
  unfold Dfs.popComponent
  constructor
  · rw [hexecuted]
    exact hspace
  · rw [hexecuted]
    constructor
    · apply h.once.1.append
      · rw [hcomponent] at hsub
        exact hsub.nodup (hperm.nodup_iff.mpr hnodup)
      · intro k hk hkks
        exact (h.popped k hk).2 (hmem k (hks k hkks))
    · intro k hk
      rcases List.mem_append.mp hk with hk | hk
      · exact h.once.2 k hk
      · exact hnotdone k hk
  · rw [hsearch]
    exact h.ready
  · rw [hexecuted, hsearch]
    intro k hk
    rw [hpopped]
    rcases List.mem_append.mp hk with hk | hk
    · exact .inr (h.popped k hk)
    · exact .inl (hks k hk)
  · rw [hsearch]
    exact hpop.closed
  · rw [hexecuted, hsearch]
    intro v hv
    rcases (hpopped v).mp hv with hcomp | hold
    · apply hall
      rw [hcomponent]
      exact hperm.mem_iff.mpr hcomp
    · exact (h.done v hold).imp_right (List.mem_append_left _)
  · rw [hexecuted]
    intro front a back hsplit b hab hba
    rcases List.append_eq_append_iff.mp hsplit with ⟨mid, hfront, hmid⟩ | ⟨mid, hfront, hmid⟩
    · -- `a` is of this component
      have ha : a ∈ new ++ [key] := hks a (by rw [hmid]; simp)
      rcases hstar a ha b hab with hcomp | hold
      · exact absurd (hscc b hcomp a ha) hba
      · rw [hfront]
        exact (h.done b hold).imp_right (List.mem_append_left _)
    · cases mid with
      | nil =>
        rw [List.append_nil] at hfront
        have ha : a ∈ new ++ [key] := hks a (by rw [List.nil_append] at hmid; rw [← hmid]; simp)
        rcases hstar a ha b hab with hcomp | hold
        · exact absurd (hscc b hcomp a ha) hba
        · rw [← hfront]
          exact h.done b hold
      | cons a' mid =>
        obtain ⟨rfl, -⟩ := List.cons.inj hmid
        exact h.order front a mid hfront b hab hba

omit hsort

def unvisited (I : Instances γ) (s : Dfs γ) : Nat :=
  (I.keys.filter fun k => (s.index k).isNone).length

theorem unvisited_sublist {s t : Dfs γ} (h : ∀ v, s.Visited v → t.Visited v) :
    (I.keys.filter fun k => (t.index k).isNone).Sublist
      (I.keys.filter fun k => (s.index k).isNone) := by
  apply List.monotone_filter_right
  intro k hk
  rw [Option.isNone_iff_eq_none] at hk ⊢
  by_contra hsome
  have hvisited := h k (Option.isSome_iff_ne_none.mpr hsome)
  rw [Search.Visited, hk] at hvisited
  cases hvisited

theorem unvisited_le {s t : Dfs γ} (h : ∀ v, s.Visited v → t.Visited v) :
    unvisited I t ≤ unvisited I s :=
  (unvisited_sublist h).length_le

theorem unvisited_push {s : Dfs γ} {key : InstanceKey} (hready : Ready I key)
    (hkey : ¬ s.Visited key) :
    unvisited I { s with toSearch := s.push key } < unvisited I s := by
  obtain ⟨inst, hinst, -⟩ := hready
  have hmem : key ∈ I.keys := AList.lookup_isSome.mp (by rw [hinst]; rfl)
  have hnone : (s.index key).isNone = true := Option.isNone_iff_eq_none.mpr <|
    Option.not_isSome_iff_eq_none.mp hkey
  have hsub := @unvisited_sublist γ I s { s with toSearch := s.push key }
    fun v hv => (s.push_visited key v).mpr (.inr hv)
  by_contra hge
  have heq := hsub.eq_of_length_le (not_lt.mp hge)
  have hin : key ∈ I.keys.filter fun k => (s.index k).isNone := List.mem_filter.mpr ⟨hmem, hnone⟩
  rw [← heq] at hin
  have hpush := (List.mem_filter.mp hin).2
  simp [Search.push] at hpush

/-- What a finished search from `key` adds. -/
structure Post (n : Nat) (I : Instances γ) (gray : List InstanceKey) (s : Dfs γ)
    (key : InstanceKey) (t : Dfs γ) : Prop where
  inv : Inv (Edge n I) t.toSearch gray
  visited : t.Visited key
  grows : ∀ v, s.Visited v → t.Visited v ∧ t.idx v = s.idx v
  older : ∀ v ∈ s.stack, t.lowlink v = s.lowlink v
  stack : ∃ new, t.stack = new ++ s.stack ∧ ∀ v ∈ new, t.lowlink key ≤ t.lowlink v
  gone : key ∉ t.stack → s.nextIndex ≤ t.lowlink key
  nextIndex : s.nextIndex ≤ t.nextIndex

structure Scan (n : Nat) (I : Instances γ) (gray : List InstanceKey) (s : Dfs γ)
    (key : InstanceKey) (qs : List Nat) (t : Dfs γ) : Prop where
  good : Good n I t
  inv : Inv (Edge n I) t.toSearch (key :: gray)
  grows : ∀ v, s.Visited v → t.Visited v ∧ t.idx v = s.idx v
  visited : t.Visited key
  self : t.idx key = s.nextIndex
  older : ∀ v ∈ s.stack, t.lowlink v = s.lowlink v
  stack : ∃ new, t.stack = new ++ key :: s.stack ∧ ∀ v ∈ new, t.lowlink key ≤ t.lowlink v
  nextIndex : s.nextIndex < t.nextIndex
  edges : ∀ b, Edge n I key b → (∀ q ∈ qs, (q : Int) ≠ b.replica) →
    t.Visited b ∧ (b ∈ t.stack → t.lowlink key ≤ t.idx b)

namespace Scan

variable {gray : List InstanceKey} {s t : Dfs γ} {key : InstanceKey} {q : Nat} {qs : List Nat}

theorem skip (h : Scan n I gray s key (q :: qs) t)
    (hedge : ∀ b, Edge n I key b → (q : Int) = b.replica →
      t.Visited b ∧ (b ∈ t.stack → t.lowlink key ≤ t.idx b)) : Scan n I gray s key qs t where
  good := h.good
  inv := h.inv
  grows := h.grows
  visited := h.visited
  self := h.self
  older := h.older
  stack := h.stack
  nextIndex := h.nextIndex
  edges b hb hqs := by
    by_cases hq : (q : Int) = b.replica
    · exact hedge b hb hq
    · apply h.edges b hb
      intro q' hq'
      rcases List.mem_cons.mp hq' with rfl | hq'
      · exact hq
      · exact hqs q' hq'

/-- `key` learns of the index `low` of a dependency that was visited before. -/
theorem lower (h : Scan n I gray s key qs t) (hkey : ¬ s.Visited key)
    (hstack : ∀ v ∈ s.stack, s.Visited v) {low : Nat}
    (hlow : t.lowlink key ≤ low ∨
      ∃ w ∈ t.stack, t.idx w = low ∧ ReflTransGen (Edge n I) key w) :
    Scan n I gray s key qs { t with toSearch := t.lower key low } where
  good := h.good.lower key low
  inv := h.inv.lower hlow
  grows := h.grows
  visited := h.visited
  self := h.self
  older v hv := by
    have hne : v ≠ key := fun heq => hkey (heq ▸ hstack v hv)
    show (t.lower key low).lowlink v = s.lowlink v
    rw [Search.lower_lowlink_ne _ _ hne]
    exact h.older v hv
  stack := by
    obtain ⟨new, heq, hnew⟩ := h.stack
    refine ⟨new, heq, fun v hv => ?_⟩
    show (t.lower key low).lowlink key ≤ (t.lower key low).lowlink v
    by_cases hv' : v = key
    · rw [hv']
    · rw [Search.lower_lowlink_ne _ _ hv']
      exact le_trans (t.lower_le key key low) (hnew v hv)
  nextIndex := h.nextIndex
  edges b hb hqs := by
    obtain ⟨hvisited, hle⟩ := h.edges b hb hqs
    exact ⟨hvisited, fun hmem => le_trans (t.lower_le key key low) (hle hmem)⟩

/-- `key` learns of the lowest index of a dependency that was searched. -/
theorem connect (h : Scan n I gray s key qs t) {u : Dfs γ} {dep : InstanceKey} (hgood : Good n I u)
    (hpost : Post n I (key :: gray) t dep u) (hedge : Edge n I key dep) (hkey : ¬ s.Visited key)
    (hstack : ∀ v ∈ s.stack, s.Visited v) :
    Scan n I gray s key qs { u with toSearch := u.lower key (u.lowlink dep) } := by
  obtain ⟨new, hold, hnew⟩ := h.stack
  obtain ⟨new', hnow, hnew'⟩ := hpost.stack
  have hmemt : key ∈ t.stack := h.inv.inProgress key List.mem_cons_self
  have hmemu : key ∈ u.stack := hpost.inv.inProgress key List.mem_cons_self
  have hself : u.idx key = s.nextIndex := (hpost.grows key h.visited).2.trans h.self
  have hlowself := (hpost.inv.reach key hmemu).1
  have hle := u.lower_le key key (u.lowlink dep)
  have hledep : (u.lower key (u.lowlink dep)).lowlink key ≤ u.lowlink dep := by
    rw [Search.lower_lowlink_self]
    exact min_le_right _ _
  constructor
  · exact hgood.lower key _
  · apply hpost.inv.lower
    by_cases hdep : dep ∈ u.stack
    · obtain ⟨-, w, hw, hwlow, hreach⟩ := hpost.inv.reach dep hdep
      exact .inr ⟨w, hw, hwlow, .head hedge hreach⟩
    · have hgone := hpost.gone hdep
      have hlt := h.nextIndex
      exact .inl (by omega)
  · intro v hv
    obtain ⟨hvisited, hidx⟩ := h.grows v hv
    obtain ⟨hvisited', hidx'⟩ := hpost.grows v hvisited
    exact ⟨hvisited', hidx'.trans hidx⟩
  · exact (hpost.grows key h.visited).1
  · exact hself
  · intro v hv
    have hne : v ≠ key := fun heq => hkey (heq ▸ hstack v hv)
    have hmem : v ∈ t.stack := by
      rw [hold]
      exact List.mem_append_right _ (List.mem_cons_of_mem key hv)
    show (u.lower key (u.lowlink dep)).lowlink v = s.lowlink v
    rw [Search.lower_lowlink_ne _ _ hne]
    exact (hpost.older v hmem).trans (h.older v hv)
  · refine ⟨new' ++ new, ?_, fun v hv => ?_⟩
    · show u.stack = _
      rw [hnow, hold, List.append_assoc]
    · show (u.lower key (u.lowlink dep)).lowlink key ≤ (u.lower key (u.lowlink dep)).lowlink v
      by_cases hkeyv : v = key
      · rw [hkeyv]
      · rw [Search.lower_lowlink_ne _ _ hkeyv]
        rcases List.mem_append.mp hv with hv | hv
        · exact le_trans hledep (hnew' v hv)
        · have hmem : v ∈ t.stack := by
            rw [hold]
            exact List.mem_append_left _ hv
          have hlow := hnew v hv
          rw [hpost.older v hmem]
          rw [← hpost.older key hmemt] at hlow
          omega
  · exact lt_of_lt_of_le h.nextIndex hpost.nextIndex
  · intro b hb hqs
    obtain ⟨hvisited, hidx⟩ := h.edges b hb hqs
    obtain ⟨hvisited', hsame⟩ := hpost.grows b hvisited
    refine ⟨hvisited', fun hmem => ?_⟩
    show (u.lower key (u.lowlink dep)).lowlink key ≤ u.idx b
    have hsorted := hpost.inv.sorted
    rw [hnow] at hsorted
    have hmemb : b ∈ u.stack := hmem
    rw [hnow] at hmemb
    rcases List.mem_append.mp hmemb with hmemb | hmemb
    · have hlt := (List.pairwise_append.mp hsorted).2.2 b hmemb key hmemt
      omega
    · have hlow := hidx hmemb
      rw [← hpost.older key hmemt] at hlow
      omega

end Scan

/-- What a search that is deep enough for the instances left does. -/
def Connects (n : Nat) (I : Instances γ) (fuel : Nat)
    (connect : Dfs γ → InstanceKey → Option (Bool × Dfs γ)) : Prop :=
  ∀ s key gray, Good n I s → Inv (Edge n I) s.toSearch gray →
    (∀ g ∈ gray, ReflTransGen (Edge n I) g key) → Ready I key → ¬ s.Visited key →
    unvisited I s ≤ fuel → ∃ ok t, connect s key = some (ok, t) ∧ Good n I t ∧
      (ok = true → Post n I gray s key t) ∧
      (ok = false → ∃ b, ReflTransGen (Edge n I) key b ∧ ¬ Ready I b)

theorem visitDeps_spec {fuel : Nat} {connect : Dfs γ → InstanceKey → Option (Bool × Dfs γ)}
    (hconnect : Connects n I fuel connect) {gray : List InstanceKey} {s t : Dfs γ}
    {key : InstanceKey} {inst : EPaxosInstance γ} {qs : List Nat}
    (hinst : I.lookup key = some inst) (hlen : inst.deps.length = n) (hqs : ∀ q ∈ qs, q < n)
    (hinv : Inv (Edge n I) s.toSearch gray) (hgray : ∀ g ∈ gray, ReflTransGen (Edge n I) g key)
    (hkey : ¬ s.Visited key) (hfuel : unvisited I t ≤ fuel) (h : Scan n I gray s key qs t) :
    ∃ ok u, Dfs.visitDeps connect key inst.deps qs t = some (ok, u) ∧ Good n I u ∧
      (ok = true → Scan n I gray s key [] u) ∧
      (ok = false → ∃ b, ReflTransGen (Edge n I) key b ∧ ¬ Ready I b) := by
  induction qs generalizing t with
  | nil => exact ⟨true, t, rfl, h.good, fun _ => h, fun hok => by cases hok⟩
  | cons q qs ih =>
    have hq : q < n := hqs q List.mem_cons_self
    have hrest : ∀ q ∈ qs, q < n := fun q hq => hqs q (List.mem_cons_of_mem _ hq)
    rw [Dfs.visitDeps]
    by_cases hown : (q : Int) = key.replica
    · -- the own replica
      rw [if_pos hown]
      apply ih hrest hfuel
      apply h.skip
      rintro b ⟨-, q', depInst, -, -, hne, -, -, rfl⟩ heq
      exact absurd (heq.symm.trans hown) hne
    · rw [if_neg hown]
      obtain ⟨depInst, hdep⟩ : ∃ depInst, inst.deps[q]? = some depInst :=
        ⟨_, List.getElem?_eq_getElem (hlen ▸ hq)⟩
      rw [hdep]
      have honly : ∀ b, Edge n I key b → (q : Int) = b.replica → 0 ≤ depInst ∧ b = ⟨q, depInst⟩ := by
        rintro b ⟨inst', q', depInst', hinst', -, -, hdep', hge, rfl⟩ heq
        obtain rfl := Option.some.inj (hinst.symm.trans hinst')
        obtain rfl : q = q' := Int.ofNat_inj.mp heq
        obtain rfl := Option.some.inj (hdep.symm.trans hdep')
        exact ⟨hge, rfl⟩
      dsimp only
      by_cases hneg : depInst < 0
      · rw [if_pos hneg]
        apply ih hrest hfuel
        apply h.skip
        intro b hb heq
        have hge := (honly b hb heq).1
        omega
      · rw [if_neg hneg]
        have hedge : Edge n I key ⟨q, depInst⟩ :=
          ⟨inst, q, depInst, hinst, hq, hown, hdep, not_lt.mp hneg, rfl⟩
        generalize (⟨q, depInst⟩ : InstanceKey) = dep at hedge honly ⊢
        have hstop : ∀ t' : Dfs γ, Good n I t' → ¬ Ready I dep →
            ∃ ok u, some (false, t') = some (ok, u) ∧ Good n I u ∧
              (ok = true → Scan n I gray s key [] u) ∧
              (ok = false → ∃ b, ReflTransGen (Edge n I) key b ∧ ¬ Ready I b) := by
          intro t' hgood hnot
          refine ⟨false, t', rfl, hgood, ?_, fun _ => ⟨dep, .single hedge, hnot⟩⟩
          intro hok
          cases hok
        cases hd : t.instances.lookup dep with
        | none =>
          apply hstop t h.good
          rintro ⟨inst', hinst', -⟩
          have hspace := h.good.space dep
          rw [hd, hinst'] at hspace
          cases hspace
        | some d =>
          obtain ⟨-, -, -, hunready, hready⟩ := h.good.lookup hd
          dsimp only
          by_cases hlt : d.status.toNat < Status.committed.toNat
          · rw [if_pos hlt]
            exact hstop t h.good (hunready hlt)
          · rw [if_neg hlt]
            by_cases hnew : (t.index dep).isNone = true
            · -- not visited before
              rw [if_pos hnew]
              have hunvisited : ¬ t.Visited dep := by
                rw [Search.Visited, Option.not_isSome_iff_eq_none]
                exact Option.isNone_iff_eq_none.mp hnew
              have hpath : ∀ g ∈ key :: gray, ReflTransGen (Edge n I) g dep := by
                intro g hg
                rcases List.mem_cons.mp hg with rfl | hg
                · exact .single hedge
                · exact (hgray g hg).tail hedge
              obtain ⟨ok, u, hcall, hgood, hpost, habort⟩ :=
                hconnect t dep (key :: gray) h.good h.inv hpath (hready hlt) hunvisited hfuel
              rw [hcall]
              cases ok with
              | false =>
                obtain ⟨b, hb, hnot⟩ := habort rfl
                refine ⟨false, u, rfl, hgood, ?_, fun _ => ⟨b, .head hedge hb, hnot⟩⟩
                intro hok
                cases hok
              | true =>
                have hpost := hpost rfl
                apply ih hrest
                · exact le_trans (unvisited_le fun v hv => (hpost.grows v hv).1) hfuel
                · apply (h.connect hgood hpost hedge hkey hinv.visited).skip
                  intro b hb heq
                  obtain ⟨-, rfl⟩ := honly b hb heq
                  refine ⟨hpost.visited, fun hmem => ?_⟩
                  show (u.lower key (u.lowlink b)).lowlink key ≤ u.idx b
                  rw [Search.lower_lowlink_self]
                  exact le_trans (min_le_right _ _) (hpost.inv.reach b hmem).1
            · rw [if_neg hnew]
              have hvisited : t.Visited dep := by
                rw [← Option.not_isSome, Bool.not_eq_true', Bool.not_eq_false] at hnew
                exact hnew
              by_cases hon : t.onStack dep = true
              · -- of the same component, or of one below
                rw [if_pos hon]
                have hmem := (h.inv.onStack dep).mp hon
                have hlower := h.lower hkey hinv.visited (.inr ⟨dep, hmem, rfl, .single hedge⟩)
                refine ih hrest ?_ (hlower.skip fun b hb heq => ?_)
                · exact hfuel
                obtain ⟨-, rfl⟩ := honly b hb heq
                refine ⟨hvisited, fun _ => ?_⟩
                show (t.lower key (t.idx b)).lowlink key ≤ t.idx b
                rw [Search.lower_lowlink_self]
                exact min_le_right _ _
              · -- executed with its component
                rw [if_neg hon]
                apply ih hrest hfuel
                apply h.skip
                intro b hb heq
                obtain ⟨-, rfl⟩ := honly b hb heq
                exact ⟨hvisited, fun hmem => absurd ((h.inv.onStack b).mpr hmem) hon⟩

include hsort

theorem strongconnect_spec (hlen : ∀ k inst, I.lookup k = some inst → inst.deps.length = n)
    (fuel : Nat) : Connects n I fuel (Dfs.strongconnect sort n fuel) := by
  induction fuel with
  | zero =>
    intro s key gray hgood hinv hgray hready hkey hfuel
    have hlt := unvisited_push hready hkey
    omega
  | succ fuel ih =>
    intro s key gray hgood hinv hgray hready hkey hfuel
    have hlt := unvisited_push hready hkey
    have hpush := hgood.push hkey hready
    obtain ⟨inst, hinst, -⟩ := hready
    have hne : ∀ v, s.Visited v → v ≠ key := fun v hv heq => hkey (heq ▸ hv)
    have hscan : Scan n I gray s key (List.range n) { s with toSearch := s.push key } := by
      constructor
      · exact hpush
      · exact hinv.push hkey hgray
      · exact fun v hv => ⟨(s.push_visited key v).mpr (.inr hv), s.push_idx_ne (hne v hv)⟩
      · exact (s.push_visited key key).mpr (.inl rfl)
      · exact s.push_idx_self key
      · exact fun v hv => Function.update_of_ne (hne v (hinv.visited v hv)) _ _
      · exact ⟨[], rfl, fun v hv => absurd hv List.not_mem_nil⟩
      · exact Nat.lt_succ_self _
      · rintro b ⟨inst', q, depInst, hinst', hq, hedge⟩ hnot
        obtain ⟨-, -, -, rfl⟩ := hedge
        exact absurd rfl (hnot q (List.mem_range.mpr hq))
    obtain ⟨d, hd⟩ : ∃ d, s.instances.lookup key = some d := by
      rw [hgood.space, hinst]
      exact ⟨_, rfl⟩
    obtain ⟨inst', hinst', hdeps, -⟩ := hgood.lookup hd
    obtain rfl := Option.some.inj (hinst.symm.trans hinst')
    obtain ⟨ok, u, hcall, hgoodu, hdone, habort⟩ :=
      visitDeps_spec ih hinst (hlen key inst hinst) (fun q hq => List.mem_range.mp hq) hinv hgray
        hkey (by omega) hscan
    rw [Dfs.strongconnect]
    dsimp only
    rw [hd]
    dsimp only
    rw [hdeps, hcall]
    cases ok with
    | false =>
      refine ⟨false, u, rfl, hgoodu, ?_, habort⟩
      intro hok
      cases hok
    | true =>
      have h := hdone rfl
      obtain ⟨new, hstack, hnew⟩ := h.stack
      have hmem : key ∈ u.stack := h.inv.inProgress key List.mem_cons_self
      have hedges : ∀ b, Edge n I key b →
          u.Visited b ∧ (b ∈ u.stack → u.lowlink key ≤ u.idx b) :=
        fun b hb => h.edges b hb fun q hq => absurd hq List.not_mem_nil
      dsimp only
      by_cases hroot : u.lowlink key = u.idx key
      · -- the root of a component
        rw [if_pos hroot]
        obtain ⟨hgood', hsearch, hrest, hinv'⟩ := popComponent_spec hsort hgoodu h.inv
          (fun g hg => ⟨hgray g hg, hinv.inProgress g hg⟩) hstack hroot hnew hedges
        refine ⟨true, _, rfl, hgood', fun _ => ?_, Bool.noConfusion⟩
        constructor
        · rw [hsearch]
          exact hinv'
        · rw [hsearch]
          exact h.visited
        · rw [hsearch]
          exact h.grows
        · rw [hsearch]
          exact h.older
        · rw [hsearch, hrest]
          exact ⟨[], rfl, fun v hv => absurd hv List.not_mem_nil⟩
        · rw [hsearch]
          intro _
          show s.nextIndex ≤ u.lowlink key
          rw [hroot, h.self]
        · rw [hsearch]
          exact le_of_lt h.nextIndex
      · rw [if_neg hroot]
        have hless := lt_of_le_of_ne (h.inv.reach key hmem).1 hroot
        refine ⟨true, _, rfl, hgoodu, fun _ => ?_, Bool.noConfusion⟩
        constructor
        · exact h.inv.finish hless hedges
        · exact h.visited
        · exact h.grows
        · exact h.older
        · refine ⟨new ++ [key], by rw [hstack, List.append_assoc]; rfl, fun v hv => ?_⟩
          rcases List.mem_append.mp hv with hv | hv
          · exact hnew v hv
          · rw [List.mem_singleton.mp hv]
        · exact fun hnot => absurd hmem hnot
        · exact le_of_lt h.nextIndex

omit hsort

def Sized (n : Nat) (I : Instances γ) : Prop :=
  ∀ k inst, I.lookup k = some inst → inst.deps.length = n

theorem Sized.getInstance (hlen : Sized n I) (key : InstanceKey) :
    Sized n (getInstance n I key).1 ∧ (∀ k, Done I k → Done (getInstance n I key).1 k) ∧
      ∀ inst, I.lookup key = some inst →
        (getInstance n I key).2 = inst ∧ ∀ k, (getInstance n I key).1.lookup k = I.lookup k := by
  have hfound : ∀ inst, I.lookup key = some inst → (EPaxos.getInstance n I key).2 = inst := by
    intro inst hinst
    unfold EPaxos.getInstance
    rw [hinst]
    dsimp only [Option.getD_some]
    by_cases hnil : inst.deps = []
    · have hn := hlen key inst hinst
      rw [hnil] at hn
      subst hn
      cases inst
      simp_all
    · rw [if_neg hnil]
  have hlookup : ∀ k, (EPaxos.getInstance n I key).1.lookup k =
      if k = key then some (EPaxos.getInstance n I key).2 else I.lookup k := by
    intro k
    by_cases hk : k = key
    · rw [if_pos hk, hk]
      exact AList.lookup_insert I
    · rw [if_neg hk]
      exact AList.lookup_insert_ne hk
  have hsame : ∀ inst, I.lookup key = some inst →
      ∀ k, (EPaxos.getInstance n I key).1.lookup k = I.lookup k := by
    intro inst hinst k
    rw [hlookup]
    by_cases hk : k = key
    · rw [if_pos hk, hk, hfound inst hinst, hinst]
    · rw [if_neg hk]
  refine ⟨fun k inst hk => ?_, ?_, fun inst hinst => ⟨hfound inst hinst, hsame inst hinst⟩⟩
  · cases hkey : I.lookup key with
    | some inst' =>
      rw [hsame inst' hkey] at hk
      exact hlen k inst hk
    | none =>
      rw [hlookup] at hk
      by_cases heq : k = key
      · rw [if_pos heq] at hk
        rw [← Option.some.inj hk]
        unfold EPaxos.getInstance
        rw [hkey]
        simp
      · rw [if_neg heq] at hk
        exact hlen k inst hk
  · rintro k ⟨inst, hinst, hexec⟩
    by_cases heq : k = key
    · subst heq
      exact ⟨inst, (hsame inst hinst k).trans hinst, hexec⟩
    · refine ⟨inst, ?_, hexec⟩
      rw [hlookup, if_neg heq]
      exact hinst

include hsort

theorem tryExecute_spec (hlen : Sized n I) {key : InstanceKey} {inst : EPaxosInstance γ}
    (hkey : I.lookup key = some inst) (hcommitted : inst.status = .committed) :
    ∃ I' ex, tryExecute sort n I key = some (I', ex) ∧ Executes n I key I' ex := by
  obtain ⟨-, -, hfound⟩ := hlen.getInstance key
  obtain ⟨hinst, hsame⟩ := hfound inst hkey
  have hstart := @Good.start γ n I (getInstance n I key).1 hsame
  have hready : Ready I key := ⟨inst, hkey, .inl hcommitted⟩
  have hfuel : unvisited I { instances := (getInstance n I key).1 } ≤
      (getInstance n I key).1.keys.length := by
    have hkeys : (getInstance n I key).1.keys = key :: I.keys.erase key :=
      AList.keys_insert _
    have hmem : key ∈ I.keys := AList.lookup_isSome.mp (by rw [hkey]; rfl)
    rw [hkeys, ← (List.perm_cons_erase hmem).length_eq]
    exact List.length_filter_le _ _
  obtain ⟨ok, t, hcall, hgood, hpost, habort⟩ :=
    strongconnect_spec hsort hlen (getInstance n I key).1.keys.length
      { instances := (getInstance n I key).1 } key [] hstart Inv.start
      (fun g hg => absurd hg List.not_mem_nil) hready Bool.noConfusion hfuel
  refine ⟨t.instances, t.executed, ?_, hgood.space, hgood.once, fun a ha b hab => ?_, hgood.order,
    fun a ha b hab => hgood.done b (hgood.closed_star (hgood.popped a ha) hab), fun hall => ?_⟩
  · unfold tryExecute
    rw [← hinst] at hcommitted
    dsimp only
    rw [if_neg (not_not.mpr hcommitted), hcall]
    rfl
  · exact hgood.ready b (hgood.closed_star (hgood.popped a ha) hab).1
  · cases ok with
    | false =>
      obtain ⟨b, hb, hnot⟩ := habort rfl
      exact absurd (hall b hb) hnot
    | true =>
      have h := hpost rfl
      apply hgood.done key
      refine ⟨h.visited, ?_⟩
      rw [h.inv.stack_nil]
      exact List.not_mem_nil

end Search

/-- Calls of `TryExecute` for any instances, and in between changes of the instance space that take
no execution back. The list is what was executed, in order. -/
inductive Run (sort : (InstanceKey → InstanceKey → Bool) → List InstanceKey → List InstanceKey)
    (n : Nat) (I : Instances γ) : Instances γ → List InstanceKey → Prop
  | start : Run sort n I I []
  | call {I₁ I₂ : Instances γ} {log executed : List InstanceKey} (key : InstanceKey) :
      Run sort n I I₁ log → tryExecute sort n I₁ key = some (I₂, executed) →
      Run sort n I I₂ (log ++ executed)
  | change {I₁ : Instances γ} (I₂ : Instances γ) {log : List InstanceKey} :
      Run sort n I I₁ log → Sized n I₂ → (∀ k, Done I₁ k → Done I₂ k) → Run sort n I I₂ log

section Run

variable {sort : (InstanceKey → InstanceKey → Bool) → List InstanceKey → List InstanceKey}
  (hsort : ∀ lt l, (sort lt l).Perm l)
include hsort

/-- A call keeps what was executed, and adds what was not. -/
theorem tryExecute_step {I' : Instances γ} {executed : List InstanceKey} {key : InstanceKey}
    (hlen : Sized n I) (h : tryExecute sort n I key = some (I', executed)) :
    Sized n I' ∧ (∀ k, Done I k → Done I' k) ∧ (∀ k ∈ executed, ¬ Done I k ∧ Done I' k) ∧
      executed.Nodup := by
  by_cases hkey : ∃ inst, I.lookup key = some inst ∧ inst.status = .committed
  · obtain ⟨inst, hinst, hcommitted⟩ := hkey
    obtain ⟨I₂, ex, hcall, hex⟩ := tryExecute_spec hsort hlen hinst hcommitted
    obtain ⟨rfl, rfl⟩ := Prod.mk.inj (Option.some.inj (hcall.symm.trans h))
    refine ⟨fun k inst hk => ?_, ?_, fun k hk => ⟨hex.once.2 k hk, ?_⟩, hex.once.1⟩
    · rw [hex.space] at hk
      obtain ⟨inst', hinst', rfl⟩ := Option.map_eq_some_iff.mp hk
      split_ifs
      · exact hlen k inst' hinst'
      · exact hlen k inst' hinst'
    · rintro k ⟨inst, hinst, hexec⟩
      have hspace := hex.space k
      rw [hinst, Option.map_some] at hspace
      refine ⟨_, hspace, ?_⟩
      split_ifs
      · rfl
      · exact hexec
    · obtain ⟨inst, hinst, -⟩ := hex.ready k hk k .refl
      have hspace := hex.space k
      rw [hinst, Option.map_some, if_pos hk] at hspace
      exact ⟨_, hspace, rfl⟩
  · obtain ⟨hsized, hdone, hfound⟩ := hlen.getInstance key
    have hnot : (getInstance n I key).2.status ≠ .committed := by
      intro hcommitted
      cases hinst : I.lookup key with
      | some inst =>
        rw [(hfound inst hinst).1] at hcommitted
        exact hkey ⟨inst, hinst, hcommitted⟩
      | none =>
        unfold getInstance at hcommitted
        rw [hinst] at hcommitted
        simp at hcommitted
    unfold tryExecute at h
    dsimp only at h
    rw [if_pos hnot] at h
    obtain ⟨rfl, rfl⟩ := Prod.mk.inj (Option.some.inj h)
    exact ⟨hsized, hdone, fun k hk => absurd hk List.not_mem_nil, List.nodup_nil⟩

theorem Run.once {I' : Instances γ} {log : List InstanceKey} (hlen : Sized n I)
    (h : Run sort n I I' log) : Sized n I' ∧ (∀ k ∈ log, Done I' k) ∧ log.Nodup := by
  induction h with
  | start => exact ⟨hlen, fun k hk => absurd hk List.not_mem_nil, List.nodup_nil⟩
  | call key _ hcall ih =>
    obtain ⟨hsized, hlog, hnodup⟩ := ih
    obtain ⟨hsized', hkeep, hnew, hnew_nodup⟩ := tryExecute_step hsort hsized hcall
    refine ⟨hsized', fun k hk => ?_, hnodup.append hnew_nodup ?_⟩
    · rcases List.mem_append.mp hk with hk | hk
      · exact hkeep k (hlog k hk)
      · exact (hnew k hk).2
    · intro k hk hk'
      exact (hnew k hk').1 (hlog k hk)
  | change I₂ _ hsized' hkeep ih =>
    obtain ⟨-, hlog, hnodup⟩ := ih
    exact ⟨hsized', fun k hk => hkeep k (hlog k hk), hnodup⟩

/-- Whatever the order of the calls, nothing is executed twice. Each call returns, executes complete
components of instances that lead to committed and executed ones only, and executes what an instance
depends on before it. -/
theorem executes_components {I' : Instances γ} {log : List InstanceKey} (hlen : Sized n I)
    (h : Run sort n I I' log) : log.Nodup ∧ ∀ key inst, I'.lookup key = some inst →
      inst.status = .committed →
      ∃ I'' ex, tryExecute sort n I' key = some (I'', ex) ∧ Executes n I' key I'' ex := by
  obtain ⟨hsized, -, hnodup⟩ := h.once hsort hlen
  exact ⟨hnodup, fun key inst hkey hcommitted => tryExecute_spec hsort hsized hkey hcommitted⟩

end Run

def insertion (lt : InstanceKey → InstanceKey → Bool) (keys : List InstanceKey) :
    List InstanceKey :=
  keys.insertionSort fun a b => lt a b = true

theorem insertion_perm (lt : InstanceKey → InstanceKey → Bool) (keys : List InstanceKey) :
    (insertion lt keys).Perm keys :=
  List.perm_insertionSort _ _

theorem Sized.insert (hlen : Sized n I) (key : InstanceKey) {inst : EPaxosInstance γ}
    (hinst : inst.deps.length = n) : Sized n (AList.insert key inst I) := by
  intro k inst' hk
  by_cases heq : k = key
  · rw [heq, AList.lookup_insert] at hk
    rw [← Option.some.inj hk]
    exact hinst
  · rw [AList.lookup_insert_ne heq] at hk
    exact hlen k inst' hk

theorem Sized.empty : Sized n (∅ : Instances γ) := by
  intro k inst hk
  rw [AList.lookup_empty] at hk
  cases hk

def cycle : Instances Nat :=
  ((AList.insert ⟨0, 0⟩ { cmd := some 1, status := .committed, seq := 2, deps := [-1, 0, -1] } ∅).insert
    ⟨1, 0⟩ { cmd := some 2, status := .committed, seq := 1, deps := [0, -1, -1] }).insert
    ⟨2, 0⟩ { cmd := some 3, status := .committed, seq := 3, deps := [0, 0, -1] }

theorem cycle_sized : Sized 3 cycle :=
  ((Sized.empty.insert _ (by rfl)).insert _ (by rfl)).insert _ (by rfl)

example : (tryExecute insertion 3 cycle ⟨2, 0⟩).map Prod.snd = some [⟨1, 0⟩, ⟨0, 0⟩, ⟨2, 0⟩] := by
  decide

theorem executes_components_cycle : ∃ I' ex, tryExecute insertion 3 cycle ⟨2, 0⟩ = some (I', ex) ∧
    Executes 3 cycle ⟨2, 0⟩ I' ex ∧ ex.Nodup := by
  obtain ⟨I', ex, hcall, hex⟩ :=
    (executes_components insertion_perm cycle_sized .start).2 ⟨2, 0⟩ _ rfl rfl
  have hrun := Run.call ⟨2, 0⟩ .start hcall
  exact ⟨I', ex, hcall, hex, (executes_components insertion_perm cycle_sized hrun).1⟩

def Dependency (instances : Instances γ) (a b : InstanceKey) : Prop :=
  ∃ (inst : EPaxosInstance γ) (q : Nat) (depInst : Int), instances.lookup a = some inst ∧
    inst.deps[q]? = some depInst ∧ 0 ≤ depInst ∧ b = ⟨q, depInst⟩

def ownDependency : Instances Nat :=
  (AList.insert ⟨0, 0⟩ { cmd := some 1, status := .preaccepted, deps := [-1, -1] } ∅).insert
    ⟨0, 1⟩ { cmd := some 2, status := .committed, deps := [0, -1] }

/-- A dependency on the own replica is not waited for. -/
theorem own_dependency_passed_over : ¬ ∀ (n : Nat) (I I' : Instances Nat) (key : InstanceKey)
    (ex : List InstanceKey), Sized n I → tryExecute insertion n I key = some (I', ex) →
    ∀ a ∈ ex, ∀ b, ReflTransGen (Dependency I) a b → Ready I b := by
  intro h
  obtain ⟨I', hcall⟩ : ∃ I', tryExecute insertion 2 ownDependency ⟨0, 1⟩ = some (I', [⟨0, 1⟩]) :=
    ⟨_, rfl⟩
  have hsized : Sized 2 ownDependency :=
    (Sized.empty.insert _ (by rfl)).insert _ (by rfl)
  have hedge : Dependency ownDependency ⟨0, 1⟩ ⟨0, 0⟩ := ⟨_, 0, 0, rfl, rfl, le_refl 0, rfl⟩
  obtain ⟨inst, hinst, hstatus⟩ :=
    h 2 ownDependency I' ⟨0, 1⟩ [⟨0, 1⟩] hsized hcall ⟨0, 1⟩ (List.mem_singleton_self _) ⟨0, 0⟩
      (.single hedge)
  obtain rfl := Option.some.inj hinst
  rcases hstatus with hstatus | hstatus
  · cases hstatus
  · cases hstatus

end Jetpack.EPaxos
