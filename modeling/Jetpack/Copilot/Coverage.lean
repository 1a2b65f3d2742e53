import Jetpack.Copilot.System
import Jetpack.Library.Rank

/-! Whether of two committed entries of the two logs one depends on the other. A majority of the
replicas answers each FastAccept with at most the final dependency, so one replica has answered
both, and the second answer was given with the first entry in its log. The compatibility check looks
past entries with no dependency and past those after the accepted prefix, and it is left out for an
initial dependency 0. -/

namespace Jetpack.Copilot

open Transition

variable {n : Nat} {α : Type}

/-- Of two committed entries one has a final dependency that reaches the other. -/
def DependencyCoverage (s : System n α) : Prop :=
  ∀ p i k c c', s.coord p i = some c → s.coord p.reverse k = some c' →
    c.phase = .commit → c'.phase = .commit → k ≤ c.dep ∨ i ≤ c'.dep

/-- The check of a FastAccept for `slot` at replica `i` sees the other pilot's entry `k`, or `k`
depends on `slot`. -/
def seesEntry (s : System n α) (p : Side) (slot : Nat) (c : Coordinator n α) (i : Fin n) (k : Nat) :
    Bool :=
  match (s.server i).entry p.reverse k with
  | none => false
  | some d => slot ≤ d.depId ||
    (i != c.host && !((s.server i).logInfos p).freed slot && c.initDep != 0 && d.depId != 0 &&
      k ≤ ((s.server i).logInfos p.reverse).maxAcceptedSlot)

/-- No entry after the initial dependency that the replica has fast-accepted is hidden from the
check. -/
def NoneHidden (s : System n α) : Event n α → Bool
  | .deliverFast p slot i =>
    match s.coord p slot with
    | none => true
    | some c => (List.range (s.submitted p.reverse + 1)).all fun k =>
      match s.coord p.reverse k with
      | none => true
      | some c' => k ≤ c.initDep || !(c'.fast i).handled || seesEntry s p slot c i k
  | _ => true

def Coordinator.Counts (c : Coordinator n α) (i : Fin n) (x : Nat) : Prop :=
  (∃ b, c.fast i = .replied (b, x)) ∨ ∃ r ∈ c.fastEvent.fed, r.site = i ∧ r.dep = x

structure Coordinator.Sound (c : Coordinator n α) : Prop where
  dep_eq : c.phase = .fastAccept → c.dep = c.initDep
  initDep_le : c.initDep ≤ c.dep
  replied : ∀ i b x, c.fast i = .replied (b, x) → c.initDep ≤ x
  fed : ∀ r ∈ c.fastEvent.fed, c.initDep ≤ r.dep ∧ (r.ok = true → r.dep = c.initDep) ∧
    c.fast r.site = .done
  nodup : (c.fastEvent.fed.map (·.site)).Nodup
  majority : 2 ≤ n → c.phase ≠ .fastAccept →
    ∃ F : Finset (Fin n), n / 2 + 1 ≤ F.card ∧ ∀ i ∈ F, ∃ x, x ≤ c.dep ∧ c.Counts i x

structure CoverageInv (s : System n α) : Prop extends WellFormed s where
  sound : ∀ p k c, s.coord p k = some c → c.Sound
  deps : ∀ i p k d, (s.server i).entry p k = some d →
    d.depId = 0 ∨ ∃ c, s.coord p k = some c ∧ d.depId ≤ c.dep
  covered : ∀ p k k' c c', s.coord p k = some c → s.coord p.reverse k' = some c' →
    ∀ i x x', c.Counts i x → c'.Counts i x' → k' ≤ x ∨ k ≤ x' ∨ k' ≤ c.dep ∨ k ≤ c'.dep

theorem two_le_of_roles {i j : Fin n} {p : Side} (hi : roleOf i = some p)
    (hj : roleOf j = some p.reverse) : 2 ≤ n := by
  have hi' := i.isLt
  have hj' := j.isLt
  unfold roleOf at hi hj
  cases p <;> split_ifs at hi hj <;> cases hi <;> cases hj <;> omega

theorem CoverageInv.coverage {s : System n α} (h : CoverageInv s) : DependencyCoverage s := by
  intro p i k c c' hc hc' hphase hphase'
  have hn : 2 ≤ n := two_le_of_roles (h.role p i c hc) (h.role p.reverse k c' hc')
  obtain ⟨F, hF, hFc⟩ := (h.sound p i c hc).majority hn (by simp [hphase])
  obtain ⟨F', hF', hFc'⟩ := (h.sound p.reverse k c' hc').majority hn (by simp [hphase'])
  have hcard : (Finset.univ : Finset (Fin n)).card < F.card + F'.card := by
    rw [Finset.card_univ, Fintype.card_fin]
    omega
  obtain ⟨j, hj⟩ := Finset.inter_nonempty_of_card_lt_card_add_card (Finset.subset_univ F)
    (Finset.subset_univ F') hcard
  obtain ⟨hjF, hjF'⟩ := Finset.mem_inter.mp hj
  obtain ⟨x, hx, hcount⟩ := hFc j hjF
  obtain ⟨x', hx', hcount'⟩ := hFc' j hjF'
  have hcover := h.covered p i k c c' hc hc' j x x' hcount hcount'
  omega

section Suggestion

variable {other : CopilotLogInfo α} {slot dep x : Nat}

theorem compatible_of_findIncompatible {m j : Nat}
    (h : other.findIncompatible slot m j = some false) {k : Nat} {d : CopilotData α}
    (hjk : j ≤ k) (hk : k < j + m) (hd : other.entry k = some d) :
    d.depId = 0 ∨ slot ≤ d.depId := by
  induction m generalizing j with
  | zero => omega
  | succ m ih =>
    unfold CopilotLogInfo.findIncompatible at h
    by_cases hkj : k = j
    · subst hkj
      rw [CopilotLogInfo.entry] at hd
      split at h
      · next hcell => simp [hcell, Cell.entry] at hd
      · cases h
      · next d' hcell =>
        rw [hcell] at hd
        cases hd
        split_ifs at h with hbad
        · simp at h
        · omega
    · split at h
      · exact ih h (by omega) (by omega)
      · cases h
      · split_ifs at h
        · simp at h
        · exact ih h (by omega) (by omega)

theorem suggestDep_cases (h : other.suggestDep slot dep = some x) :
    x = dep ∧ (dep = 0 ∨
      other.findIncompatible slot (other.maxAcceptedSlot - dep) (dep + 1) = some false) ∨
    x = other.maxAcceptedSlot ∧ dep < x := by
  unfold CopilotLogInfo.suggestDep at h
  split_ifs at h with hdep
  · cases h
    exact .inl ⟨hdep.symm ▸ rfl, .inl hdep⟩
  · obtain ⟨found, hfound, h⟩ := Option.bind_eq_some_iff.mp h
    cases h
    cases found with
    | false => exact .inl ⟨rfl, .inr hfound⟩
    | true =>
      refine .inr ⟨rfl, ?_⟩
      by_contra hle
      have hzero : other.maxAcceptedSlot - dep = 0 := by
        simp only [if_true] at hle
        omega
      rw [hzero] at hfound
      cases hfound

theorem le_suggestDep (h : other.suggestDep slot dep = some x) : dep ≤ x := by
  rcases suggestDep_cases h with ⟨rfl, -⟩ | ⟨-, hlt⟩
  · exact le_rfl
  · exact hlt.le

theorem suggestDep_covers (h : other.suggestDep slot dep = some x) (hdep : dep ≠ 0) {k : Nat}
    {d : CopilotData α} (hd : other.entry k = some d) (hlt : dep < k)
    (hle : k ≤ other.maxAcceptedSlot) (hzero : d.depId ≠ 0) (hslot : d.depId < slot) : k ≤ x := by
  rcases suggestDep_cases h with ⟨-, h0 | hfalse⟩ | ⟨rfl, -⟩
  · exact absurd h0 hdep
  · rcases compatible_of_findIncompatible hfalse (by omega) (by omega) hd with h0 | hge
    · exact absurd h0 hzero
    · omega
  · exact hle

end Suggestion

namespace Coordinator

variable {c c' : Coordinator n α}

structure Quiet (c c' : Coordinator n α) : Prop where
  sound : c'.Sound
  counts : ∀ i x, c'.Counts i x → c.Counts i x
  dep_le : c.dep ≤ c'.dep

theorem Counts.congr {i : Fin n} {x : Nat} (h : c.Counts i x) (hfast : c'.fast = c.fast)
    (hevent : c'.fastEvent = c.fastEvent) : c'.Counts i x := by
  rw [Counts, hfast, hevent]
  exact h

theorem Sound.quiet (h : c.Sound) (hfast : c'.fast = c.fast) (hevent : c'.fastEvent = c.fastEvent)
    (hinit : c'.initDep = c.initDep) (hdep : c'.dep = c.dep)
    (hphase : c'.phase = .fastAccept ↔ c.phase = .fastAccept) : Quiet c c' := by
  refine ⟨⟨?_, ?_, ?_, ?_, ?_, fun hn hno => ?_⟩, fun i x hx => hx.congr hfast.symm hevent.symm,
    hdep.ge⟩
  · rw [hphase, hdep, hinit]
    exact h.dep_eq
  · rw [hdep, hinit]
    exact h.initDep_le
  · rw [hfast, hinit]
    exact h.replied
  · rw [hevent, hinit, hfast]
    exact h.fed
  · rw [hevent]
    exact h.nodup
  · obtain ⟨F, hF, hFc⟩ := h.majority hn (fun hc => hno (hphase.mpr hc))
    refine ⟨F, hF, fun i hi => ?_⟩
    obtain ⟨x, hx, hcount⟩ := hFc i hi
    exact ⟨x, hdep ▸ hx, hcount.congr hfast hevent⟩

/-- The replies that satisfy a test come from as many replicas. -/
theorem Sound.exists_finset (h : c.Sound) (q : FastReply n → Bool) :
    ∃ F : Finset (Fin n), F.card = c.fastEvent.fed.countP q ∧
      ∀ i ∈ F, ∃ r ∈ c.fastEvent.fed, q r = true ∧ r.site = i := by
  have hnodup : ((c.fastEvent.fed.filter q).map (·.site)).Nodup :=
    h.nodup.sublist (List.filter_sublist.map _)
  refine ⟨((c.fastEvent.fed.filter q).map (·.site)).toFinset, ?_, fun i hi => ?_⟩
  · rw [List.toFinset_card_of_nodup hnodup, List.length_map, List.countP_eq_length_filter]
  · obtain ⟨r, hr, rfl⟩ := List.mem_map.mp (List.mem_toFinset.mp hi)
    obtain ⟨hmem, hq⟩ := List.mem_filter.mp hr
    exact ⟨r, hmem, hq, rfl⟩

theorem fed_feed {e e' : FastAcceptEvent n} {r : FastReply n} (h : e.feed r = some e') :
    e'.fed = e.fed ++ [r] := by
  unfold FastAcceptEvent.feed at h
  split_ifs at h
  cases h
  rfl

theorem majority_le_fastQuorumSize (hn : 2 ≤ n) : n / 2 + 1 ≤ fastQuorumSize n := by
  unfold fastQuorumSize maxFailure
  omega

theorem quiet_finishFast (hs : c.Sound) (h : c.finishFast = some c') : Quiet c c' := by
  obtain ⟨hphase, ⟨hyes, rfl⟩ | ⟨dep, hdep, rfl⟩⟩ := finishFast_cases h
  · refine ⟨⟨fun hno => ?_, hs.initDep_le, hs.replied, hs.fed, hs.nodup, fun hn _ => ?_⟩,
      fun i x hx => hx.congr rfl rfl, le_rfl⟩
    · cases hno
    · obtain ⟨F, hF, hFr⟩ := hs.exists_finset (fun r => r.yes && r.ok)
      have hquorum : fastQuorumSize n ≤ F.card := by
        rw [hF]
        exact of_decide_eq_true hyes
      refine ⟨F, (majority_le_fastQuorumSize hn).trans hquorum, fun i hi => ?_⟩
      obtain ⟨r, hr, hok, hsite⟩ := hFr i hi
      have hdep : r.dep = c.initDep := (hs.fed r hr).2.1 (by simp_all)
      exact ⟨r.dep, hdep.trans_le hs.initDep_le, .inr ⟨r, hr, hsite, rfl⟩⟩
  · have hget : c.fastEvent.retDeps.mergeSort[n / 2]? = some dep := by
      unfold FastAcceptEvent.getFinalDep at hdep
      split_ifs at hdep
      exact hdep
    have hmem : dep ∈ c.fastEvent.retDeps :=
      (List.mergeSort_perm _ _).mem_iff.mp (List.mem_of_getElem? hget)
    have hle : c.initDep ≤ dep := by
      obtain ⟨r, hr, rfl⟩ := List.mem_map.mp hmem
      exact (hs.fed r (List.mem_filter.mp hr).1).1
    refine ⟨⟨fun hno => ?_, hle, hs.replied, hs.fed, hs.nodup, fun _ _ => ?_⟩,
      fun i x hx => hx.congr rfl rfl, ?_⟩
    · cases hno
    · obtain ⟨F, hF, hFr⟩ := hs.exists_finset (fun r => decide (r.dep ≤ dep) && r.yes)
      have hcount : n / 2 + 1 ≤ F.card := by
        rw [hF]
        have hrank := Rank.countP_le_of_ascending _ hget
        rwa [FastAcceptEvent.retDeps, List.countP_map, List.countP_filter] at hrank
      refine ⟨F, hcount, fun i hi => ?_⟩
      obtain ⟨r, hr, hq, hsite⟩ := hFr i hi
      exact ⟨r.dep, by simp_all, .inr ⟨r, hr, hsite, rfl⟩⟩
    · rw [hs.dep_eq hphase]
      exact hle

theorem quiet_answerAccept (hs : c.Sound) (i : Fin n) (b : Nat) : Quiet c (c.answerAccept i b) := by
  unfold answerAccept
  split_ifs
  · exact hs.quiet rfl rfl rfl rfl Iff.rfl
  · exact hs.quiet rfl rfl rfl rfl Iff.rfl

theorem quiet_feedAccept (hs : c.Sound) {i : Fin n} (h : c.feedAccept i = some c') :
    Quiet c c' := by
  unfold feedAccept at h
  split at h
  · cases h
    exact hs.quiet rfl rfl rfl rfl Iff.rfl
  · cases h

theorem quiet_finishAccept (hs : c.Sound) (h : c.finishAccept = some c') : Quiet c c' := by
  unfold finishAccept at h
  split_ifs at h with hready
  cases h
  refine hs.quiet rfl rfl rfl rfl ⟨fun hno => ?_, fun hno => ?_⟩
  · cases hno
  · rw [hready.1] at hno
    cases hno

/-- The step counts at most the answer `x` of replica `i`. -/
structure Answers (c c' : Coordinator n α) (i : Fin n) (x : Nat) : Prop where
  sound : c'.Sound
  counts : ∀ j y, c'.Counts j y → j = i ∧ y = x ∨ c.Counts j y
  dep_eq : c'.dep = c.dep
  le : c.initDep ≤ x

theorem answers_feed (hs : c.Sound) {r : FastReply n} {e : FastAcceptEvent n}
    (he : c.fastEvent.feed r = some e) (hopen : c.fast r.site ≠ .done)
    (hreplied : ∀ b x, c.fast r.site = .replied (b, x) → x = r.dep) (hle : c.initDep ≤ r.dep)
    (hok : r.ok = true → r.dep = c.initDep) :
    Answers c { c with fast := Function.update c.fast r.site .done, fastEvent := e } r.site
      r.dep := by
  have hfed := fed_feed he
  have hcounts : ∀ j y, c.Counts j y → Coordinator.Counts
      { c with fast := Function.update c.fast r.site .done, fastEvent := e } j y := by
    rintro j y (⟨b, hb⟩ | ⟨q, hq, hsite, hdep⟩)
    · by_cases hj : j = r.site
      · subst hj
        exact .inr ⟨r, by simp [hfed], rfl, (hreplied b y hb).symm⟩
      · exact .inl ⟨b, by simpa [hj] using hb⟩
    · exact .inr ⟨q, by simp [hfed, hq], hsite, hdep⟩
  refine ⟨⟨hs.dep_eq, hs.initDep_le, fun j b x hj => ?_, fun q hq => ?_, ?_, fun hn hno => ?_⟩,
    fun j y => ?_, rfl, hle⟩
  · by_cases hjr : j = r.site
    · subst hjr
      simp at hj
    · exact hs.replied j b x (by simpa [hjr] using hj)
  · change q ∈ e.fed at hq
    rw [hfed, List.mem_append, List.mem_singleton] at hq
    rcases hq with hq | rfl
    · obtain ⟨hqle, hqok, hqdone⟩ := hs.fed q hq
      refine ⟨hqle, hqok, ?_⟩
      by_cases hjr : q.site = r.site
      · simp [hjr]
      · simpa [hjr] using hqdone
    · exact ⟨hle, hok, by simp⟩
  · rw [hfed, List.map_append, List.nodup_append]
    refine ⟨hs.nodup, by simp, ?_⟩
    intro a ha b hb heq
    obtain ⟨q, hq, rfl⟩ := List.mem_map.mp ha
    obtain rfl : b = r.site := by simpa using hb
    exact hopen (heq ▸ (hs.fed q hq).2.2)
  · obtain ⟨F, hF, hFc⟩ := hs.majority hn hno
    refine ⟨F, hF, fun j hj => ?_⟩
    obtain ⟨x, hx, hcount⟩ := hFc j hj
    exact ⟨x, hx, hcounts j x hcount⟩
  · rintro (⟨b, hb⟩ | ⟨q, hq, hsite, hdep⟩)
    · by_cases hj : j = r.site
      · subst hj
        simp at hb
      · exact .inr (.inl ⟨b, by simpa [hj] using hb⟩)
    · change q ∈ e.fed at hq
      rw [hfed, List.mem_append, List.mem_singleton] at hq
      rcases hq with hq | rfl
      · exact .inr (.inr ⟨q, hq, hsite, hdep⟩)
      · exact .inl ⟨hsite.symm, hdep.symm⟩

theorem quiet_feedFast (hs : c.Sound) {i : Fin n} (h : c.feedFast i = some c') : Quiet c c' := by
  unfold feedFast at h
  split at h
  · next b suggest hi =>
    obtain ⟨e, he, h⟩ := Option.bind_eq_some_iff.mp h
    cases h
    have hans := answers_feed hs he (by simp [hi]) (fun b' x hx => by simp_all)
      (hs.replied i b suggest hi) (by simp)
    refine ⟨hans.sound, fun j y hy => ?_, le_rfl⟩
    rcases hans.counts j y hy with ⟨rfl, rfl⟩ | hold
    · exact .inl ⟨b, hi⟩
    · exact hold
  · cases h

theorem answers_answerFast (hs : c.Sound) {i : Fin n} {b x : Nat} (hsent : c.fast i = .sent)
    (hle : c.initDep ≤ x) (h : c.answerFast i (b, x) = some c') :
    Answers c c' i (if i = c.host then c.initDep else x) := by
  unfold answerFast at h
  split_ifs at h ⊢ with hi
  · obtain ⟨e, he, h⟩ := Option.bind_eq_some_iff.mp h
    cases h
    exact answers_feed hs he (by simp [hsent]) (fun b' x' hx => by simp_all) le_rfl fun _ => rfl
  · cases h
    have hkeep : ∀ j, c.fast j ≠ .sent → Function.update c.fast i (.replied (b, x)) j = c.fast j := by
      intro j hj
      have hne : j ≠ i := fun heq => hj (heq ▸ hsent)
      rw [Function.update_of_ne hne]
    refine ⟨⟨hs.dep_eq, hs.initDep_le, fun j b' y hj => ?_, fun q hq => ?_, hs.nodup,
      fun hn hno => ?_⟩, fun j y => ?_, rfl, hle⟩
    · by_cases hji : j = i
      · subst hji
        simp only [Function.update_self, Rpc.replied.injEq, Prod.mk.injEq] at hj
        exact hj.2 ▸ hle
      · exact hs.replied j b' y (by simpa [hji] using hj)
    · obtain ⟨hqle, hqok, hqdone⟩ := hs.fed q hq
      exact ⟨hqle, hqok, (hkeep _ (by simp [hqdone])).trans hqdone⟩
    · obtain ⟨F, hF, hFc⟩ := hs.majority hn hno
      refine ⟨F, hF, fun j hj => ?_⟩
      obtain ⟨y, hy, hcount⟩ := hFc j hj
      refine ⟨y, hy, hcount.imp_left fun ⟨b', hb'⟩ => ⟨b', ?_⟩⟩
      exact (hkeep j (by simp [hb'])).trans hb'
    · rintro (⟨b', hb'⟩ | hfed)
      · by_cases hji : j = i
        · subst hji
          simp only [Function.update_self, Rpc.replied.injEq, Prod.mk.injEq] at hb'
          exact .inl ⟨rfl, hb'.2.symm⟩
        · exact .inr (.inl ⟨b', by simpa [hji] using hb'⟩)
      · exact .inr (.inr hfed)

end Coordinator

namespace CoverageInv

variable {s t : System n α} {p : Side} {slot : Nat} {i : Fin n} {r : CopilotServer α}

theorem erases (h : CoverageInv s) (hr : Erases (s.server i) r) :
    CoverageInv (s.setServer i r) where
  toWellFormed := h.toWellFormed.setServer hr.current_le
  sound := h.sound
  covered := h.covered
  deps j q k d hd := h.deps j q k d (System.entry_of_erases hr hd)

theorem writes (h : CoverageInv s) {d : CopilotData α} (hr : Writes (s.server i) r p slot d)
    (hd : d.depId = 0 ∨ ∃ c, s.coord p slot = some c ∧ d.depId ≤ c.dep) :
    CoverageInv (s.setServer i r) where
  toWellFormed := h.toWellFormed.setServer hr.current_le
  sound := h.sound
  covered := h.covered
  deps j q k e he := by
    obtain ⟨rfl, rfl, rfl⟩ | hold := System.entry_of_writes hr he
    · exact hd
    · exact h.deps j q k e hold

theorem found (h : CoverageInv s) (i : Fin n) (p : Side) (slot : Nat) :
    ((s.server i).found p slot).depId = 0 ∨
      ∃ c, s.coord p slot = some c ∧ ((s.server i).found p slot).depId ≤ c.dep := by
  unfold CopilotServer.found
  cases hd : (s.server i).entry p slot with
  | none => exact .inl rfl
  | some d => exact h.deps i p slot d hd

theorem setCoord (h : CoverageInv s) {c c' : Coordinator n α} (hc : s.coord p slot = some c)
    (hadv : c.Advances c') (hsound : c'.Sound) (hdep : c.dep ≤ c'.dep)
    (hcovered : ∀ k d, s.coord p.reverse k = some d → ∀ j x x', c'.Counts j x → d.Counts j x' →
      k ≤ x ∨ slot ≤ x' ∨ k ≤ c'.dep ∨ slot ≤ d.dep) :
    CoverageInv (s.setCoord p slot c') where
  toWellFormed := h.toWellFormed.setCoord hc hadv
  sound q k d hd := by
    by_cases hqk : q = p ∧ k = slot
    · obtain ⟨rfl, rfl⟩ := hqk
      rw [System.coord_setCoord_self] at hd
      cases hd
      exact hsound
    · rw [System.coord_setCoord_ne c' hqk] at hd
      exact h.sound q k d hd
  deps j q k d hd := by
    refine (h.deps j q k d hd).imp_right fun ⟨b, hb, hle⟩ => ?_
    by_cases hqk : q = p ∧ k = slot
    · obtain ⟨rfl, rfl⟩ := hqk
      obtain rfl : b = c := Option.some.inj (hb.symm.trans hc)
      exact ⟨c', System.coord_setCoord_self _ _ _, hle.trans hdep⟩
    · exact ⟨b, (System.coord_setCoord_ne c' hqk).trans hb, hle⟩
  covered q k k' d d' hd hd' j x x' hx hx' := by
    by_cases hqk : q = p ∧ k = slot
    · obtain ⟨rfl, rfl⟩ := hqk
      have hother : ¬ (q.reverse = q ∧ k' = k) := fun hno => Side.reverse_ne q hno.1
      rw [System.coord_setCoord_self] at hd
      rw [System.coord_setCoord_ne c' hother] at hd'
      cases hd
      exact hcovered k' d' hd' j x x' hx hx'
    · by_cases hqk' : q.reverse = p ∧ k' = slot
      · obtain ⟨rfl, rfl⟩ := hqk'
        rw [System.coord_setCoord_ne c' hqk] at hd
        rw [System.coord_setCoord_self] at hd'
        cases hd'
        have := hcovered k d (by simpa using hd) j x' x hx' hx
        omega
      · rw [System.coord_setCoord_ne c' hqk] at hd
        rw [System.coord_setCoord_ne c' hqk'] at hd'
        exact h.covered q k k' d d' hd hd' j x x' hx hx'

theorem quiet (h : CoverageInv s) {c c' : Coordinator n α} (hc : s.coord p slot = some c)
    (hadv : c.Advances c') (hq : c.Quiet c') : CoverageInv (s.setCoord p slot c') := by
  refine h.setCoord hc hadv hq.sound hq.dep_le fun k d hd j x x' hx hx' => ?_
  have hcover := h.covered p slot k c d hc hd j x x' (hq.counts j x hx) hx'
  have hle := hq.dep_le
  omega

theorem submit (h : CoverageInv s) {cmd : α} (hstep : s.submit i cmd = some t) : CoverageInv t := by
  have hwf := h.toWellFormed.submit hstep
  obtain ⟨p, hp, rfl⟩ := submit_eq_some hstep
  have hs := h.erases (pickInitSlotAndDep_rests (s.server i) p).erases
  have hnone := h.unassigned hp
  have hfresh : ∀ q k d, ¬ (q = p ∧ k = ((s.server i).logInfos p).currentSlot + 1) →
      (System.setCoord (s.setServer i ((s.server i).pickInitSlotAndDep p).1) p
        (((s.server i).logInfos p).currentSlot + 1) d).coord q k = s.coord q k :=
    fun q k d hqk => System.coord_setCoord_ne d hqk
  have hcount : ∀ (d : Coordinator n α), d.fast = (fun _ => .sent) → d.fastEvent = {} →
      ∀ j x, ¬ d.Counts j x := by
    rintro d hfast hevent j x (⟨b, hb⟩ | ⟨q, hq, -⟩)
    · rw [hfast] at hb
      cases hb
    · rw [hevent] at hq
      cases hq
  refine ⟨hwf, fun q k d hd => ?_, fun j q k d hd => ?_, fun q k k' d d' hd hd' j x x' hx hx' => ?_⟩
  · change (System.setCoord _ _ _ _).coord _ _ = _ at hd
    by_cases hqk : q = p ∧ k = ((s.server i).logInfos p).currentSlot + 1
    · obtain ⟨rfl, rfl⟩ := hqk
      rw [System.coord_setCoord_self] at hd
      cases hd
      refine ⟨fun _ => rfl, le_rfl, fun j b x hj => ?_, fun r hr => ?_, List.nodup_nil,
        fun _ hno => absurd rfl hno⟩
      · cases hj
      · cases hr
    · rw [hfresh q k _ hqk] at hd
      exact h.sound q k d hd
  · refine (hs.deps j q k d hd).imp_right fun ⟨b, hb, hle⟩ => ⟨b, ?_, hle⟩
    have hqk : ¬ (q = p ∧ k = ((s.server i).logInfos p).currentSlot + 1) := by
      rintro ⟨rfl, rfl⟩
      change s.coord _ _ = some b at hb
      rw [hnone] at hb
      cases hb
    exact (hfresh q k _ hqk).trans hb
  · change (System.setCoord _ _ _ _).coord _ _ = _ at hd hd'
    by_cases hqk : q = p ∧ k = ((s.server i).logInfos p).currentSlot + 1
    · obtain ⟨rfl, rfl⟩ := hqk
      rw [System.coord_setCoord_self] at hd
      cases hd
      exact absurd hx (hcount _ rfl rfl j x)
    · by_cases hqk' : q.reverse = p ∧ k' = ((s.server i).logInfos p).currentSlot + 1
      · obtain ⟨rfl, rfl⟩ := hqk'
        rw [System.coord_setCoord_self] at hd'
        cases hd'
        exact absurd hx' (hcount _ rfl rfl j x')
      · rw [hfresh q k _ hqk] at hd
        rw [hfresh q.reverse k' _ hqk'] at hd'
        exact h.covered q k k' d d' hd hd' j x x' hx hx'

/-- The check at this step sees the entry, or one of the two dependencies reaches far enough. -/
theorem seesEntry_of_counts (h : CoverageInv s) {c d : Coordinator n α} {k x : Nat}
    (hok : NoneHidden s (.deliverFast p slot i) = true) (hc : s.coord p slot = some c)
    (hd : s.coord p.reverse k = some d) (hx : d.Counts i x) (hlt : c.initDep < k) :
    seesEntry s p slot c i k = true := by
  have hhandled : (d.fast i).handled = true := by
    rcases hx with ⟨b, hb⟩ | ⟨r, hr, rfl, -⟩
    · rw [hb]
      rfl
    · rw [((h.sound p.reverse k d hd).fed r hr).2.2]
      rfl
  have hrange : k ∈ List.range (s.submitted p.reverse + 1) := by
    have := (h.slot p.reverse k d hd).2.2
    exact List.mem_range.mpr (by omega)
  simp only [NoneHidden, hc, List.all_eq_true] at hok
  have hk := hok k hrange
  simpa [hd, hhandled, hlt.not_ge] using hk

theorem deliverFast (h : CoverageInv s) (hok : NoneHidden s (.deliverFast p slot i) = true)
    (hstep : s.deliverFast p slot i = some t) : CoverageInv t := by
  obtain ⟨c, hc, hstep⟩ := Option.bind_eq_some_iff.mp hstep
  split_ifs at hstep with hsent
  have hsent : c.fast i = .sent := by
    cases hrpc : c.fast i <;> simp [hrpc] at hsent ⊢
  obtain ⟨⟨r, b, x⟩, hr, hstep⟩ := Option.bind_eq_some_iff.mp hstep
  obtain ⟨c', hc', hstep⟩ := Option.bind_eq_some_iff.mp hstep
  cases hstep
  have hsound := h.sound p slot c hc
  obtain ⟨-, hcases⟩ := CopilotServer.onFastAccept_cases hr
  have hle : c.initDep ≤ x := by
    rcases hcases with ⟨-, -, rfl⟩ | ⟨hsuggest, -⟩
    · exact le_rfl
    · exact le_suggestDep hsuggest
  have hserved : CoverageInv (s.setServer i r) := by
    obtain ⟨-, rfl, -⟩ | ⟨-, ⟨-, hw⟩ | ⟨-, hw⟩⟩ := hcases
    · exact h.erases (Rests.refl _).erases
    · exact h.writes hw (.inr ⟨c, hc, hsound.initDep_le⟩)
    · exact h.writes hw (h.found i p slot)
  have hans := Coordinator.answers_answerFast hsound hsent hle hc'
  refine hserved.setCoord hc (Coordinator.advances_answerFast hc') hans.sound hans.dep_eq.ge
    fun k d hd j y y' hy hy' => ?_
  rcases hans.counts j y hy with ⟨rfl, rfl⟩ | hold
  · by_cases hk : k ≤ c.initDep
    · exact .inl (hk.trans hans.le)
    have hsees := h.seesEntry_of_counts hok hc hd hy' (not_le.mp hk)
    unfold seesEntry at hsees
    split at hsees
    · cases hsees
    next e he =>
    by_cases hdep : slot ≤ e.depId
    · rcases h.deps j p.reverse k e he with hzero | ⟨d', hd', hle'⟩
      · have := (h.slot p slot c hc).1
        omega
      · obtain rfl : d' = d := Option.some.inj (hd'.symm.trans hd)
        exact .inr (.inr (.inr (hdep.trans hle')))
    · simp only [Bool.or_eq_true, decide_eq_true_eq, Bool.and_eq_true, bne_iff_ne,
        Bool.not_eq_true'] at hsees
      obtain ⟨⟨⟨⟨hhost, hfreed⟩, hinit⟩, hzero⟩, hmax⟩ := hsees.resolve_left hdep
      rcases hcases with ⟨hf, -⟩ | ⟨hsuggest, -⟩
      · rw [hfreed] at hf
        cases hf
      · rw [if_neg hhost]
        exact .inl (suggestDep_covers hsuggest hinit he (not_le.mp hk) hmax hzero (not_le.mp hdep))
  · have hcover := h.covered p slot k c d hc hd j y y' hold hy'
    rw [hans.dep_eq]
    exact hcover

theorem deliverAccept (h : CoverageInv s) (hstep : s.deliverAccept p slot i = some t) :
    CoverageInv t := by
  obtain ⟨c, hc, hstep⟩ := Option.bind_eq_some_iff.mp hstep
  split_ifs at hstep
  cases hstep
  have hserved : CoverageInv
      (s.setServer i ((s.server i).onAccept p slot c.ballot c.dep c.cmd).1) := by
    obtain ⟨-, ⟨-, he⟩ | ⟨-, hw⟩ | ⟨-, hw⟩⟩ := CopilotServer.onAccept_cases
      (Prod.mk.eta (p := (s.server i).onAccept p slot c.ballot c.dep c.cmd)).symm
    · exact h.erases he.erases
    · exact h.writes hw (.inr ⟨c, hc, le_rfl⟩)
    · exact h.writes hw (h.found i p slot)
  exact hserved.quiet hc (Coordinator.advances_answerAccept i _)
    (Coordinator.quiet_answerAccept (h.sound p slot c hc) i _)

theorem deliverCommit (h : CoverageInv s) (hstep : s.deliverCommit p slot i = some t) :
    CoverageInv t := by
  obtain ⟨c, r, hc, hsent, hr, rfl⟩ := System.deliverCommit_eq_some hstep
  have hserved : CoverageInv (s.setServer i r) := by
    rcases CopilotServer.onCommit_cases hr with ⟨-, he⟩ | ⟨-, hw⟩ | ⟨-, hw⟩
    · exact h.erases he.erases
    · exact h.writes hw (h.found i p slot)
    · exact h.writes hw (h.found i p slot)
  exact hserved.quiet hc (Coordinator.advances_deliveredCommit hsent)
    ((h.sound p slot c hc).quiet rfl rfl rfl rfl Iff.rfl)

theorem step {e : Event n α} (h : CoverageInv s) (hok : NoneHidden s e = true)
    (hstep : Copilot.step s e = some t) : CoverageInv t := by
  cases e with
  | submit i cmd => exact h.submit hstep
  | deliverFast p slot i => exact h.deliverFast hok hstep
  | feedFast p slot i =>
    obtain ⟨c, c', hc, hc', rfl⟩ := System.setCoord_eq_some hstep
    exact h.quiet hc (Coordinator.advances_feedFast hc')
      (Coordinator.quiet_feedFast (h.sound p slot c hc) hc')
  | finishFast p slot =>
    obtain ⟨c, c', hc, hc', rfl⟩ := System.setCoord_eq_some hstep
    exact h.quiet hc (Coordinator.advances_finishFast hc')
      (Coordinator.quiet_finishFast (h.sound p slot c hc) hc')
  | deliverAccept p slot i => exact h.deliverAccept hstep
  | feedAccept p slot i =>
    obtain ⟨c, c', hc, hc', rfl⟩ := System.setCoord_eq_some hstep
    exact h.quiet hc (Coordinator.advances_feedAccept hc')
      (Coordinator.quiet_feedAccept (h.sound p slot c hc) hc')
  | finishAccept p slot =>
    obtain ⟨c, c', hc, hc', rfl⟩ := System.setCoord_eq_some hstep
    exact h.quiet hc (Coordinator.advances_finishAccept hc')
      (Coordinator.quiet_finishAccept (h.sound p slot c hc) hc')
  | deliverCommit p slot i => exact h.deliverCommit hstep
  | executeCmd i p slot =>
    obtain ⟨r, hr, rfl⟩ := Option.map_eq_some_iff.mp hstep
    obtain he | hw | ⟨-, hw⟩ := CopilotServer.executeCmd_cases hr
    · exact h.erases he.erases
    · exact h.writes hw (h.found i p slot)
    · exact h.writes hw (h.found i p slot)
  | eliminateNullDep i p slot all =>
    obtain ⟨r, hr, rfl⟩ := Option.map_eq_some_iff.mp hstep
    obtain hw | ⟨-, -, -, hw⟩ := CopilotServer.eliminateNullDep_cases hr
    · exact h.writes hw (h.found i p slot)
    · exact h.writes hw (h.found i p slot)
  | freeCmds i p =>
    obtain ⟨r, hr, rfl⟩ := Option.map_eq_some_iff.mp hstep
    exact h.erases (CopilotServer.freeCmds_erases hr)

end CoverageInv

theorem coverageInv_init : CoverageInv (System.init : System n α) where
  toWellFormed := wellFormed_init
  sound p k c hc := by cases hc
  covered p k k' c c' hc := by cases hc
  deps i p k d hd := by
    by_cases hk : k = 0
    · subst hk
      cases hd
      exact .inl rfl
    · rw [System.init, CopilotServer.entry, CopilotServer.setup,
        CopilotLogInfo.entry_set_ne _ _ hk] at hd
      cases hd

/-- For any number of replicas. -/
theorem committed_entries_covered {s : System n α}
    (h : ReachableWhere step (fun s e => NoneHidden s e = true) System.init s) :
    DependencyCoverage s :=
  (ReachableWhere.invariant (I := CoverageInv) (fun _ _ _ hs hok ht => hs.step hok ht) h
    coverageInv_init).coverage

section Runs

def commitWith (p : Side) (slot : Nat) (host i : Fin n) : List (Event n Nat) :=
  [.deliverFast p slot host, .deliverFast p slot i, .feedFast p slot i, .finishFast p slot]

def finalDep (s : System n Nat) (p : Side) (slot : Nat) : Option Nat :=
  (s.coord p slot).bind fun c => if c.phase = .commit then some c.dep else none

end Runs

/-- The pilot sees the copilot's entry before it proposes its own. -/
theorem committed_entries_covered_in_turn :
    ∃ s : System 3 Nat, ReachableWhere step (fun s e => NoneHidden s e = true) System.init s ∧
      finalDep s .copilot 1 = some 0 ∧ finalDep s .pilot 1 = some 1 ∧ DependencyCoverage s := by
  have hrun : (runWhere step (fun s e => NoneHidden s e = true) System.init
      (.submit (1 : Fin 3) 20 :: commitWith .copilot 1 1 0 ++
        .submit 0 10 :: commitWith .pilot 1 0 2)).any
        (fun s => finalDep s .copilot 1 == some 0 && finalDep s .pilot 1 == some 1) = true := by
    decide +kernel
  obtain ⟨s, hs, hp⟩ := exists_reachableWhere hrun
  simp only [Bool.and_eq_true, beq_iff_eq] at hp
  exact ⟨s, hs, hp.1, hp.2, committed_entries_covered hs⟩

/-- Both pilots propose their first entries with dependency 0, which no replica checks. -/
theorem committed_entries_not_covered :
    ∃ s : System 3 Nat, Reachable step System.init s ∧
      finalDep s .copilot 1 = some 0 ∧ finalDep s .pilot 1 = some 0 ∧ ¬ DependencyCoverage s := by
  have hrun : (runWhere step (fun _ _ => True) System.init
      (.submit (1 : Fin 3) 20 :: .submit 0 10 ::
        commitWith .copilot 1 1 2 ++ commitWith .pilot 1 0 2)).any
        (fun s => finalDep s .copilot 1 == some 0 && finalDep s .pilot 1 == some 0) = true := by
    decide +kernel
  obtain ⟨s, hs, hp⟩ := exists_reachableWhere hrun
  simp only [Bool.and_eq_true, beq_iff_eq] at hp
  refine ⟨s, hs, hp.1, hp.2, fun hcover => ?_⟩
  obtain ⟨c', hc', hfinal'⟩ := Option.bind_eq_some_iff.mp hp.1
  obtain ⟨c, hc, hfinal⟩ := Option.bind_eq_some_iff.mp hp.2
  split_ifs at hfinal hfinal' with hphase hphase'
  have hreach := hcover .pilot 1 1 c c' hc hc' hphase hphase'
  rw [Option.some.inj hfinal, Option.some.inj hfinal'] at hreach
  omega

end Jetpack.Copilot
