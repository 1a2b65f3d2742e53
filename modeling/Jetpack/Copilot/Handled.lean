import Jetpack.Copilot.System

/-! What the requests that a replica has handled leave in an entry: the ballot of its coordinator, the
dependency of the last FastAccept or Accept, and the commit event. -/

namespace Jetpack.Copilot

variable {n : Nat} {α : Type}

/-- A FastAccept that comes after the Accept or the Commit of its entry carries the final dependency. A
Commit finds an Accept handled, or else a FastAccept with the same dependency, or else a dependency that
says that there is none. `EliminateNullDep` marks an entry only after its Commit. Where the slot was
freed, no message changes anything. -/
def KeepsDependency (s : System n α) : Event n α → Bool
  | .deliverFast p slot i =>
    match s.coord p slot with
    | some c => ((s.server i).logInfos p).freed slot || c.initDep == c.dep ||
      !((c.accept i).handled || (c.commit i).handled)
    | none => true
  | .deliverCommit p slot i =>
    match s.coord p slot with
    | some c => ((s.server i).logInfos p).freed slot || (c.accept i).handled ||
      (if (c.fast i).handled then c.initDep == c.dep else c.dep == 0)
    | none => true
  | .eliminateNullDep i p slot all =>
    !all || ((s.server i).found p slot).status.toNat < Status.fastAccepted.toNat ||
      ((s.server i).found p slot).status == .executed ||
      match s.coord p slot with
      | some c => (c.commit i).handled
      | none => false
  | _ => true

def Coordinator.givenDep (c : Coordinator n α) (i : Fin n) : Nat :=
  if (c.accept i).handled then c.dep else if (c.fast i).handled then c.initDep else 0

structure Given (c : Coordinator n α) (i : Fin n) (d : CopilotData α) : Prop where
  ballot : d.ballot ≤ c.ballot
  dep : d.depId = c.givenDep i
  commit : (c.commit i).handled = true → d.cmitEvt = true

/-- What a replica has at a slot, given the coordinator of the slot and whether the slot was freed. -/
structure Holds (coord : Option (Coordinator n α)) (i : Fin n) (gone : Bool)
    (e : Option (CopilotData α)) : Prop where
  freed : gone = true → e = none
  fresh : coord = none → (e.getD {}).ballot = 0 ∧ (e.getD {}).depId = 0 ∧ (e.getD {}).cmitEvt = false
  given : ∀ c, coord = some c → gone = false → Given c i (e.getD {})
  event : ∀ c, coord = some c → (e.getD {}).cmitEvt = true → (c.commit i).handled = true
  accept : ∀ c, coord = some c → c.phase = .fastAccept → c.accept i = .idle

structure HeldInv (s : System n α) : Prop where
  active : ∀ i p, 1 ≤ ((s.server i).logInfos p).minActiveSlot
  holds : ∀ i p slot, Holds (s.coord p slot) i (((s.server i).logInfos p).freed slot)
    ((s.server i).entry p slot)

/-- A step of a coordinator that handles no request at the replica `i`. -/
structure Coordinator.Waits (c c' : Coordinator n α) (i : Fin n) : Prop where
  ballot : c'.ballot = c.ballot
  given : c'.givenDep i = c.givenDep i
  accept : c'.phase = .fastAccept →
    c.phase = .fastAccept ∧ (c.accept i = .idle → c'.accept i = .idle)
  commit : (c'.commit i).handled = (c.commit i).handled

theorem Holds.waits {c c' : Coordinator n α} {i : Fin n} {gone : Bool}
    {e : Option (CopilotData α)} (h : Holds (some c) i gone e) (hw : c.Waits c' i) :
    Holds (some c') i gone e where
  freed := h.freed
  fresh hnone := by cases hnone
  given b hb hlive := by
    obtain rfl := Option.some.inj hb
    obtain ⟨hballot, hdep, hcommit⟩ := h.given c rfl hlive
    exact ⟨hw.ballot ▸ hballot, hdep.trans hw.given.symm, fun hc => hcommit (hw.commit ▸ hc)⟩
  event b hb hevt := by
    obtain rfl := Option.some.inj hb
    rw [hw.commit]
    exact h.event c rfl hevt
  accept b hb hphase := by
    obtain rfl := Option.some.inj hb
    obtain ⟨hold, hidle⟩ := hw.accept hphase
    exact hidle (h.accept c rfl hold)

/-- A handler writes an entry with the ballot, dependency and event of the one that it found. -/
theorem Holds.update {o : Option (Coordinator n α)} {i : Fin n} {e : Option (CopilotData α)}
    {d : CopilotData α} (h : Holds o i false e) (hballot : d.ballot = (e.getD {}).ballot)
    (hdep : d.depId = (e.getD {}).depId) (hevt : d.cmitEvt = (e.getD {}).cmitEvt) :
    Holds o i false (some d) where
  freed hfalse := by cases hfalse
  fresh hnone := by
    show d.ballot = 0 ∧ d.depId = 0 ∧ d.cmitEvt = false
    rw [hballot, hdep, hevt]
    exact h.fresh hnone
  given c hc hlive := by
    have hgiven := h.given c hc hlive
    exact ⟨hballot ▸ hgiven.ballot, hdep.trans hgiven.dep, fun hc => hevt.trans (hgiven.commit hc)⟩
  event c hc hd := h.event c hc (hevt.symm.trans hd)
  accept := h.accept

theorem freed_eq_of_active {info info' : CopilotLogInfo α}
    (h : info'.minActiveSlot = info.minActiveSlot) (slot : Nat) :
    info'.freed slot = info.freed slot := by
  unfold CopilotLogInfo.freed
  rw [h]

theorem HeldInv.rests {s : System n α} (h : HeldInv s) {i : Fin n} {r : CopilotServer α}
    (hr : Rests (s.server i) r) : HeldInv (s.setServer i r) := by
  constructor
  · intro j p
    by_cases hj : j = i
    · subst hj
      rw [System.server_setServer_self, hr.active_eq]
      exact h.active j p
    · rw [System.server_setServer_ne _ hj]
      exact h.active j p
  · intro j p slot
    by_cases hj : j = i
    · subst hj
      rw [System.server_setServer_self, freed_eq_of_active (hr.active_eq p), hr.entry_eq]
      exact h.holds j p slot
    · rw [System.server_setServer_ne _ hj]
      exact h.holds j p slot

theorem HeldInv.writes {s : System n α} (h : HeldInv s) {i : Fin n} {r : CopilotServer α}
    {p : Side} {slot : Nat} {d : CopilotData α} (hr : Writes (s.server i) r p slot d)
    (hd : Holds (s.coord p slot) i false (some d)) : HeldInv (s.setServer i r) := by
  constructor
  · intro j q
    by_cases hj : j = i
    · subst hj
      rw [System.server_setServer_self, hr.active_eq]
      exact h.active j q
    · rw [System.server_setServer_ne _ hj]
      exact h.active j q
  · intro j q k
    by_cases hj : j = i
    · subst hj
      rw [System.server_setServer_self, freed_eq_of_active (hr.active_eq q)]
      by_cases hqk : q = p ∧ k = slot
      · obtain ⟨rfl, rfl⟩ := hqk
        rw [hr.entry_self, hr.live]
        exact hd
      · rw [hr.entry_ne q k hqk]
        exact h.holds j q k
    · rw [System.server_setServer_ne _ hj]
      exact h.holds j q k

theorem HeldInv.setCoord {s : System n α} (h : HeldInv s) {p : Side} {slot : Nat}
    {c c' : Coordinator n α} (hc : s.coord p slot = some c) (hw : ∀ i, c.Waits c' i) :
    HeldInv (s.setCoord p slot c') := by
  refine ⟨h.active, fun i q k => ?_⟩
  have hold := h.holds i q k
  by_cases hqk : q = p ∧ k = slot
  · obtain ⟨rfl, rfl⟩ := hqk
    rw [hc] at hold
    rw [System.coord_setCoord_self]
    exact hold.waits (hw i)
  · rw [System.coord_setCoord_ne c' hqk]
    exact hold

theorem HeldInv.deliver {s : System n α} (h : HeldInv s) {p : Side} {slot : Nat} {i : Fin n}
    {c c' : Coordinator n α} {r : CopilotServer α} (hc : s.coord p slot = some c)
    (hr : ((s.server i).logInfos p).freed slot = true ∧ Rests (s.server i) r ∨
      ∃ d, Writes (s.server i) r p slot d ∧ Given c' i d)
    (hother : ∀ j, j ≠ i → c.Waits c' j)
    (hevent : ∀ d, r.entry p slot = some d → d.cmitEvt = true → (c'.commit i).handled = true)
    (haccept : c'.phase = .fastAccept → c'.accept i = .idle) :
    HeldInv ((s.setServer i r).setCoord p slot c') := by
  have hself : Holds (some c') i ((r.logInfos p).freed slot) (r.entry p slot) := by
    rcases hr with ⟨hfreed, hrests⟩ | ⟨d, hw, hgiven⟩
    · have hnone : r.entry p slot = none :=
        (hrests.entry_eq p slot).trans ((h.holds i p slot).freed hfreed)
      rw [freed_eq_of_active (hrests.active_eq p), hfreed, hnone]
      refine ⟨fun _ => rfl, fun hno => ?_, fun _ _ hno => ?_, fun _ _ hno => ?_, fun b hb => ?_⟩
      · cases hno
      · cases hno
      · cases hno
      · obtain rfl := Option.some.inj hb
        exact haccept
    · rw [freed_eq_of_active (hw.active_eq p), hw.live, hw.entry_self]
      refine ⟨fun hno => ?_, fun hno => ?_, fun b hb _ => ?_, fun b hb hevt => ?_, fun b hb => ?_⟩
      · cases hno
      · cases hno
      · obtain rfl := Option.some.inj hb
        exact hgiven
      · obtain rfl := Option.some.inj hb
        exact hevent d hw.entry_self hevt
      · obtain rfl := Option.some.inj hb
        exact haccept
  have hne : ∀ q k, ¬ (q = p ∧ k = slot) → r.entry q k = (s.server i).entry q k := by
    rcases hr with ⟨-, hrests⟩ | ⟨d, hw, -⟩
    · exact fun q k _ => hrests.entry_eq q k
    · exact hw.entry_ne
  have hactive : ∀ q, (r.logInfos q).minActiveSlot = ((s.server i).logInfos q).minActiveSlot := by
    rcases hr with ⟨-, hrests⟩ | ⟨d, hw, -⟩
    · exact hrests.active_eq
    · exact hw.active_eq
  refine ⟨fun j q => ?_, fun j q k => ?_⟩
  · show 1 ≤ (((s.setServer i r).server j).logInfos q).minActiveSlot
    by_cases hj : j = i
    · subst hj
      rw [System.server_setServer_self, hactive]
      exact h.active j q
    · rw [System.server_setServer_ne _ hj]
      exact h.active j q
  · show Holds _ j ((((s.setServer i r).server j).logInfos q).freed k)
      (((s.setServer i r).server j).entry q k)
    have hold := h.holds j q k
    by_cases hqk : q = p ∧ k = slot
    · obtain ⟨rfl, rfl⟩ := hqk
      rw [System.coord_setCoord_self]
      by_cases hj : j = i
      · subst hj
        rw [System.server_setServer_self]
        exact hself
      · rw [System.server_setServer_ne _ hj]
        rw [hc] at hold
        exact hold.waits (hother j hj)
    · rw [System.coord_setCoord_ne c' hqk]
      by_cases hj : j = i
      · subst hj
        rw [System.server_setServer_self, freed_eq_of_active (hactive q), hne q k hqk]
        exact hold
      · rw [System.server_setServer_ne _ hj]
        exact hold

namespace Coordinator

variable {c c' : Coordinator n α}

theorem givenDep_congr {i : Fin n} (haccept : (c'.accept i).handled = (c.accept i).handled)
    (hfast : (c'.fast i).handled = (c.fast i).handled) (hinit : c'.initDep = c.initDep)
    (hdep : (c.accept i).handled = true → c'.dep = c.dep) : c'.givenDep i = c.givenDep i := by
  unfold givenDep
  rw [haccept, hfast, hinit]
  split
  · next h => exact hdep h
  · rfl

theorem waits_of_calls {i : Fin n} (hballot : c'.ballot = c.ballot) (hinit : c'.initDep = c.initDep)
    (hdep : c'.dep = c.dep) (hphase : c'.phase = c.phase)
    (hfast : (c'.fast i).handled = (c.fast i).handled)
    (haccept : (c'.accept i).handled = (c.accept i).handled)
    (hidle : c.accept i = .idle → c'.accept i = .idle)
    (hcommit : (c'.commit i).handled = (c.commit i).handled) : c.Waits c' i where
  ballot := hballot
  given := givenDep_congr haccept hfast hinit fun _ => hdep
  accept h := ⟨hphase.symm.trans h, hidle⟩
  commit := hcommit

theorem answerFast_spec {i : Fin n} {r : Nat × Nat} (h : c.answerFast i r = some c') :
    (c'.fast i).handled = true ∧ c'.ballot = c.ballot ∧ c'.initDep = c.initDep ∧ c'.dep = c.dep ∧
      c'.phase = c.phase ∧ c'.accept = c.accept ∧ c'.commit = c.commit ∧
      ∀ j, j ≠ i → c'.fast j = c.fast j := by
  unfold answerFast at h
  split_ifs at h
  · obtain ⟨e, -, h⟩ := Option.bind_eq_some_iff.mp h
    cases h
    exact ⟨by simp [Rpc.handled], rfl, rfl, rfl, rfl, rfl, rfl,
      fun j hj => Function.update_of_ne hj _ _⟩
  · cases h
    exact ⟨by simp [Rpc.handled], rfl, rfl, rfl, rfl, rfl, rfl,
      fun j hj => Function.update_of_ne hj _ _⟩

theorem waits_feedFast {i : Fin n} (h : c.feedFast i = some c') (j : Fin n) : c.Waits c' j := by
  unfold feedFast at h
  split at h
  · next heq =>
    obtain ⟨e, -, h⟩ := Option.bind_eq_some_iff.mp h
    cases h
    refine waits_of_calls rfl rfl rfl rfl ?_ rfl id rfl
    by_cases hj : j = i
    · subst hj
      simp [heq, Rpc.handled]
    · simp [hj]
  · cases h

/-- The end of the FastAccept round sets the dependency, before any Accept or Commit is sent. -/
theorem waits_finishFast {j : Fin n} (h : c.finishFast = some c')
    (haccept : c.phase = .fastAccept → c.accept j = .idle)
    (hcommit : (c.commit j).handled = true → c.phase = .commit) : c.Waits c' j := by
  obtain ⟨hphase, hcases⟩ := finishFast_cases h
  have hnone : (c.accept j).handled = false := by
    rw [haccept hphase, Rpc.handled]
  have hidle : (c.commit j).handled = false := by
    rw [← Bool.not_eq_true]
    intro hyes
    rw [hcommit hyes] at hphase
    cases hphase
  rcases hcases with ⟨-, rfl⟩ | ⟨dep, -, rfl⟩
  · refine ⟨rfl, rfl, fun hno => ?_, hidle.symm⟩
    cases hno
  · refine ⟨rfl, givenDep_congr (by rw [hnone]; rfl) rfl rfl fun hyes => ?_, fun hno => ?_, rfl⟩
    · rw [hnone] at hyes
      cases hyes
    · cases hno

theorem answerAccept_spec {i : Fin n} {b : Nat} (h : c.answerAccept i b = c') :
    (c'.accept i).handled = true ∧ c'.ballot = c.ballot ∧ c'.initDep = c.initDep ∧ c'.dep = c.dep ∧
      c'.phase = c.phase ∧ c'.fast = c.fast ∧ c'.commit = c.commit ∧
      ∀ j, j ≠ i → c'.accept j = c.accept j := by
  subst h
  unfold answerAccept
  split_ifs
  · exact ⟨by simp [Rpc.handled], rfl, rfl, rfl, rfl, rfl, rfl,
      fun j hj => Function.update_of_ne hj _ _⟩
  · exact ⟨by simp [Rpc.handled], rfl, rfl, rfl, rfl, rfl, rfl,
      fun j hj => Function.update_of_ne hj _ _⟩

theorem waits_feedAccept {i : Fin n} (h : c.feedAccept i = some c') (j : Fin n) :
    c.Waits c' j := by
  unfold feedAccept at h
  split at h
  · next heq =>
    cases h
    refine waits_of_calls rfl rfl rfl rfl rfl ?_ (fun hidle => ?_) rfl
    · by_cases hj : j = i
      · subst hj
        simp [heq, Rpc.handled]
      · simp [hj]
    · have hj : j ≠ i := by
        rintro rfl
        rw [hidle] at heq
        cases heq
      exact (Function.update_of_ne hj _ _).trans hidle
  · cases h

theorem waits_finishAccept {j : Fin n} (h : c.finishAccept = some c')
    (hcommit : (c.commit j).handled = true → c.phase = .commit) : c.Waits c' j := by
  unfold finishAccept at h
  split_ifs at h with hready
  cases h
  refine ⟨rfl, rfl, fun hno => ?_, ?_⟩
  · cases hno
  · cases hhandled : (c.commit j).handled with
    | false => rfl
    | true =>
      have hphase := hcommit hhandled
      rw [hready.1] at hphase
      cases hphase

end Coordinator

theorem WellFormed.handled {s : System n α} (h : WellFormed s) {p : Side} {slot : Nat}
    {c : Coordinator n α} (hc : s.coord p slot = some c) (i : Fin n)
    (hhandled : (c.commit i).handled = true) : c.phase = .commit := by
  refine h.sent p slot c hc ⟨i, fun hidle => ?_⟩
  rw [hidle] at hhandled
  cases hhandled

namespace HeldInv

variable {s t : System n α} {p : Side} {slot : Nat} {i : Fin n}

theorem submit (h : HeldInv s) (hs : WellFormed s) {cmd : α} (hstep : s.submit i cmd = some t) :
    HeldInv t := by
  obtain ⟨p, hp, rfl⟩ := submit_eq_some hstep
  have hr := h.rests (pickInitSlotAndDep_rests (s.server i) p)
  refine ⟨hr.active, fun j q k => ?_⟩
  have hold := hr.holds j q k
  by_cases hqk : q = p ∧ k = ((s.server i).logInfos p).currentSlot + 1
  · obtain ⟨rfl, rfl⟩ := hqk
    have hnone := hs.unassigned hp
    change s.coord _ _ = _ at hnone
    change Holds (s.coord _ _) _ _ _ at hold
    rw [hnone] at hold
    obtain ⟨hballot, hdep, hevt⟩ := hold.fresh rfl
    show Holds ((System.setCoord _ _ _ _).coord _ _) _ _ _
    rw [System.coord_setCoord_self]
    refine ⟨hold.freed, fun hno => ?_, fun b hb _ => ?_, fun b hb hyes => ?_, fun b hb hyes => ?_⟩
    · cases hno
    · obtain rfl := Option.some.inj hb
      refine ⟨hballot.trans_le (Nat.zero_le _), hdep, fun hno => ?_⟩
      cases hno
    · exact absurd hyes (Bool.eq_false_iff.mp hevt)
    · obtain rfl := Option.some.inj hb
      rfl
  · show Holds ((System.setCoord _ _ _ _).coord _ _) _ _ _
    rw [System.coord_setCoord_ne _ hqk]
    exact hold

theorem deliverFast (h : HeldInv s) (hok : KeepsDependency s (.deliverFast p slot i) = true)
    (hstep : s.deliverFast p slot i = some t) : HeldInv t := by
  obtain ⟨c, hc, hstep⟩ := Option.bind_eq_some_iff.mp hstep
  split_ifs at hstep
  obtain ⟨⟨r, reply⟩, hr, hstep⟩ := Option.bind_eq_some_iff.mp hstep
  obtain ⟨c', hc', hstep⟩ := Option.bind_eq_some_iff.mp hstep
  cases hstep
  have hold := h.holds i p slot
  rw [hc] at hold
  obtain ⟨hfast, hballot, hinit, hdep, hphase, haccept, hcommit, hne⟩ :=
    Coordinator.answerFast_spec hc'
  have hother : ∀ j, j ≠ i → c.Waits c' j := fun j hj =>
    Coordinator.waits_of_calls hballot hinit hdep hphase (by rw [hne j hj]) (by rw [haccept])
      (by rw [haccept]; exact id) (by rw [hcommit])
  have hphase' : c'.phase = .fastAccept → c'.accept i = .idle := by
    rw [haccept, hphase]
    exact hold.accept c rfl
  obtain ⟨-, ⟨hgone, rfl, -⟩ | ⟨-, ⟨-, hw⟩ | ⟨hlt, hw⟩⟩⟩ := CopilotServer.onFastAccept_cases hr
  · refine h.deliver hc (.inl ⟨hgone, Rests.refl _⟩) hother (fun d hd hevt => ?_) hphase'
    have hnone := hold.freed hgone
    rw [hd] at hnone
    cases hnone
  · rw [hw.live] at hold
    have hgiven := hold.given c rfl rfl
    refine h.deliver hc (.inr ⟨_, hw, ?_, ?_, ?_⟩) hother (fun d hd hevt => ?_) hphase'
    · exact hballot.ge
    · -- after the Accept, a FastAccept has the final dependency
      show c.initDep = c'.givenDep i
      unfold Coordinator.givenDep
      rw [haccept, hfast, hdep, hinit]
      by_cases hhandled : (c.accept i).handled = true
      · rw [if_pos hhandled]
        simpa [KeepsDependency, hc, hw.live, hhandled] using hok
      · rw [if_neg hhandled, if_pos rfl]
    · rw [hcommit]
      exact hgiven.commit
    · rw [hcommit]
      rw [hw.entry_self] at hd
      obtain rfl := Option.some.inj hd
      exact hold.event c rfl hevt
  · rw [hw.live] at hold
    exact absurd (hold.given c rfl rfl).ballot (not_le.mpr hlt)

theorem deliverAccept (h : HeldInv s) (hstep : s.deliverAccept p slot i = some t) : HeldInv t := by
  obtain ⟨c, hc, hstep⟩ := Option.bind_eq_some_iff.mp hstep
  split_ifs at hstep with hsent
  cases hstep
  have hold := h.holds i p slot
  rw [hc] at hold
  generalize hc' : c.answerAccept i _ = c'
  obtain ⟨hhandled, hballot, hinit, hdep, hphase, hfast, hcommit, hne⟩ :=
    Coordinator.answerAccept_spec hc'
  have hother : ∀ j, j ≠ i → c.Waits c' j := fun j hj =>
    Coordinator.waits_of_calls hballot hinit hdep hphase (by rw [hfast]) (by rw [hne j hj])
      (by rw [hne j hj]; exact id) (by rw [hcommit])
  have hlate : c.phase ≠ .fastAccept := by
    intro hno
    rw [hold.accept c rfl hno] at hsent
    cases hsent
  have hphase' : c'.phase = .fastAccept → c'.accept i = .idle := fun hno =>
    absurd (hphase.symm.trans hno) hlate
  obtain ⟨-, ⟨hgone, he⟩ | ⟨-, hw⟩ | ⟨hlt, hw⟩⟩ := CopilotServer.onAccept_cases
    (Prod.mk.eta (p := (s.server i).onAccept p slot c.ballot c.dep c.cmd)).symm
  · refine h.deliver hc (.inl ⟨hgone, he⟩) hother (fun d hd hevt => ?_) hphase'
    cases hd.symm.trans ((he.entry_eq p slot).trans (hold.freed hgone))
  · rw [hw.live] at hold
    have hgiven := hold.given c rfl rfl
    refine h.deliver hc (.inr ⟨_, hw, ?_, ?_, ?_⟩) hother (fun d hd hevt => ?_) hphase'
    · exact hballot.ge
    · show c.dep = c'.givenDep i
      unfold Coordinator.givenDep
      rw [if_pos hhandled, hdep]
    · rw [hcommit]
      exact hgiven.commit
    · rw [hcommit]
      obtain rfl := Option.some.inj (hw.entry_self.symm.trans hd)
      exact hold.event c rfl hevt
  · rw [hw.live] at hold
    exact absurd (hold.given c rfl rfl).ballot (not_le.mpr hlt)

theorem deliverCommit (h : HeldInv s)
    (hdecided : Status.commited.toNat ≤ ((s.server i).found p slot).status.toNat →
      ((s.server i).found p slot).cmitEvt = true)
    (hstep : s.deliverCommit p slot i = some t) : HeldInv t := by
  obtain ⟨c, r, hc, -, hr, rfl⟩ := System.deliverCommit_eq_some hstep
  have hold := h.holds i p slot
  rw [hc] at hold
  have hhandled : ((c.deliveredCommit i).commit i).handled = true := by
    simp [Coordinator.deliveredCommit, Rpc.handled]
  have hother : ∀ j, j ≠ i → c.Waits (c.deliveredCommit i) j := fun j hj =>
    Coordinator.waits_of_calls rfl rfl rfl rfl rfl rfl id (by simp [Coordinator.deliveredCommit, hj])
  rcases CopilotServer.onCommit_cases hr with ⟨hgone, he⟩ | ⟨hle, hw⟩ | ⟨hlt, hw⟩
  · exact h.deliver hc (.inl ⟨hgone, he⟩) hother (fun _ _ _ => hhandled) (hold.accept c rfl)
  · rw [hw.live] at hold
    have hgiven := hold.given c rfl rfl
    refine h.deliver hc (.inr ⟨_, hw, hgiven.ballot, hgiven.dep, fun _ => ?_⟩) hother
      (fun _ _ _ => hhandled) (hold.accept c rfl)
    exact hdecided hle
  · rw [hw.live] at hold
    have hgiven := hold.given c rfl rfl
    exact h.deliver hc (.inr ⟨_, hw, hgiven.ballot, hgiven.dep, fun _ => rfl⟩) hother
      (fun _ _ _ => hhandled) (hold.accept c rfl)

theorem executeCmd (h : HeldInv s) {r : CopilotServer α}
    (hr : (s.server i).executeCmd p slot = some r) : HeldInv (s.setServer i r) := by
  have hold := h.holds i p slot
  obtain he | hw | ⟨-, hw⟩ := CopilotServer.executeCmd_cases hr
  · exact h.rests he
  · rw [hw.live] at hold
    exact h.writes hw (hold.update rfl rfl rfl)
  · rw [hw.live] at hold
    exact h.writes hw (hold.update rfl rfl rfl)

theorem eliminateNullDep (h : HeldInv s) {all : Bool} {r : CopilotServer α}
    (hok : KeepsDependency s (.eliminateNullDep i p slot all) = true)
    (hr : (s.server i).eliminateNullDep p slot all = some r) : HeldInv (s.setServer i r) := by
  have hold := h.holds i p slot
  obtain hw | ⟨hge, hne, rfl, hw⟩ := CopilotServer.eliminateNullDep_cases hr
  · rw [hw.live] at hold
    exact h.writes hw (hold.update rfl rfl rfl)
  · rw [hw.live] at hold
    have hevt : ((s.server i).found p slot).cmitEvt = true := by
      cases hc : s.coord p slot with
      | none => simp [KeepsDependency, hc, hne, hge.not_gt] at hok
      | some c =>
        rw [hc] at hold
        refine (hold.given c rfl rfl).commit ?_
        simpa [KeepsDependency, hc, hne, hge.not_gt] using hok
    exact h.writes hw (hold.update rfl rfl hevt.symm)

theorem freeCmds (h : HeldInv s) {r : CopilotServer α} (hr : (s.server i).freeCmds p = some r) :
    HeldInv (s.setServer i r) := by
  refine ⟨fun j q => ?_, fun j q k => ?_⟩ <;> by_cases hj : j = i
  · subst hj
    rw [System.server_setServer_self]
    exact (h.active j q).trans (CopilotServer.freeCmds_spec hr q).1
  · rw [System.server_setServer_ne _ hj]
    exact h.active j q
  · subst hj
    have hold := h.holds j q k
    have hactive := h.active j q
    obtain ⟨hle, -, hentry⟩ := CopilotServer.freeCmds_spec hr q
    rw [System.server_setServer_self, hentry k]
    split
    · next hk =>
      have hfreed : (r.logInfos q).freed k = true := by
        have hne : k ≠ 0 := by omega
        simp [CopilotLogInfo.freed, hk.2, hne]
      rw [hfreed]
      refine ⟨fun _ => rfl, fun _ => ⟨rfl, rfl, rfl⟩, fun _ _ hno => ?_, fun _ _ hno => ?_,
        hold.accept⟩
      · cases hno
      · cases hno
    · next hk =>
      have hsame : (r.logInfos q).freed k = ((s.server j).logInfos q).freed k := by
        have hlt : k < (r.logInfos q).minActiveSlot ↔ k < ((s.server j).logInfos q).minActiveSlot := by
          omega
        simp [CopilotLogInfo.freed, hlt]
      rw [hsame]
      exact hold
  · rw [System.server_setServer_ne _ hj]
    exact h.holds j q k

theorem initial : HeldInv (System.init : System n α) where
  active i p := by simp [System.init, CopilotServer.setup, CopilotLogInfo.set]
  holds i p slot := by
    refine ⟨fun hgone => ?_, fun _ => ?_, fun _ hno => ?_, fun _ hno => ?_, fun _ hno => ?_⟩
    · simp [System.init, CopilotServer.setup, CopilotLogInfo.set, CopilotLogInfo.freed] at hgone
    · by_cases hslot : slot = 0
      · subst hslot
        exact ⟨rfl, rfl, rfl⟩
      · rw [System.init, CopilotServer.entry, CopilotServer.setup,
          CopilotLogInfo.entry_set_ne _ _ hslot]
        exact ⟨rfl, rfl, rfl⟩
    · cases hno
    · cases hno
    · cases hno

end HeldInv

end Jetpack.Copilot
