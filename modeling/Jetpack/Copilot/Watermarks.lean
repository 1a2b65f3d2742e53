import Jetpack.Copilot.Server
import Jetpack.Library.Transition

/-! The watermarks of the two logs of a replica. The loops that raise them go on over a slot they
find no entry at, so they are right in the runs that bring them to no such slot. -/

namespace Jetpack.Copilot

open Transition

variable {α : Type}

theorem Status.le_executed (status : Status) : status.toNat ≤ Status.executed.toNat := by
  cases status <;> decide

namespace CopilotServer

/-- `executeCmd` of an entry that was waited for. An entry that was freed in the meantime is no
longer in the log. -/
def executeEntry (s : CopilotServer α) (p : Side) (slot : Nat) : Option (CopilotServer α) :=
  match s.entry p slot with
  | none => some s
  | some ins => do
    let _ ← ins.cmd
    return s.setLog p
      (((s.logInfos p).set slot { ins with status := .executed }).updateMaxExecSlot slot)

/-- A use of `GetInstance` for its own sake. -/
def touch (s : CopilotServer α) (p : Side) (slot : Nat) : CopilotServer α :=
  match (s.logInfos p).getInstance slot with
  | none => s
  | some (info, _) => s.setLog p info

/-- Was the entry waited for, so that it may be executed? -/
def released (s : CopilotServer α) (p : Side) (slot : Nat) : Bool :=
  (s.entry p slot).all fun d => decide (Status.commited.toNat ≤ d.status.toNat) || d.cmitEvt

end CopilotServer

inductive ReplicaEvent (α : Type)
  | fastAccept (p : Side) (slot ballot dep : Nat) (cmd : α)
  | accept (p : Side) (slot ballot dep : Nat) (cmd : α)
  | commit (p : Side) (slot dep : Nat) (cmd : α)
  | touch (p : Side) (slot : Nat)
  | execute (p : Side) (slot : Nat)
  | eliminate (p : Side) (slot : Nat) (allCommitted : Bool)
  | free (p : Side)

def replicaStep (s : CopilotServer α) : ReplicaEvent α → Option (CopilotServer α)
  | .fastAccept p slot ballot dep cmd => (s.onFastAccept p slot ballot dep cmd).map (·.1)
  | .accept p slot ballot dep cmd => some (s.onAccept p slot ballot dep cmd).1
  | .commit p slot dep cmd => some (s.onCommit p slot dep cmd)
  | .touch p slot => some (s.touch p slot)
  | .execute p slot => if s.released p slot then s.executeEntry p slot else none
  | .eliminate p slot allCommitted => s.eliminateNullDep p slot allCommitted
  | .free p => s.freeCmds p

namespace CopilotServer

/-- `executeCmd` looks the entry up, which makes a missing one, and then executes one that is to be
executed. -/
theorem executeCmd_eq {s : CopilotServer α} {p : Side} {slot : Nat} {info : CopilotLogInfo α}
    {ins : CopilotData α} (hget : (s.logInfos p).getInstance slot = some (info, ins)) :
    s.executeCmd p slot =
      if ins.status ≠ .executed ∧ (s.touch p slot).released p slot = true then
        replicaStep (s.touch p slot) (.execute p slot)
      else replicaStep s (.touch p slot) := by
  have htouch : s.touch p slot = s.setLog p info := by
    unfold touch
    rw [hget]
  obtain ⟨-, hself, -⟩ := getInstance_eq_some hget
  have hentry : (s.setLog p info).entry p slot = some ins := by
    simpa [entry, setLog] using hself
  have hreleased : (s.setLog p info).released p slot = true ↔
      Status.commited.toNat ≤ ins.status.toNat ∨ ins.cmitEvt = true := by
    simp [released, hentry]
  unfold executeCmd
  rw [hget]
  simp only [replicaStep, htouch]
  by_cases hexec : ins.status = .executed
  · rw [if_pos hexec, if_neg fun hboth => hboth.1 hexec]
  · rw [if_neg hexec]
    by_cases hrel : (s.setLog p info).released p slot = true
    · rw [if_pos (hreleased.mp hrel), if_pos ⟨hexec, hrel⟩, if_pos hrel]
      unfold executeEntry
      rw [hentry]
      cases hcmd : ins.cmd with
      | none => simp [hcmd]
      | some cmd => simp [hcmd, setLog]
    · rw [if_neg fun hc => hrel (hreleased.mpr hc), if_neg fun hboth => hrel hboth.2]

end CopilotServer

namespace CopilotLogInfo

def holds (info : CopilotLogInfo α) (status : Status) (slot : Nat) : Bool :=
  (info.entry slot).any fun d => decide (status.toNat ≤ d.status.toNat)

/-- Every slot up to `w` was freed or holds an entry with the status. -/
def Covered (info : CopilotLogInfo α) (status : Status) (w : Nat) : Prop :=
  ∀ k, 0 < k → k ≤ w → info.freed k = true ∨ info.holds status k = true

/-- A loop for `slot` that starts above `w` gets to a slot without an entry. -/
def MeetsGap (info : CopilotLogInfo α) (status : Status) (w slot : Nat) : Prop :=
  ∃ i < slot, w < i ∧ (info.entry i).isNone = true ∧ ∀ k < i, w < k → info.holds status k = true

instance (info : CopilotLogInfo α) (status : Status) (w slot : Nat) :
    Decidable (info.MeetsGap status w slot) :=
  inferInstanceAs (Decidable (∃ i, i < slot ∧ _))

/-- No entry the scan looks at depends on an entry before `slot`. -/
def Compatible (other : CopilotLogInfo α) (slot dep : Nat) : Prop :=
  dep = 0 ∨ ∀ j ≤ other.maxAcceptedSlot, dep < j →
    (other.entry j).all (fun d => decide (d.depId = 0 ∨ slot ≤ d.depId)) = true

instance (other : CopilotLogInfo α) (slot dep : Nat) : Decidable (other.Compatible slot dep) :=
  inferInstanceAs (Decidable (_ ∨ _))

end CopilotLogInfo

namespace CopilotServer

def Takes (s : CopilotServer α) (p : Side) (slot ballot : Nat) : Prop :=
  (s.logInfos p).freed slot = false ∧ (s.found p slot).ballot ≤ ballot

def Commits (s : CopilotServer α) (p : Side) (slot : Nat) : Prop :=
  (s.logInfos p).freed slot = false ∧ (s.found p slot).status.toNat < Status.commited.toNat

/-- Does `EliminateNullDep` mark the entry as executed? -/
def Eliminates (s : CopilotServer α) (p : Side) (slot : Nat) (allCommitted : Bool) : Prop :=
  Status.fastAccepted.toNat ≤ (s.found p slot).status.toNat ∧
    (s.found p slot).status ≠ .executed ∧ allCommitted = true

end CopilotServer

/-- The steps that keep the watermarks right: no loop gets to a slot without an entry, and no
FastAccept or Accept lowers the status of a slot that a watermark relies on. -/
def Orderly (s : CopilotServer α) : ReplicaEvent α → Prop
  | .fastAccept p slot ballot dep _ =>
    s.Takes p slot ballot → 0 < slot →
      ((s.logInfos p).maxCommittedSlot < slot ∧ (s.logInfos p).maxExecutedSlot < slot) ∧
      if (s.logInfos p.reverse).Compatible slot dep then
        ¬ (s.logInfos p).MeetsGap .fastAcceptedEq (s.logInfos p).maxAcceptedSlot slot
      else (s.logInfos p).maxAcceptedSlot < slot
  | .accept p slot ballot _ _ =>
    s.Takes p slot ballot → 0 < slot →
      ((s.logInfos p).maxCommittedSlot < slot ∧ (s.logInfos p).maxExecutedSlot < slot) ∧
        ¬ (s.logInfos p).MeetsGap .fastAcceptedEq (s.logInfos p).maxAcceptedSlot slot
  | .commit p slot _ _ =>
    s.Commits p slot → ¬ (s.logInfos p).MeetsGap .commited (s.logInfos p).maxCommittedSlot slot
  | .execute p slot =>
    (s.entry p slot).isSome = true →
      ¬ (s.logInfos p).MeetsGap .executed (s.logInfos p).maxExecutedSlot slot
  | .eliminate p slot allCommitted =>
    s.Eliminates p slot allCommitted →
      ¬ (s.logInfos p).MeetsGap .commited (s.logInfos p).maxCommittedSlot slot ∧
        ¬ (s.logInfos p).MeetsGap .executed (s.logInfos p).maxExecutedSlot slot
  | .touch .. | .free _ => True

instance : ∀ (s : CopilotServer α) (e : ReplicaEvent α), Decidable (Orderly s e)
  | _, .fastAccept .. => inferInstanceAs (Decidable (_ ∧ _ → _ → _ ∧ _))
  | _, .accept .. => inferInstanceAs (Decidable (_ ∧ _ → _ → _ ∧ ¬ _))
  | _, .commit .. => inferInstanceAs (Decidable (_ ∧ _ → ¬ _))
  | _, .execute .. => inferInstanceAs (Decidable (_ → ¬ _))
  | _, .eliminate .. => inferInstanceAs (Decidable (_ ∧ _ ∧ _ → ¬ _ ∧ ¬ _))
  | _, .touch .. => inferInstanceAs (Decidable True)
  | _, .free .. => inferInstanceAs (Decidable True)

/-- What the watermarks say is so, what a trimming frees was executed, and no scan follows a null
pointer. -/
structure Sound (s : CopilotServer α) : Prop where
  accepted : ∀ p, (s.logInfos p).Covered .fastAcceptedEq (s.logInfos p).maxAcceptedSlot
  committed : ∀ p, (s.logInfos p).Covered .commited (s.logInfos p).maxCommittedSlot
  executed : ∀ p, (s.logInfos p).Covered .executed (s.logInfos p).maxExecutedSlot
  trimmed : ∀ p k, (s.logInfos p).minActiveSlot ≤ k →
    k + CopilotLogInfo.nCmdKeep < (s.logInfos p).maxExecutedSlot →
    (s.logInfos p).holds .executed k = true
  scan : ∀ p slot dep, ((s.logInfos p).suggestDep slot dep).isSome = true

namespace CopilotLogInfo

theorem holds_iff {info : CopilotLogInfo α} {status : Status} {k : Nat} :
    info.holds status k = true ↔
      ∃ d, info.entry k = some d ∧ status.toNat ≤ d.status.toNat := by
  simp [holds, Option.any_eq_true]

/-- Without a gap before it, the loop changes no slot and passes only slots with the status. -/
theorem passSlots_of_filled {status : Status} {logs : Nat → Cell α} {n i : Nat} (hi : 0 < i)
    (h : ∀ k, i ≤ k → k < i + n →
      (∀ j, i ≤ j → j < k →
        (logs j).entry.any (fun d => decide (status.toNat ≤ d.status.toNat)) = true) →
      (logs k).entry.isSome = true) :
    (passSlots status logs n i).1 = logs ∧
      ∀ k, i ≤ k → k ≤ (passSlots status logs n i).2 →
        (logs k).entry.any (fun d => decide (status.toNat ≤ d.status.toNat)) = true := by
  induction n generalizing i with
  | zero =>
    refine ⟨rfl, fun k hik hk => ?_⟩
    have hlt : k ≤ i - 1 := hk
    omega
  | succ n ih =>
    have hsome := h i le_rfl (by omega) fun j hj hlt => by omega
    unfold passSlots
    split
    · next d hd =>
      split_ifs with hlow
      · refine ⟨rfl, fun k hik hk => ?_⟩
        have hlt : k ≤ i - 1 := hk
        omega
      · have hpass : (logs i).entry.any
            (fun d => decide (status.toNat ≤ d.status.toNat)) = true := by
          rw [hd]
          simpa [Cell.entry] using Nat.le_of_not_lt hlow
        have hrest := @ih (i + 1) (Nat.succ_pos i) fun k hik hk hall => by
          apply h k (by omega) (by omega)
          intro j hj hlt
          by_cases hji : j = i
          · rw [hji]
            exact hpass
          · exact hall j (by omega) hlt
        refine ⟨hrest.1, fun k hik hk => ?_⟩
        by_cases hki : k = i
        · rw [hki]
          exact hpass
        · exact hrest.2 k (by omega) hk
    · next hno =>
      obtain ⟨d, hd⟩ := Option.isSome_iff_exists.mp hsome
      cases hlogs : logs i with
      | data d => exact absurd hlogs (hno d)
      | absent => simp [hlogs, Cell.entry] at hd
      | null => simp [hlogs, Cell.entry] at hd

theorem passSlots_covered {info : CopilotLogInfo α} {status : Status} {w slot : Nat}
    (hslot : (info.entry slot).isSome = true) (hgap : ¬ info.MeetsGap status w slot) :
    (passSlots status info.logs (slot - w) (w + 1)).1 = info.logs ∧
      (info.Covered status w →
        info.Covered status (passSlots status info.logs (slot - w) (w + 1)).2) := by
  have hfilled := @passSlots_of_filled α status info.logs (slot - w) (w + 1) (Nat.succ_pos w)
    fun k hk hlt hall => by
      by_cases hks : k = slot
      · rw [hks]
        exact hslot
      · by_contra hnone
        apply hgap
        refine ⟨k, by omega, by omega, ?_, fun j hj hwj => hall j (by omega) hj⟩
        simpa [entry] using hnone
  refine ⟨hfilled.1, fun hcov k hk hle => ?_⟩
  by_cases hkw : k ≤ w
  · exact hcov k hk hkw
  · exact .inr (hfilled.2 k (by omega) hle)

/-- What the code relies on in one log. -/
structure Sound (info : CopilotLogInfo α) : Prop where
  noNull : ∀ k, info.logs k ≠ .null
  active : 0 < info.minActiveSlot
  accepted : info.Covered .fastAcceptedEq info.maxAcceptedSlot
  committed : info.Covered .commited info.maxCommittedSlot
  executed : info.Covered .executed info.maxExecutedSlot

theorem Covered.set {info : CopilotLogInfo α} {status : Status} {w slot : Nat}
    {d : CopilotData α} (h : info.Covered status w)
    (hd : 0 < slot → slot ≤ w → info.freed slot = true ∨ status.toNat ≤ d.status.toNat) :
    (info.set slot d).Covered status w := by
  intro k hk hle
  by_cases hks : k = slot
  · subst hks
    rcases hd hk hle with hfreed | hstatus
    · exact .inl hfreed
    · exact .inr (holds_iff.mpr ⟨d, entry_set_self info k d, hstatus⟩)
  · rcases h k hk hle with hfreed | hholds
    · exact .inl hfreed
    · right
      rwa [holds, entry_set_ne info d hks]

/-- An entry may be written if its status is enough for every watermark that covers its slot. -/
theorem Sound.set {info : CopilotLogInfo α} {slot : Nat} {d : CopilotData α} (h : info.Sound)
    (hd : 0 < slot → info.freed slot = false →
      (slot ≤ info.maxAcceptedSlot → Status.fastAcceptedEq.toNat ≤ d.status.toNat) ∧
      (slot ≤ info.maxCommittedSlot → Status.commited.toNat ≤ d.status.toNat) ∧
      (slot ≤ info.maxExecutedSlot → Status.executed.toNat ≤ d.status.toNat)) :
    (info.set slot d).Sound where
  noNull k := by
    by_cases hk : k = slot
    · simp [CopilotLogInfo.set, hk]
    · simpa [CopilotLogInfo.set, hk] using h.noNull k
  active := h.active
  accepted := h.accepted.set fun hpos hle => by
    cases hfreed : info.freed slot with
    | true => exact .inl rfl
    | false => exact .inr ((hd hpos hfreed).1 hle)
  committed := h.committed.set fun hpos hle => by
    cases hfreed : info.freed slot with
    | true => exact .inl rfl
    | false => exact .inr ((hd hpos hfreed).2.1 hle)
  executed := h.executed.set fun hpos hle => by
    cases hfreed : info.freed slot with
    | true => exact .inl rfl
    | false => exact .inr ((hd hpos hfreed).2.2 hle)

theorem Sound.raise {info : CopilotLogInfo α} {slot : Nat} {d old : CopilotData α} (h : info.Sound)
    (hold : info.entry slot = some old) (hd : old.status.toNat ≤ d.status.toNat) :
    (info.set slot d).Sound := by
  have hcovers : ∀ {status : Status} {w : Nat}, info.Covered status w → 0 < slot →
      info.freed slot = false → slot ≤ w → status.toNat ≤ d.status.toNat := by
    intro status w hcov hpos hfree hle
    rcases hcov slot hpos hle with hf | hf
    · rw [hfree] at hf
      cases hf
    · obtain ⟨d', hd', hstatus⟩ := holds_iff.mp hf
      obtain rfl : old = d' := Option.some.inj (hold.symm.trans hd')
      exact hstatus.trans hd
  apply h.set
  intro hpos hfree
  exact ⟨hcovers h.accepted hpos hfree, hcovers h.committed hpos hfree,
    hcovers h.executed hpos hfree⟩

theorem Sound.counters {info : CopilotLogInfo α} (h : info.Sound) (current active : Nat) :
    CopilotLogInfo.Sound { info with currentSlot := current, maxActiveSlot := active } :=
  ⟨h.noNull, h.active, h.accepted, h.committed, h.executed⟩

theorem Sound.updateMaxAcptSlot {info : CopilotLogInfo α} {slot : Nat} (h : info.Sound)
    (hslot : (info.entry slot).isSome = true)
    (hgap : ¬ info.MeetsGap .fastAcceptedEq info.maxAcceptedSlot slot) :
    (info.updateMaxAcptSlot slot).Sound := by
  obtain ⟨hlogs, hcov⟩ := passSlots_covered hslot hgap
  unfold CopilotLogInfo.updateMaxAcptSlot
  simp only [hlogs]
  exact ⟨h.noNull, h.active, hcov h.accepted, h.committed, h.executed⟩

theorem Sound.updateMaxCmtdSlot {info : CopilotLogInfo α} {slot : Nat} (h : info.Sound)
    (hslot : (info.entry slot).isSome = true)
    (hgap : ¬ info.MeetsGap .commited info.maxCommittedSlot slot) :
    (info.updateMaxCmtdSlot slot).Sound := by
  obtain ⟨hlogs, hcov⟩ := passSlots_covered hslot hgap
  unfold CopilotLogInfo.updateMaxCmtdSlot
  simp only [hlogs]
  exact ⟨h.noNull, h.active, h.accepted, hcov h.committed, h.executed⟩

theorem Sound.updateMaxExecSlot {info : CopilotLogInfo α} {slot : Nat} (h : info.Sound)
    (hslot : (info.entry slot).isSome = true)
    (hgap : ¬ info.MeetsGap .executed info.maxExecutedSlot slot) :
    (info.updateMaxExecSlot slot).Sound := by
  obtain ⟨hlogs, hcov⟩ := passSlots_covered hslot hgap
  unfold CopilotLogInfo.updateMaxExecSlot
  simp only [hlogs]
  exact ⟨h.noNull, h.active, h.accepted, h.committed, hcov h.executed⟩

theorem meetsGap_set {info : CopilotLogInfo α} {status : Status} {w slot : Nat}
    {d : CopilotData α} : (info.set slot d).MeetsGap status w slot ↔ info.MeetsGap status w slot := by
  have hentry : ∀ k < slot, (info.set slot d).entry k = info.entry k :=
    fun k hk => entry_set_ne info d (Nat.ne_of_lt hk)
  constructor
  · rintro ⟨i, hi, hw, hnone, hall⟩
    refine ⟨i, hi, hw, by rwa [← hentry i hi], fun k hk hwk => ?_⟩
    have hholds := hall k hk hwk
    rwa [holds, hentry k (hk.trans hi)] at hholds
  · rintro ⟨i, hi, hw, hnone, hall⟩
    refine ⟨i, hi, hw, by rwa [hentry i hi], fun k hk hwk => ?_⟩
    have hholds := hall k hk hwk
    rwa [holds, ← hentry k (hk.trans hi)] at hholds

structure Got (info info' : CopilotLogInfo α) (slot : Nat) (ins : CopilotData α) : Prop where
  free : info.freed slot = false
  entry_eq : info'.entry slot = some ins
  ins_eq : ins = (info.entry slot).getD {}
  accepted_eq : info'.maxAcceptedSlot = info.maxAcceptedSlot
  committed_eq : info'.maxCommittedSlot = info.maxCommittedSlot
  executed_eq : info'.maxExecutedSlot = info.maxExecutedSlot
  gap_iff : ∀ status w, info'.MeetsGap status w slot ↔ info.MeetsGap status w slot

theorem Sound.getInstance {info info' : CopilotLogInfo α} {slot : Nat} {ins : CopilotData α}
    (h : info.Sound) (hget : info.getInstance slot = some (info', ins)) :
    info'.Sound ∧ info.Got info' slot ins := by
  unfold CopilotLogInfo.getInstance at hget
  split at hget
  · cases hget
  · next hfreed =>
    have hfree : info.freed slot = false := by simpa using hfreed
    split at hget
    · next d hd =>
      cases hget
      exact ⟨h, hfree, hd, by rw [hd]; rfl, rfl, rfl, rfl, fun _ _ => Iff.rfl⟩
    · next hnone =>
      cases hget
      have hcovers : ∀ {status : Status} {w : Nat}, info.Covered status w → 0 < slot → ¬ slot ≤ w := by
        intro status w hcov hpos hle
        rcases hcov slot hpos hle with hf | hf
        · rw [hfree] at hf
          cases hf
        · rw [holds, hnone] at hf
          cases hf
      refine ⟨h.set fun hpos _ => ?_, hfree, entry_set_self _ _ _,
        by rw [hnone]; rfl, rfl, rfl, rfl, fun _ _ => meetsGap_set⟩
      exact ⟨fun hle => absurd hle (hcovers h.accepted hpos),
        fun hle => absurd hle (hcovers h.committed hpos),
        fun hle => absurd hle (hcovers h.executed hpos)⟩

theorem removeCmds_eq {info out : CopilotLogInfo α} {n i : Nat}
    (h : info.removeCmds n i = some out) :
    ∃ logs, out = { info with logs := logs, minActiveSlot := i + n } ∧
      (∀ k, k < i ∨ i + n ≤ k → logs k = info.logs k) ∧
      ∀ k, logs k = info.logs k ∨ logs k = .absent := by
  induction n generalizing info i with
  | zero =>
    cases h
    exact ⟨info.logs, rfl, fun k _ => rfl, fun k => .inl rfl⟩
  | succ n ih =>
    obtain ⟨d, -, h⟩ := Option.bind_eq_some_iff.mp h
    obtain ⟨c, -, h⟩ := Option.bind_eq_some_iff.mp h
    obtain ⟨logs, hout, hkept, hor⟩ := ih h
    have hmin : i + 1 + n = i + (n + 1) := by omega
    rw [hmin] at hout
    refine ⟨logs, hout, fun k hk => ?_, fun k => ?_⟩
    · rw [hkept k (by omega)]
      exact Function.update_of_ne (by omega) _ _
    · rcases hor k with hk | hk
      · by_cases hki : k = i
        · right
          rw [hk, hki]
          exact Function.update_self ..
        · left
          rw [hk]
          exact Function.update_of_ne hki _ _
      · exact .inr hk

theorem Covered.free {info out : CopilotLogInfo α} {status : Status} {w : Nat}
    (hmin : info.minActiveSlot ≤ out.minActiveSlot)
    (hkept : ∀ k, k < info.minActiveSlot ∨ out.minActiveSlot ≤ k → out.entry k = info.entry k)
    (h : info.Covered status w) : out.Covered status w := by
  intro k hk hle
  have hne : (k != 0) = true := by simpa using Nat.pos_iff_ne_zero.mp hk
  by_cases hout : k < out.minActiveSlot
  · left
    simp [freed, hout, hne]
  · rcases h k hk hle with hfreed | hholds
    · simp only [freed, Bool.and_eq_true, decide_eq_true_eq] at hfreed
      omega
    · right
      rwa [holds, hkept k (.inr (Nat.le_of_not_lt hout))]

theorem Sound.freeCmds {info out : CopilotLogInfo α} (h : info.Sound)
    (hfree : info.freeCmds = some out) : out.Sound := by
  obtain ⟨logs, rfl, hkept, hor⟩ := removeCmds_eq hfree
  have hmin : info.minActiveSlot ≤
      info.minActiveSlot + (info.maxExecutedSlot - nCmdKeep - info.minActiveSlot) :=
    Nat.le_add_right _ _
  have hentry := fun k hk => congrArg Cell.entry (hkept k hk)
  constructor
  · intro k
    rcases hor k with hk | hk
    · have hnull := h.noNull k
      rwa [← hk] at hnull
    · intro hnull
      rw [show logs k = .null from hnull] at hk
      cases hk
  · have hactive := h.active
    exact Nat.lt_of_lt_of_le hactive hmin
  · exact Covered.free hmin hentry h.accepted
  · exact Covered.free hmin hentry h.committed
  · exact Covered.free hmin hentry h.executed

theorem findIncompatible_eq {other : CopilotLogInfo α} (h : ∀ k, other.logs k ≠ .null)
    (slot n j : Nat) :
    ∃ found, other.findIncompatible slot n j = some found ∧
      (found = false ↔ ∀ k, j ≤ k → k < j + n →
        (other.entry k).all (fun d => decide (d.depId = 0 ∨ slot ≤ d.depId)) = true) := by
  induction n generalizing j with
  | zero => exact ⟨false, rfl, by simp; omega⟩
  | succ n ih =>
    obtain ⟨found, hfound, hiff⟩ := ih (j + 1)
    have hnext : (other.entry j).all (fun d => decide (d.depId = 0 ∨ slot ≤ d.depId)) = true →
        (found = false ↔ ∀ k, j ≤ k → k < j + (n + 1) →
          (other.entry k).all (fun d => decide (d.depId = 0 ∨ slot ≤ d.depId)) = true) := by
      intro hj
      rw [hiff]
      constructor
      · intro hall k hjk hk
        by_cases hkj : k = j
        · rw [hkj]
          exact hj
        · exact hall k (by omega) (by omega)
      · intro hall k hjk hk
        exact hall k (by omega) (by omega)
    unfold findIncompatible
    cases hlogs : other.logs j with
    | null => exact absurd hlogs (h j)
    | absent => exact ⟨found, hfound, hnext (by simp [entry, hlogs, Cell.entry])⟩
    | data d =>
      dsimp only
      split_ifs with hdep
      · refine ⟨true, rfl, ?_⟩
        constructor
        · intro hfalse
          cases hfalse
        · intro hall
          have hj := hall j le_rfl (by omega)
          simp [entry, hlogs, Cell.entry] at hj
          omega
      · refine ⟨found, hfound, hnext ?_⟩
        simp [entry, hlogs, Cell.entry]
        omega

/-- Without null pointers the scan ends, and it suggests another dependency exactly when it finds an
incompatible entry. -/
theorem suggestDep_eq {other : CopilotLogInfo α} (h : ∀ k, other.logs k ≠ .null)
    (slot dep : Nat) :
    ∃ suggest, other.suggestDep slot dep = some suggest ∧
      (suggest = dep ↔ other.Compatible slot dep) := by
  unfold suggestDep
  split_ifs with hdep
  · exact ⟨dep, rfl, by simp [Compatible, hdep]⟩
  · obtain ⟨found, hfound, hiff⟩ := findIncompatible_eq h slot (other.maxAcceptedSlot - dep) (dep + 1)
    rw [hfound]
    refine ⟨_, rfl, ?_⟩
    cases found with
    | false =>
      have hall := hiff.mp rfl
      refine ⟨fun _ => .inr fun j hj hlt => hall j hlt (by omega), fun _ => rfl⟩
    | true =>
      constructor
      · intro hsuggest
        have hempty : other.maxAcceptedSlot = dep := by simpa using hsuggest
        have hno := hiff.mpr fun k hk hlt => by omega
        cases hno
      · rintro (hzero | hall)
        · exact absurd hzero hdep
        · have hno := hiff.mpr fun k hk hlt => hall k (by omega) hk
          cases hno

end CopilotLogInfo

namespace CopilotServer

variable {s t : CopilotServer α} {p : Side} {slot : Nat}

theorem logInfos_setLog {info : CopilotLogInfo α} (h : ∀ q, (s.logInfos q).Sound)
    (hinfo : info.Sound) (q : Side) : ((s.setLog p info).logInfos q).Sound := by
  by_cases hq : q = p
  · subst hq
    simpa [setLog] using hinfo
  · simpa [setLog, hq] using h q

theorem sound_store {info : CopilotLogInfo α} {d : CopilotData α} (h : info.Sound)
    (hgap : ¬ info.MeetsGap .fastAcceptedEq info.maxAcceptedSlot slot)
    (hlow : 0 < slot → info.maxCommittedSlot < slot ∧ info.maxExecutedSlot < slot)
    (hd : Status.fastAcceptedEq.toNat ≤ d.status.toNat) :
    ((info.set slot d).updateMaxAcptSlot slot).Sound := by
  have hset := h.set (d := d) fun hpos _ =>
    ⟨fun _ => hd, fun hle => absurd hle (Nat.not_le.mpr (hlow hpos).1),
      fun hle => absurd hle (Nat.not_le.mpr (hlow hpos).2)⟩
  apply hset.updateMaxAcptSlot
  · rw [CopilotLogInfo.entry_set_self]
    rfl
  · rwa [CopilotLogInfo.meetsGap_set]

theorem onFastAccept_sound {ballot dep b suggest : Nat} {cmd : α}
    (h : ∀ q, (s.logInfos q).Sound) (hok : Orderly s (.fastAccept p slot ballot dep cmd))
    (hstep : s.onFastAccept p slot ballot dep cmd = some (t, b, suggest)) (q : Side) :
    (t.logInfos q).Sound := by
  unfold onFastAccept at hstep
  split at hstep
  · cases hstep
    exact h q
  · next info ins hget =>
    obtain ⟨hinfo, hgot⟩ := (h p).getInstance hget
    obtain ⟨sd, hsd, hstep⟩ := Option.bind_eq_some_iff.mp hstep
    obtain ⟨sd', hsd', hcompat⟩ := CopilotLogInfo.suggestDep_eq (h p.reverse).noNull slot dep
    obtain rfl : sd' = sd := Option.some.inj (hsd'.symm.trans hsd)
    have hins : (s.found p slot).ballot = ins.ballot := by rw [hgot.ins_eq]; rfl
    split_ifs at hstep with hballot heq
    · cases hstep
      have hlow := hok ⟨hgot.free, hins ▸ hballot⟩
      have hgap : ¬ (s.logInfos p).MeetsGap .fastAcceptedEq (s.logInfos p).maxAcceptedSlot slot := by
        intro hmeets
        obtain ⟨i, hi, -⟩ := id hmeets
        have hno := (hlow (by omega)).2
        rw [if_pos (hcompat.mp heq)] at hno
        exact hno hmeets
      rw [← hgot.gap_iff, ← hgot.accepted_eq] at hgap
      have hactive := hinfo.counters (max slot info.currentSlot) (max info.maxActiveSlot slot)
      apply logInfos_setLog h
      refine sound_store hactive hgap (fun hpos => ?_) (le_refl _)
      have hmax := (hlow hpos).1
      rwa [← hgot.committed_eq, ← hgot.executed_eq] at hmax
    · cases hstep
      have hlow := hok ⟨hgot.free, hins ▸ hballot⟩
      have hactive := hinfo.counters (max slot info.currentSlot) (max info.maxActiveSlot slot)
      apply logInfos_setLog h
      apply hactive.set
      intro hpos _
      obtain ⟨hmax, hacc⟩ := hlow hpos
      rw [if_neg (fun hc => heq (hcompat.mpr hc)), ← hgot.accepted_eq] at hacc
      rw [← hgot.committed_eq, ← hgot.executed_eq] at hmax
      exact ⟨fun hle => absurd hle (Nat.not_le.mpr hacc),
        fun hle => absurd hle (Nat.not_le.mpr hmax.1), fun hle => absurd hle (Nat.not_le.mpr hmax.2)⟩
    · cases hstep
      exact logInfos_setLog h (hinfo.counters (max slot info.currentSlot) info.maxActiveSlot) q

theorem onAccept_sound {ballot dep : Nat} {cmd : α} (h : ∀ q, (s.logInfos q).Sound)
    (hok : Orderly s (.accept p slot ballot dep cmd)) (q : Side) :
    ((s.onAccept p slot ballot dep cmd).1.logInfos q).Sound := by
  unfold onAccept
  split
  · exact h q
  · next info ins hget =>
    obtain ⟨hinfo, hgot⟩ := (h p).getInstance hget
    have hins : (s.found p slot).ballot = ins.ballot := by rw [hgot.ins_eq]; rfl
    have hcurrent := hinfo.counters (max slot info.currentSlot) info.maxActiveSlot
    dsimp only
    split_ifs with hballot
    · have hlow := hok ⟨hgot.free, hins ▸ hballot⟩
      have hgap : ¬ (s.logInfos p).MeetsGap .fastAcceptedEq (s.logInfos p).maxAcceptedSlot slot := by
        intro hmeets
        obtain ⟨i, hi, -⟩ := id hmeets
        exact (hlow (by omega)).2 hmeets
      rw [← hgot.gap_iff, ← hgot.accepted_eq] at hgap
      apply logInfos_setLog h
      refine sound_store hcurrent hgap (fun hpos => ?_) (Nat.le_succ 2)
      have hmax := (hlow hpos).1
      rwa [← hgot.committed_eq, ← hgot.executed_eq] at hmax
    · exact logInfos_setLog h hcurrent q

theorem onCommit_sound {dep : Nat} {cmd : α} (h : ∀ q, (s.logInfos q).Sound)
    (hok : Orderly s (.commit p slot dep cmd)) (q : Side) :
    ((s.onCommit p slot dep cmd).logInfos q).Sound := by
  unfold onCommit
  split
  · exact logInfos_setLog h
      ((h p).counters (max slot (s.logInfos p).currentSlot) (s.logInfos p).maxActiveSlot) q
  · next info ins hget =>
    obtain ⟨hinfo, hgot⟩ := (h p).getInstance hget
    have hins : (s.found p slot).status = ins.status := by rw [hgot.ins_eq]; rfl
    have hcurrent := hinfo.counters (max slot info.currentSlot) info.maxActiveSlot
    dsimp only
    split_ifs with hstatus
    · exact logInfos_setLog h hcurrent q
    · have hgap := hok ⟨hgot.free, by rw [hins]; exact Nat.lt_of_not_le hstatus⟩
      rw [← hgot.gap_iff, ← hgot.committed_eq] at hgap
      apply logInfos_setLog h
      have hraised := hcurrent.raise (d := { ins with
        cmd := some cmd, status := .commited, cmitEvt := true }) hgot.entry_eq
        (Nat.le_of_not_le hstatus)
      apply hraised.updateMaxCmtdSlot
      · rw [CopilotLogInfo.entry_set_self]
        rfl
      · rw [CopilotLogInfo.meetsGap_set]
        exact hgap

theorem executeEntry_sound (h : ∀ q, (s.logInfos q).Sound) (hok : Orderly s (.execute p slot))
    (hstep : s.executeEntry p slot = some t) (q : Side) : (t.logInfos q).Sound := by
  unfold executeEntry at hstep
  split at hstep
  · cases hstep
    exact h q
  · next ins hins =>
    obtain ⟨cmd, -, hstep⟩ := Option.bind_eq_some_iff.mp hstep
    cases hstep
    have hraised := (h p).raise (d := { ins with status := .executed }) hins
      (Status.le_executed ins.status)
    apply logInfos_setLog h
    apply hraised.updateMaxExecSlot
    · rw [CopilotLogInfo.entry_set_self]
      rfl
    · rw [CopilotLogInfo.meetsGap_set]
      exact hok (by rw [hins]; rfl)

theorem eliminateNullDep_sound {allCommitted : Bool} (h : ∀ q, (s.logInfos q).Sound)
    (hok : Orderly s (.eliminate p slot allCommitted))
    (hstep : s.eliminateNullDep p slot allCommitted = some t) (q : Side) :
    (t.logInfos q).Sound := by
  unfold eliminateNullDep at hstep
  split at hstep
  · cases hstep
  · next info ins hget =>
    obtain ⟨hinfo, hgot⟩ := (h p).getInstance hget
    have hins : s.found p slot = ins := hgot.ins_eq.symm
    split_ifs at hstep with hskip
    · cases hstep
      exact logInfos_setLog h hinfo q
    · cases hstep
      push Not at hskip
      have hgap := hok ⟨by rw [hins]; exact hskip.1, by rw [hins]; exact hskip.2.1,
        by simpa using hskip.2.2⟩
      rw [← hgot.gap_iff, ← hgot.gap_iff, ← hgot.committed_eq, ← hgot.executed_eq] at hgap
      have hraised := hinfo.raise (d := { ins with status := .executed, cmitEvt := true })
        hgot.entry_eq (Status.le_executed ins.status)
      apply logInfos_setLog h
      have hpresent : (info.set slot { ins with status := .executed, cmitEvt := true }).entry slot =
          some { ins with status := .executed, cmitEvt := true } :=
        CopilotLogInfo.entry_set_self _ _ _
      have hcommitted := @CopilotLogInfo.Sound.updateMaxCmtdSlot α _ slot hraised
        (by rw [hpresent]; rfl) (by rw [CopilotLogInfo.meetsGap_set]; exact hgap.1)
      apply hcommitted.updateMaxExecSlot
      · rw [CopilotLogInfo.entry_updateMaxCmtdSlot, hpresent]
        rfl
      · simp only [CopilotLogInfo.MeetsGap, CopilotLogInfo.holds,
          CopilotLogInfo.entry_updateMaxCmtdSlot]
        exact (not_congr CopilotLogInfo.meetsGap_set).mpr hgap.2

theorem touch_sound (h : ∀ q, (s.logInfos q).Sound) (q : Side) :
    ((s.touch p slot).logInfos q).Sound := by
  unfold touch
  split
  · exact h q
  · next info ins hget =>
    exact logInfos_setLog h ((h p).getInstance hget).1 q

end CopilotServer

theorem replicaStep_sound {s t : CopilotServer α} {e : ReplicaEvent α}
    (h : ∀ q, (s.logInfos q).Sound) (hok : Orderly s e) (hstep : replicaStep s e = some t)
    (q : Side) : (t.logInfos q).Sound := by
  cases e with
  | fastAccept p slot ballot dep cmd =>
    obtain ⟨⟨u, b, suggest⟩, hu, rfl⟩ := Option.map_eq_some_iff.mp hstep
    exact CopilotServer.onFastAccept_sound h hok hu q
  | accept p slot ballot dep cmd =>
    obtain rfl := Option.some.inj hstep
    exact CopilotServer.onAccept_sound h hok q
  | commit p slot dep cmd =>
    obtain rfl := Option.some.inj hstep
    exact CopilotServer.onCommit_sound h hok q
  | touch p slot =>
    obtain rfl := Option.some.inj hstep
    exact CopilotServer.touch_sound h q
  | execute p slot =>
    simp only [replicaStep] at hstep
    split at hstep
    · exact CopilotServer.executeEntry_sound h hok hstep q
    · cases hstep
  | eliminate p slot allCommitted => exact CopilotServer.eliminateNullDep_sound h hok hstep q
  | free p =>
    obtain ⟨info, hinfo, hstep⟩ := Option.bind_eq_some_iff.mp hstep
    cases hstep
    exact CopilotServer.logInfos_setLog h ((h p).freeCmds hinfo) q

theorem setup_sound (q : Side) : ((CopilotServer.setup : CopilotServer α).logInfos q).Sound where
  noNull k := by
    by_cases hk : k = 0
    · simp [CopilotServer.setup, CopilotLogInfo.set, hk]
    · simp [CopilotServer.setup, CopilotLogInfo.set, hk]
  active := Nat.one_pos
  accepted k hk hle := absurd hle (Nat.not_le.mpr hk)
  committed k hk hle := absurd hle (Nat.not_le.mpr hk)
  executed k hk hle := absurd hle (Nat.not_le.mpr hk)

theorem sound_of_logs {s : CopilotServer α} (h : ∀ q, (s.logInfos q).Sound) : Sound s where
  accepted p := (h p).accepted
  committed p := (h p).committed
  executed p := (h p).executed
  trimmed p k hk hlt := by
    have hactive := (h p).active
    rcases (h p).executed k (by omega) (by omega) with hfreed | hholds
    · simp only [CopilotLogInfo.freed, Bool.and_eq_true, decide_eq_true_eq] at hfreed
      omega
    · exact hholds
  scan p slot dep := by
    obtain ⟨suggest, hsuggest, -⟩ := CopilotLogInfo.suggestDep_eq (h p).noNull slot dep
    rw [hsuggest]
    rfl

/-- In a run of orderly steps the watermarks are right and no scan follows a null pointer. -/
theorem watermarks_sound {s : CopilotServer α}
    (h : ReachableWhere replicaStep Orderly CopilotServer.setup s) : Sound s := by
  apply sound_of_logs
  exact h.invariant (fun s e t hs hok hstep q => replicaStep_sound hs hok hstep q)
    fun q => setup_sound q

/-- The pilot's slots 1 and 2 are accepted in order, and slot 1 is committed and executed. -/
theorem watermarks_sound_oneExecuted :
    ∃ s : CopilotServer Nat, ReachableWhere replicaStep Orderly CopilotServer.setup s ∧ Sound s ∧
      (s.logInfos .pilot).maxAcceptedSlot = 2 ∧ (s.logInfos .pilot).maxExecutedSlot = 1 := by
  have hrun : (runWhere replicaStep Orderly CopilotServer.setup
      [.fastAccept .copilot 1 0 0 5, .fastAccept .pilot 1 0 0 6, .accept .pilot 2 0 1 7,
        .commit .pilot 1 0 6, .execute .pilot 1]).any
      (fun s => (s.logInfos .pilot).maxAcceptedSlot == 2 &&
        (s.logInfos .pilot).maxExecutedSlot == 1) = true := by decide
  obtain ⟨s, hreach, hs⟩ := exists_reachableWhere hrun
  rw [Bool.and_eq_true] at hs
  exact ⟨s, hreach, watermarks_sound hreach, by simpa using hs⟩

/-- A replica accepts slots 1 and 3, so slot 2 counts as accepted. The FastAccept of the other pilot,
which depends on slot 1, follows the null pointer at slot 2. -/
theorem unseen_slot_passed :
    ∃ s : CopilotServer Nat, Reachable replicaStep CopilotServer.setup s ∧ ¬ Sound s ∧
      (s.logInfos .pilot).maxAcceptedSlot = 3 ∧ s.entry .pilot 2 = none ∧
      s.onFastAccept .copilot 1 0 1 7 = none := by
  have hrun : (runWhere replicaStep (fun _ _ => True) CopilotServer.setup
      [.fastAccept .pilot 1 0 0 5, .fastAccept .pilot 3 0 0 6]).any
      (fun s => (s.logInfos .pilot).maxAcceptedSlot == 3 && (s.entry .pilot 2).isNone &&
        (s.onFastAccept .copilot 1 0 1 7).isNone &&
        ((s.logInfos .pilot).suggestDep 1 1).isNone) = true := by decide
  obtain ⟨s, hreach, hs⟩ := exists_reachableWhere hrun
  simp only [Bool.and_eq_true, beq_iff_eq, Option.isNone_iff_eq_none] at hs
  refine ⟨s, hreach, fun hsound => ?_, hs.1.1.1, hs.1.1.2, hs.1.2⟩
  have hscan := hsound.scan .pilot 1 1
  rw [hs.2] at hscan
  cases hscan

end Jetpack.Copilot
