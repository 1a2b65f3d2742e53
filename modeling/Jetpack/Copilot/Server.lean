import Mathlib

/-! A replica of Copilot: the logs of the pilot and of the copilot and the handlers of their
messages. The commands are of any type, since no handler looks into them. `none` is a handler that
follows a null pointer or fails a `verify`. -/

namespace Jetpack.Copilot

inductive Side
  | pilot
  | copilot
  deriving Repr, DecidableEq

def Side.reverse : Side → Side
  | .pilot => .copilot
  | .copilot => .pilot

@[simp]
theorem Side.reverse_reverse (p : Side) : p.reverse.reverse = p := by
  cases p <;> rfl

@[simp]
theorem Side.reverse_ne (p : Side) : p.reverse ≠ p := by
  cases p <;> decide

inductive Status
  | notAccepted
  | fastAccepted
  | fastAcceptedEq
  | accepted
  | commited
  | executed
  deriving Repr, DecidableEq

def Status.toNat : Status → Nat
  | .notAccepted => 0
  | .fastAccepted => 1
  | .fastAcceptedEq => 2
  | .accepted => 3
  | .commited => 4
  | .executed => 5

/-- An entry of a log. `cmitEvt` says that the event other entries wait for is set. -/
structure CopilotData (α : Type) where
  cmd : Option α := none
  depId : Nat := 0
  ballot : Nat := 0
  status : Status := .notAccepted
  cmitEvt : Bool := false
  deriving Repr, DecidableEq

/-- What a log maps a slot to. Reading `logs[i]` of a missing slot leaves a null pointer there. -/
inductive Cell (α : Type)
  | absent
  | null
  | data (d : CopilotData α)
  deriving Repr, DecidableEq

def Cell.entry {α : Type} : Cell α → Option (CopilotData α)
  | .data d => some d
  | _ => none

structure CopilotLogInfo (α : Type) where
  logs : Nat → Cell α := fun _ => .absent
  currentSlot : Nat := 0
  minActiveSlot : Nat := 1
  maxExecutedSlot : Nat := 0
  maxCommittedSlot : Nat := 0
  maxAcceptedSlot : Nat := 0
  maxActiveSlot : Nat := 0

variable {α : Type}

namespace CopilotLogInfo

/-- The entry of a slot, if the log points to one. -/
def entry (info : CopilotLogInfo α) (slot : Nat) : Option (CopilotData α) :=
  (info.logs slot).entry

def set (info : CopilotLogInfo α) (slot : Nat) (d : CopilotData α) : CopilotLogInfo α :=
  { info with logs := Function.update info.logs slot (.data d) }

/-- Slot 0 is never freed. -/
def freed (info : CopilotLogInfo α) (slot : Nat) : Bool :=
  slot < info.minActiveSlot && slot != 0

/-- `GetInstance`; a missing entry is made, a freed one is not. -/
def getInstance (info : CopilotLogInfo α) (slot : Nat) :
    Option (CopilotLogInfo α × CopilotData α) :=
  if info.freed slot then none
  else
    match info.entry slot with
    | some d => some (info, d)
    | none => some (info.set slot {}, {})

/-- The loop of `updateMaxAcptSlot`, `updateMaxCmtdSlot` and `updateMaxExecSlot`: it goes on over
the slots that have the status, and over those that have no entry. It returns the logs and the last
slot it passed. -/
def passSlots (status : Status) (logs : Nat → Cell α) : Nat → Nat → (Nat → Cell α) × Nat
  | 0, i => (logs, i - 1)
  | n + 1, i =>
    match logs i with
    | .data d =>
      if d.status.toNat < status.toNat then (logs, i - 1) else passSlots status logs n (i + 1)
    | _ => passSlots status (Function.update logs i .null) n (i + 1)

def updateMaxAcptSlot (info : CopilotLogInfo α) (slot : Nat) : CopilotLogInfo α :=
  let r := passSlots .fastAcceptedEq info.logs (slot - info.maxAcceptedSlot)
    (info.maxAcceptedSlot + 1)
  { info with logs := r.1, maxAcceptedSlot := r.2 }

def updateMaxCmtdSlot (info : CopilotLogInfo α) (slot : Nat) : CopilotLogInfo α :=
  let r := passSlots .commited info.logs (slot - info.maxCommittedSlot)
    (info.maxCommittedSlot + 1)
  { info with logs := r.1, maxCommittedSlot := r.2 }

def updateMaxExecSlot (info : CopilotLogInfo α) (slot : Nat) : CopilotLogInfo α :=
  let r := passSlots .executed info.logs (slot - info.maxExecutedSlot)
    (info.maxExecutedSlot + 1)
  { info with logs := r.1, maxExecutedSlot := r.2 }

/-- The compatibility check: is there an entry at one of `n` slots from `j` on that depends on an
entry before `slot`? -/
def findIncompatible (info : CopilotLogInfo α) (slot : Nat) : Nat → Nat → Option Bool
  | 0, _ => some false
  | n + 1, j =>
    match info.logs j with
    | .absent => info.findIncompatible slot n (j + 1)
    | .null => none
    | .data d =>
      if d.depId ≠ 0 ∧ d.depId < slot then some true
      else info.findIncompatible slot n (j + 1)

/-- The dependency a replica answers a FastAccept with, given the log of the other pilot. -/
def suggestDep (other : CopilotLogInfo α) (slot dep : Nat) : Option Nat := do
  if dep = 0 then return dep
  let found ← other.findIncompatible slot (other.maxAcceptedSlot - dep) (dep + 1)
  return if found then other.maxAcceptedSlot else dep

def nCmdKeep : Nat := 15000

/-- `removeCmd` of `n` slots from `i` on; it reads the command of each. -/
def removeCmds (info : CopilotLogInfo α) : Nat → Nat → Option (CopilotLogInfo α)
  | 0, i => some { info with minActiveSlot := i }
  | n + 1, i => do
    let d ← info.entry i
    let _ ← d.cmd
    removeCmds { info with logs := Function.update info.logs i .absent } n (i + 1)

/-- What `OnCommit` does after the execution: it frees the slots before the last executed ones. -/
def freeCmds (info : CopilotLogInfo α) : Option (CopilotLogInfo α) :=
  info.removeCmds (info.maxExecutedSlot - nCmdKeep - info.minActiveSlot) info.minActiveSlot

end CopilotLogInfo

structure CopilotServer (α : Type) where
  logInfos : Side → CopilotLogInfo α

namespace CopilotServer

def setup : CopilotServer α :=
  ⟨fun _ => CopilotLogInfo.set {} 0 { status := .executed }⟩

def setLog (s : CopilotServer α) (p : Side) (info : CopilotLogInfo α) : CopilotServer α :=
  ⟨Function.update s.logInfos p info⟩

def entry (s : CopilotServer α) (p : Side) (slot : Nat) : Option (CopilotData α) :=
  (s.logInfos p).entry slot

/-- `PickInitSlotAndDep` of the pilot of side `p`: the assigned slot and the initial dependency. -/
def pickInitSlotAndDep (s : CopilotServer α) (p : Side) : CopilotServer α × Nat × Nat :=
  let info := s.logInfos p
  (s.setLog p { info with currentSlot := info.currentSlot + 1 }, info.currentSlot + 1,
    (s.logInfos p.reverse).currentSlot)

/-- The answer is the ballot and the suggested dependency. -/
def onFastAccept (s : CopilotServer α) (p : Side) (slot ballot dep : Nat) (cmd : α) :
    Option (CopilotServer α × Nat × Nat) :=
  match (s.logInfos p).getInstance slot with
  | none => some (s, ballot, dep)
  | some (info, ins) => do
    let info := { info with currentSlot := max slot info.currentSlot }
    let suggest ← (s.logInfos p.reverse).suggestDep slot dep
    if ins.ballot ≤ ballot then
      let ins := { ins with ballot := ballot, depId := dep, cmd := some cmd }
      let info := { info with maxActiveSlot := max info.maxActiveSlot slot }
      if suggest = dep then
        let info := (info.set slot { ins with status := .fastAcceptedEq }).updateMaxAcptSlot slot
        return (s.setLog p info, ballot, suggest)
      else
        return (s.setLog p (info.set slot { ins with status := .fastAccepted }), ballot, suggest)
    else
      return (s.setLog p info, ballot, suggest)

def onAccept (s : CopilotServer α) (p : Side) (slot ballot dep : Nat) (cmd : α) :
    CopilotServer α × Nat :=
  match (s.logInfos p).getInstance slot with
  | none => (s, ballot)
  | some (info, ins) =>
    let info := { info with currentSlot := max slot info.currentSlot }
    if ins.ballot ≤ ballot then
      let ins := { ins with ballot := ballot, depId := dep, cmd := some cmd, status := .accepted }
      (s.setLog p ((info.set slot ins).updateMaxAcptSlot slot), ballot)
    else
      (s.setLog p info, ballot)

/-- `OnCommit` up to the execution. The dependency of the message is not stored. -/
def onCommit (s : CopilotServer α) (p : Side) (slot _dep : Nat) (cmd : α) : CopilotServer α :=
  match (s.logInfos p).getInstance slot with
  | none =>
    s.setLog p { s.logInfos p with currentSlot := max slot (s.logInfos p).currentSlot }
  | some (info, ins) =>
    let info := { info with currentSlot := max slot info.currentSlot }
    if Status.commited.toNat ≤ ins.status.toNat then s.setLog p info
    else
      let ins := { ins with cmd := some cmd, status := .commited, cmitEvt := true }
      s.setLog p ((info.set slot ins).updateMaxCmtdSlot slot)

/-- What the loops of `executeCmds` do to one entry: they wait until it is committed or its event is
set, and then execute it. -/
def executeCmd (s : CopilotServer α) (p : Side) (slot : Nat) : Option (CopilotServer α) :=
  match (s.logInfos p).getInstance slot with
  | none => some s
  | some (info, ins) =>
    if ins.status = .executed then some (s.setLog p info)
    else if Status.commited.toNat ≤ ins.status.toNat ∨ ins.cmitEvt then
      match ins.cmd with
      | none => none
      | some _ =>
        some (s.setLog p ((info.set slot { ins with status := .executed }).updateMaxExecSlot slot))
    else some (s.setLog p info)

/-- `allCommitted` says that the scheduler has committed all commands of the entry. -/
def eliminateNullDep (s : CopilotServer α) (p : Side) (slot : Nat) (allCommitted : Bool) :
    Option (CopilotServer α) :=
  match (s.logInfos p).getInstance slot with
  | none => none
  | some (info, ins) =>
    if ins.status.toNat < Status.fastAccepted.toNat ∨ ins.status = .executed ∨ !allCommitted then
      some (s.setLog p info)
    else
      let ins := { ins with status := .executed, cmitEvt := true }
      some (s.setLog p (((info.set slot ins).updateMaxCmtdSlot slot).updateMaxExecSlot slot))

def freeCmds (s : CopilotServer α) (p : Side) : Option (CopilotServer α) := do
  let info ← (s.logInfos p).freeCmds
  return s.setLog p info

end CopilotServer

theorem Cell.entry_update {logs : Nat → Cell α} {i : Nat} {c : Cell α}
    (h : c.entry = (logs i).entry) (k : Nat) :
    (Function.update logs i c k).entry = (logs k).entry := by
  by_cases hk : k = i
  · subst hk
    rw [Function.update_self, h]
  · rw [Function.update_of_ne hk]

namespace CopilotLogInfo

@[simp]
theorem entry_set_self (info : CopilotLogInfo α) (slot : Nat) (d : CopilotData α) :
    (info.set slot d).entry slot = some d := by
  simp [set, entry, Cell.entry]

theorem entry_set_ne (info : CopilotLogInfo α) {slot k : Nat} (d : CopilotData α)
    (h : k ≠ slot) : (info.set slot d).entry k = info.entry k := by
  simp [set, entry, h]

/-- The loop leaves null pointers, but no entry changes. -/
theorem passSlots_entry (status : Status) (logs : Nat → Cell α) (n i k : Nat) :
    ((passSlots status logs n i).1 k).entry = (logs k).entry := by
  induction n generalizing logs i with
  | zero => rfl
  | succ n ih =>
    unfold passSlots
    split
    · next d hd =>
      split_ifs
      · rfl
      · exact ih logs (i + 1)
    · next hno =>
      rw [ih]
      refine Cell.entry_update ?_ k
      cases hlogs : logs i with
      | data d => exact absurd hlogs (hno d)
      | absent => rfl
      | null => rfl

@[simp]
theorem entry_updateMaxAcptSlot (info : CopilotLogInfo α) (slot k : Nat) :
    (info.updateMaxAcptSlot slot).entry k = info.entry k :=
  passSlots_entry _ _ _ _ _

@[simp]
theorem entry_updateMaxCmtdSlot (info : CopilotLogInfo α) (slot k : Nat) :
    (info.updateMaxCmtdSlot slot).entry k = info.entry k :=
  passSlots_entry _ _ _ _ _

@[simp]
theorem entry_updateMaxExecSlot (info : CopilotLogInfo α) (slot k : Nat) :
    (info.updateMaxExecSlot slot).entry k = info.entry k :=
  passSlots_entry _ _ _ _ _

theorem getInstance_eq_none {info : CopilotLogInfo α} {slot : Nat}
    (h : info.getInstance slot = none) : info.freed slot = true := by
  unfold getInstance at h
  split at h
  · assumption
  · split at h <;> cases h

end CopilotLogInfo

/-- Only the entry `slot` of log `p` changes, to `d`; it is not freed, and no slot counter goes back. -/
structure Writes (s t : CopilotServer α) (p : Side) (slot : Nat) (d : CopilotData α) : Prop where
  entry_self : t.entry p slot = some d
  entry_ne : ∀ q k, ¬ (q = p ∧ k = slot) → t.entry q k = s.entry q k
  current_le : ∀ q, (s.logInfos q).currentSlot ≤ (t.logInfos q).currentSlot
  live : (s.logInfos p).freed slot = false
  active_eq : ∀ q, (t.logInfos q).minActiveSlot = (s.logInfos q).minActiveSlot

theorem writes_setLog {s : CopilotServer α} {p : Side} {slot : Nat} {d : CopilotData α}
    {info : CopilotLogInfo α} (hself : info.entry slot = some d)
    (hne : ∀ k, k ≠ slot → info.entry k = s.entry p k)
    (hcur : (s.logInfos p).currentSlot ≤ info.currentSlot)
    (hlive : (s.logInfos p).freed slot = false)
    (hactive : info.minActiveSlot = (s.logInfos p).minActiveSlot) :
    Writes s (s.setLog p info) p slot d where
  entry_self := by simpa [CopilotServer.entry, CopilotServer.setLog] using hself
  entry_ne q k hqk := by
    by_cases hq : q = p
    · subst hq
      have hk : k ≠ slot := fun h => hqk ⟨rfl, h⟩
      simpa [CopilotServer.entry, CopilotServer.setLog] using hne k hk
    · simp [CopilotServer.entry, CopilotServer.setLog, hq]
  current_le q := by
    by_cases hq : q = p
    · subst hq
      simpa [CopilotServer.setLog] using hcur
    · simp [CopilotServer.setLog, hq]
  live := hlive
  active_eq q := by
    by_cases hq : q = p
    · subst hq
      simpa [CopilotServer.setLog] using hactive
    · simp [CopilotServer.setLog, hq]

/-- What `GetInstance` gives, and the log with the entry in place. -/
theorem getInstance_eq_some {s : CopilotServer α} {p : Side} {slot : Nat}
    {info : CopilotLogInfo α} {ins : CopilotData α}
    (h : (s.logInfos p).getInstance slot = some (info, ins)) :
    ins = (s.entry p slot).getD {} ∧ info.entry slot = some ins ∧
      (∀ k, k ≠ slot → info.entry k = s.entry p k) ∧
      info.currentSlot = (s.logInfos p).currentSlot ∧ (s.logInfos p).freed slot = false ∧
      info.minActiveSlot = (s.logInfos p).minActiveSlot := by
  unfold CopilotLogInfo.getInstance at h
  split at h
  · cases h
  · next hfreed =>
    have hlive := Bool.not_eq_true _ ▸ hfreed
    split at h
    · next d hd =>
      cases h
      exact ⟨by simp [CopilotServer.entry, hd], hd, fun k _ => rfl, rfl, hlive, rfl⟩
    · next hd =>
      cases h
      exact ⟨by simp [CopilotServer.entry, hd], CopilotLogInfo.entry_set_self _ _ _,
        fun k hk => CopilotLogInfo.entry_set_ne _ _ hk, rfl, hlive, rfl⟩

structure Erases (s t : CopilotServer α) : Prop where
  entry_eq : ∀ q k d, t.entry q k = some d → s.entry q k = some d
  current_le : ∀ q, (s.logInfos q).currentSlot ≤ (t.logInfos q).currentSlot

structure Rests (s t : CopilotServer α) : Prop where
  entry_eq : ∀ q k, t.entry q k = s.entry q k
  current_le : ∀ q, (s.logInfos q).currentSlot ≤ (t.logInfos q).currentSlot
  active_eq : ∀ q, (t.logInfos q).minActiveSlot = (s.logInfos q).minActiveSlot

theorem Rests.refl (s : CopilotServer α) : Rests s s :=
  ⟨fun _ _ => rfl, fun _ => le_rfl, fun _ => rfl⟩

theorem Rests.erases {s t : CopilotServer α} (h : Rests s t) : Erases s t :=
  ⟨fun q k _ hd => (h.entry_eq q k).symm.trans hd, h.current_le⟩

theorem rests_setLog {s : CopilotServer α} {p : Side} {m : Nat}
    (hm : (s.logInfos p).currentSlot ≤ m) :
    Rests s (s.setLog p { s.logInfos p with currentSlot := m }) := by
  refine ⟨fun q k => ?_, fun q => ?_, fun q => ?_⟩ <;> by_cases hq : q = p
  · subst hq
    simp [CopilotServer.entry, CopilotServer.setLog, CopilotLogInfo.entry]
  · simp [CopilotServer.entry, CopilotServer.setLog, hq]
  · subst hq
    simpa [CopilotServer.setLog] using hm
  · simp [CopilotServer.setLog, hq]
  · subst hq
    simp [CopilotServer.setLog]
  · simp [CopilotServer.setLog, hq]

/-- The entry a handler finds, or the one it makes. -/
def CopilotServer.found (s : CopilotServer α) (p : Side) (slot : Nat) : CopilotData α :=
  (s.entry p slot).getD {}

namespace CopilotServer

variable {s t : CopilotServer α} {p : Side} {slot ballot dep : Nat} {cmd : α}

theorem onFastAccept_cases {b suggest : Nat}
    (h : s.onFastAccept p slot ballot dep cmd = some (t, b, suggest)) :
    b = ballot ∧ ((s.logInfos p).freed slot = true ∧ t = s ∧ suggest = dep ∨
      (s.logInfos p.reverse).suggestDep slot dep = some suggest ∧
        ((s.found p slot).ballot ≤ ballot ∧
          Writes s t p slot { s.found p slot with
            ballot := ballot
            depId := dep
            cmd := some cmd
            status := if suggest = dep then .fastAcceptedEq else .fastAccepted } ∨
        ballot < (s.found p slot).ballot ∧ Writes s t p slot (s.found p slot))) := by
  unfold onFastAccept at h
  split at h
  · next hnone =>
    cases h
    exact ⟨rfl, .inl ⟨CopilotLogInfo.getInstance_eq_none hnone, rfl, rfl⟩⟩
  · next info ins hget =>
    obtain ⟨hins, hself, hne, hcur, hlive, hactive⟩ := getInstance_eq_some hget
    obtain ⟨sd, hsd, h⟩ := Option.bind_eq_some_iff.mp h
    change ins = s.found p slot at hins
    subst hins
    have hle : (s.logInfos p).currentSlot ≤ max slot info.currentSlot := by
      rw [hcur]
      exact le_max_right _ _
    split_ifs at h with hballot heq
    · cases h
      refine ⟨rfl, .inr ⟨hsd, .inl ⟨hballot, ?_⟩⟩⟩
      rw [if_pos heq]
      refine writes_setLog (by simp) (fun k hk => ?_) hle hlive hactive
      rw [CopilotLogInfo.entry_updateMaxAcptSlot, CopilotLogInfo.entry_set_ne _ _ hk]
      exact hne k hk
    · cases h
      refine ⟨rfl, .inr ⟨hsd, .inl ⟨hballot, ?_⟩⟩⟩
      rw [if_neg heq]
      refine writes_setLog (by simp) (fun k hk => ?_) hle hlive hactive
      rw [CopilotLogInfo.entry_set_ne _ _ hk]
      exact hne k hk
    · cases h
      exact ⟨rfl, .inr ⟨hsd, .inr ⟨not_le.mp hballot, writes_setLog hself hne hle hlive hactive⟩⟩⟩

theorem onAccept_cases {b : Nat} (h : s.onAccept p slot ballot dep cmd = (t, b)) :
    b = ballot ∧ ((s.logInfos p).freed slot = true ∧ Rests s t ∨
      (s.found p slot).ballot ≤ ballot ∧
        Writes s t p slot { s.found p slot with
          ballot := ballot
          depId := dep
          cmd := some cmd
          status := .accepted } ∨
      ballot < (s.found p slot).ballot ∧ Writes s t p slot (s.found p slot)) := by
  unfold onAccept at h
  split at h
  · next hnone =>
    cases h
    exact ⟨rfl, .inl ⟨CopilotLogInfo.getInstance_eq_none hnone, Rests.refl s⟩⟩
  · next info ins hget =>
    obtain ⟨hins, hself, hne, hcur, hlive, hactive⟩ := getInstance_eq_some hget
    change ins = s.found p slot at hins
    subst hins
    have hle : (s.logInfos p).currentSlot ≤ max slot info.currentSlot := by
      rw [hcur]
      exact le_max_right _ _
    split_ifs at h with hballot
    · cases h
      refine ⟨rfl, .inr (.inl ⟨hballot, writes_setLog (by simp) (fun k hk => ?_) hle hlive hactive⟩)⟩
      rw [CopilotLogInfo.entry_updateMaxAcptSlot, CopilotLogInfo.entry_set_ne _ _ hk]
      exact hne k hk
    · cases h
      exact ⟨rfl, .inr (.inr ⟨not_le.mp hballot, writes_setLog hself hne hle hlive hactive⟩)⟩

theorem onCommit_cases (h : s.onCommit p slot dep cmd = t) :
    (s.logInfos p).freed slot = true ∧ Rests s t ∨
      Status.commited.toNat ≤ (s.found p slot).status.toNat ∧ Writes s t p slot (s.found p slot) ∨
      (s.found p slot).status.toNat < Status.commited.toNat ∧
        Writes s t p slot { s.found p slot with
          cmd := some cmd
          status := .commited
          cmitEvt := true } := by
  unfold onCommit at h
  split at h
  · next hnone =>
    subst h
    exact .inl ⟨CopilotLogInfo.getInstance_eq_none hnone, rests_setLog (le_max_right _ _)⟩
  · next info ins hget =>
    obtain ⟨hins, hself, hne, hcur, hlive, hactive⟩ := getInstance_eq_some hget
    change ins = s.found p slot at hins
    subst hins
    have hle : (s.logInfos p).currentSlot ≤ max slot info.currentSlot := by
      rw [hcur]
      exact le_max_right _ _
    split_ifs at h with hstatus
    · subst h
      exact .inr (.inl ⟨hstatus, writes_setLog hself hne hle hlive hactive⟩)
    · subst h
      refine .inr (.inr ⟨not_le.mp hstatus, writes_setLog (by simp) (fun k hk => ?_) hle hlive hactive⟩)
      rw [CopilotLogInfo.entry_updateMaxCmtdSlot, CopilotLogInfo.entry_set_ne _ _ hk]
      exact hne k hk

theorem executeCmd_cases (h : s.executeCmd p slot = some t) :
    Rests s t ∨ Writes s t p slot (s.found p slot) ∨
      (Status.commited.toNat ≤ (s.found p slot).status.toNat ∨ (s.found p slot).cmitEvt = true) ∧
        Writes s t p slot { s.found p slot with status := .executed } := by
  unfold executeCmd at h
  split at h
  · cases h
    exact .inl (Rests.refl s)
  · next info ins hget =>
    obtain ⟨hins, hself, hne, hcur, hlive, hactive⟩ := getInstance_eq_some hget
    change ins = s.found p slot at hins
    subst hins
    split_ifs at h with hexecuted hcommitted
    · cases h
      exact .inr (.inl (writes_setLog hself hne hcur.ge hlive hactive))
    · split at h
      · cases h
      · cases h
        refine .inr (.inr ⟨hcommitted, writes_setLog (by simp) (fun k hk => ?_) hcur.ge hlive hactive⟩)
        rw [CopilotLogInfo.entry_updateMaxExecSlot, CopilotLogInfo.entry_set_ne _ _ hk]
        exact hne k hk
    · cases h
      exact .inr (.inl (writes_setLog hself hne hcur.ge hlive hactive))

theorem eliminateNullDep_cases {allCommitted : Bool}
    (h : s.eliminateNullDep p slot allCommitted = some t) :
    Writes s t p slot (s.found p slot) ∨
      Status.fastAccepted.toNat ≤ (s.found p slot).status.toNat ∧
        (s.found p slot).status ≠ .executed ∧ allCommitted = true ∧
        Writes s t p slot { s.found p slot with status := .executed, cmitEvt := true } := by
  unfold eliminateNullDep at h
  split at h
  · cases h
  · next info ins hget =>
    obtain ⟨hins, hself, hne, hcur, hlive, hactive⟩ := getInstance_eq_some hget
    change ins = s.found p slot at hins
    subst hins
    split_ifs at h with hskip
    · cases h
      exact .inl (writes_setLog hself hne hcur.ge hlive hactive)
    · cases h
      push Not at hskip
      refine .inr ⟨hskip.1, hskip.2.1, by simpa using hskip.2.2,
        writes_setLog (by simp) (fun k hk => ?_) hcur.ge hlive hactive⟩
      rw [CopilotLogInfo.entry_updateMaxExecSlot, CopilotLogInfo.entry_updateMaxCmtdSlot,
        CopilotLogInfo.entry_set_ne _ _ hk]
      exact hne k hk

end CopilotServer

theorem CopilotLogInfo.removeCmds_spec {info out : CopilotLogInfo α} {n i : Nat}
    (h : info.removeCmds n i = some out) :
    out.minActiveSlot = i + n ∧ out.currentSlot = info.currentSlot ∧
      ∀ k, out.entry k = if i ≤ k ∧ k < i + n then none else info.entry k := by
  induction n generalizing info i with
  | zero =>
    cases h
    refine ⟨rfl, rfl, fun k => ?_⟩
    rw [if_neg (by omega)]
    rfl
  | succ n ih =>
    obtain ⟨d, -, h⟩ := Option.bind_eq_some_iff.mp h
    obtain ⟨c, -, h⟩ := Option.bind_eq_some_iff.mp h
    obtain ⟨hactive, hcur, hentry⟩ := ih h
    refine ⟨by omega, hcur, fun k => ?_⟩
    rw [hentry k]
    by_cases hki : k = i
    · subst hki
      rw [if_neg (by omega), if_pos (by omega)]
      simp [CopilotLogInfo.entry, Cell.entry]
    · have hsame : (i + 1 ≤ k ∧ k < i + 1 + n) = (i ≤ k ∧ k < i + (n + 1)) := by
        refine propext ⟨fun hk => ?_, fun hk => ?_⟩ <;> omega
      simp only [hsame, CopilotLogInfo.entry, Function.update_of_ne hki]

/-- Freeing takes away the entries of the slots that are freed, and no other. -/
theorem CopilotServer.freeCmds_spec {s t : CopilotServer α} {p : Side} (h : s.freeCmds p = some t)
    (q : Side) : (s.logInfos q).minActiveSlot ≤ (t.logInfos q).minActiveSlot ∧
      (t.logInfos q).currentSlot = (s.logInfos q).currentSlot ∧
      ∀ k, t.entry q k = if (s.logInfos q).minActiveSlot ≤ k ∧ k < (t.logInfos q).minActiveSlot
        then none else s.entry q k := by
  obtain ⟨info, hinfo, h⟩ := Option.bind_eq_some_iff.mp h
  cases h
  obtain ⟨hactive, hcur, hentry⟩ := CopilotLogInfo.removeCmds_spec hinfo
  by_cases hq : q = p
  · subst hq
    simp only [setLog, entry, Function.update_self, hactive, hcur]
    exact ⟨Nat.le_add_right _ _, trivial, hentry⟩
  · simp only [setLog, entry, Function.update_of_ne hq]
    refine ⟨le_refl _, trivial, fun k => ?_⟩
    rw [if_neg (by omega)]

theorem CopilotServer.freeCmds_erases {s t : CopilotServer α} {p : Side}
    (h : s.freeCmds p = some t) : Erases s t := by
  refine ⟨fun q k d hd => ?_, fun q => (freeCmds_spec h q).2.1.ge⟩
  rw [(freeCmds_spec h q).2.2 k] at hd
  split at hd
  · cases hd
  · exact hd

end Jetpack.Copilot
