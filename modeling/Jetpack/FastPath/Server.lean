import Jetpack.Library.Transition
import Jetpack.PoolCounts

/-! What a replica records of commands that it has not applied: the attempts on the fast path in the
command pool or, in CURP mode, in the witness, and the commands of the original path alone in the
pool or in a map of their own. -/

namespace Jetpack.FastPath

structure WitnessSlot where
  inFlight : AList (fun _ : CmdId => Entry) := ∅
  seen : AList (fun _ : CmdId => Bool) := ∅
  writerCount : BitVec 32 := 0
  leaderRecoverId : CmdId := noCmdId

namespace WitnessSlot

def recordInFlight (slot : WitnessSlot) (cmdId : CmdId) (cmd : Marshallable) (isWrite : Bool) :
    WitnessSlot where
  inFlight := slot.inFlight.insert cmdId ⟨cmd, isWrite⟩
  seen := slot.seen.insert cmdId true
  writerCount := slot.writerCount + if isWrite then 1 else 0
  leaderRecoverId := if slot.writerCount = 0 ∧ isWrite = true then cmdId else slot.leaderRecoverId

def clearInFlight (slot : WitnessSlot) (cmdId : CmdId) : Nat × WitnessSlot :=
  match slot.inFlight.lookup cmdId with
  | none => (0, slot)
  | some e =>
    (1,
      { slot with
        inFlight := slot.inFlight.erase cmdId
        writerCount := if e.isWrite then slot.writerCount - 1 else slot.writerCount
        leaderRecoverId :=
          if e.isWrite = true ∧ slot.writerCount = 1 ∧ slot.leaderRecoverId = cmdId then noCmdId
          else slot.leaderRecoverId })

end WitnessSlot

structure CurpWitness where
  slots : AList (fun _ : Key => WitnessSlot) := ∅
  attemptCount : Nat := 0

namespace CurpWitness

/-- Returns whether no write of the key was in flight. A command without a key conflicts with
none. -/
def recordAttempt (w : CurpWitness) (cmd : Marshallable) : Except Fault (Bool × CurpWitness) := do
  match ← extractPoolKeys cmd with
  | none => return (true, w)
  | some k =>
    let slot := (w.slots.lookup k.key).getD {}
    return (slot.writerCount == 0,
      { slots := w.slots.insert k.key (slot.recordInFlight k.cmdId cmd k.isWrite)
        attemptCount := w.attemptCount + 1 })

def clearAttempt (w : CurpWitness) (cmd : Marshallable) : Except Fault (Nat × CurpWitness) := do
  match ← extractPoolKeys cmd with
  | none => return (0, w)
  | some k =>
    match w.slots.lookup k.key with
    | none => return (0, w)
    | some slot =>
      let (removed, slot') := slot.clearInFlight k.cmdId
      if removed = 0 then return (0, w)
      else
        return (removed,
          { slots := if slot'.inFlight.entries.isEmpty then w.slots.erase k.key
              else w.slots.insert k.key slot'
            attemptCount := w.attemptCount - 1 })

end CurpWitness

/-- `IsCurpMode()` and `GetJetpackSkipPoolForOriginalPath()`. -/
structure Config where
  isCurpMode : Bool
  skipPoolForOriginalPath : Bool
  deriving Repr, DecidableEq

structure InflightOriginalEntry where
  cmdId : CmdId
  isWrite : Bool
  deriving Repr, DecidableEq

structure Server where
  commandPool : JetpackCommandPool := {}
  inflightOriginalPath : AList (fun _ : Key => List InflightOriginalEntry) := ∅
  curpWitness : CurpWitness := {}
  paused : Bool := false
  isLeader : Bool := false
  jetpackStatus : JetpackStatus := .ready

def needRecordConflictInOriginalPath (cmd : Marshallable) : Except Fault Bool := do
  match ← cmd.vector0 with
  | none => throw .verify
  | some p => return p.ruleModeOnAndIsOriginalPathOnlyCommand

namespace Server

/-- The entries of `inflight_original_path_` under this key. -/
def inflight (s : Server) (key : Key) : List InflightOriginalEntry :=
  (s.inflightOriginalPath.lookup key).getD []

def conflictWithOriginalUnexecutedLog (s : Server) (cmd : Marshallable) : Except Fault Bool :=
  if s.isLeader = false ∨ s.inflightOriginalPath.entries.isEmpty = true then .ok false
  else do
    match ← extractPoolKeys cmd with
    | none => return false
    | some k =>
      return (s.inflight k.key).any fun e => e.cmdId != k.cmdId && (e.isWrite || k.isWrite)

def skipPoolConflict (cfg : Config) (s : Server) (cmd : Marshallable) : Except Fault Bool :=
  if cfg.skipPoolForOriginalPath && s.isLeader then s.conflictWithOriginalUnexecutedLog cmd
  else .ok false

def onRuleSpeculativeExecute (cfg : Config) (s : Server) (cmd : Marshallable) :
    Except Fault (Bool × Server) :=
  if s.paused then .ok (false, s)
  else if cfg.isCurpMode then do
    let (noConflict, w) ← s.curpWitness.recordAttempt cmd
    return (noConflict, { s with curpWitness := w })
  else do
    if ← s.skipPoolConflict cfg cmd then
      return (false, s)
    else
      let (noConflict, p) ← s.commandPool.pushBack s.jetpackStatus cmd
      return (noConflict, { s with commandPool := p })

def originalPathUnexecutedCmdConflictPlaceHolder (cfg : Config) (s : Server) (cmd : Marshallable) :
    Except Fault Server := do
  if ← needRecordConflictInOriginalPath cmd then
    if cfg.skipPoolForOriginalPath then
      match ← extractPoolKeys cmd with
      | none => return s
      | some k =>
        return { s with inflightOriginalPath :=
          s.inflightOriginalPath.insert k.key (s.inflight k.key ++ [⟨k.cmdId, k.isWrite⟩]) }
    else
      let (_, p) ← s.commandPool.pushBack s.jetpackStatus cmd
      return { s with commandPool := p }
  else return s

/-- The first entry with this id goes, and a key left without entries goes with it. -/
def eraseInflight (s : Server) (key : Key) (cmdId : CmdId) : Server :=
  match s.inflightOriginalPath.lookup key with
  | none => s
  | some bucket =>
    let bucket' := bucket.eraseP fun e => e.cmdId == cmdId
    { s with inflightOriginalPath :=
        if bucket'.isEmpty then s.inflightOriginalPath.erase key
        else s.inflightOriginalPath.insert key bucket' }

def poolGC (s : Server) (cmd : Marshallable) : Except Fault Server := do
  let (_, p) ← s.commandPool.remove cmd
  return { s with commandPool := p }

def ruleCommandPoolGC (cfg : Config) (s : Server) (cmd : Marshallable) : Except Fault Server :=
  if cfg.isCurpMode then do
    let (_, w) ← s.curpWitness.clearAttempt cmd
    return { s with curpWitness := w }
  else if cfg.skipPoolForOriginalPath then do
    if ← needRecordConflictInOriginalPath cmd then
      match ← extractPoolKeys cmd with
      | none => return s
      | some k => return s.eraseInflight k.key k.cmdId
    else s.poolGC cmd
  else s.poolGC cmd

end Server

/-- What happens at one replica. A `Dispatch` records its command when it comes in and may be
answered `WRONG_LEADER` later; `applyLogs` takes one committed entry. -/
inductive Event
  | speculativeExecute (cmd : Marshallable)
  | dispatch (cmd : Marshallable)
  | wrongLeader (cmd : Marshallable)
  | applyLogs (log : Marshallable)
  | resetPool
  | setPaused (paused : Bool)
  | setIsLeader (isLeader : Bool)
  | setStatus (status : JetpackStatus)
  deriving DecidableEq

/-- The coordinator flags a command as of the original path alone exactly when it does not attempt
the fast path, which it always attempts in CURP mode. -/
def Event.sent (cfg : Config) : Event → Bool
  | .speculativeExecute cmd => needRecordConflictInOriginalPath cmd == .ok false
  | .dispatch cmd => !(cfg.isCurpMode && needRecordConflictInOriginalPath cmd == .ok true)
  | _ => true

namespace Server

def handle (cfg : Config) (s : Server) : Event → Except Fault Server
  | .speculativeExecute cmd => Prod.snd <$> s.onRuleSpeculativeExecute cfg cmd
  | .dispatch cmd => s.originalPathUnexecutedCmdConflictPlaceHolder cfg cmd
  | .wrongLeader _ => .ok s
  | .applyLogs log => s.ruleCommandPoolGC cfg log
  | .resetPool => .ok { s with commandPool := s.commandPool.reset }
  | .setPaused b => .ok { s with paused := b }
  | .setIsLeader b => .ok { s with isLeader := b }
  | .setStatus st => .ok { s with jetpackStatus := st }

def step (cfg : Config) (s : Server) (e : Event) : Option Server :=
  if e.sent cfg then (s.handle cfg e).toOption else none

variable {cfg : Config} {s s' : Server} {cmd : Marshallable}

/-- An attempt is refused without a trace, or recorded in the witness or in the pool. -/
theorem onRuleSpeculativeExecute_ok {r : Bool}
    (h : s.onRuleSpeculativeExecute cfg cmd = .ok (r, s')) :
    (r = false ∧ s' = s ∧ (s.paused = true ∨ s.skipPoolConflict cfg cmd = .ok true)) ∨
    (cfg.isCurpMode = true ∧ ∃ w, s' = { s with curpWitness := w }) ∨
    (cfg.isCurpMode = false ∧ s.paused = false ∧ s.skipPoolConflict cfg cmd = .ok false ∧
      ∃ p, s.commandPool.pushBack s.jetpackStatus cmd = .ok (r, p) ∧
        s' = { s with commandPool := p }) := by
  unfold onRuleSpeculativeExecute at h
  split at h
  · next hpaused =>
    cases h
    exact .inl ⟨rfl, rfl, .inl hpaused⟩
  next hpaused =>
  split at h
  · next hcurp =>
    obtain ⟨⟨r', w⟩, -, h⟩ := Except.bind_eq_ok h
    cases h
    exact .inr (.inl ⟨hcurp, w, rfl⟩)
  · next hcurp =>
    obtain ⟨skip, hskip, h⟩ := Except.bind_eq_ok h
    cases skip with
    | true =>
      cases h
      exact .inl ⟨rfl, rfl, .inr hskip⟩
    | false =>
      obtain ⟨⟨r', p⟩, hpush, h⟩ := Except.bind_eq_ok h
      cases h
      refine .inr (.inr ⟨?_, ?_, hskip, p, hpush, rfl⟩)
      · exact Bool.eq_false_iff.mpr hcurp
      · exact Bool.eq_false_iff.mpr hpaused

theorem placeHolder_ok (h : s.originalPathUnexecutedCmdConflictPlaceHolder cfg cmd = .ok s') :
    (needRecordConflictInOriginalPath cmd = .ok false ∧ s' = s) ∨
    (needRecordConflictInOriginalPath cmd = .ok true ∧ cfg.skipPoolForOriginalPath = true ∧
      ((extractPoolKeys cmd = .ok none ∧ s' = s) ∨ ∃ k, extractPoolKeys cmd = .ok (some k) ∧
        s' = { s with inflightOriginalPath :=
          s.inflightOriginalPath.insert k.key (s.inflight k.key ++ [⟨k.cmdId, k.isWrite⟩]) })) ∨
    (needRecordConflictInOriginalPath cmd = .ok true ∧ cfg.skipPoolForOriginalPath = false ∧
      ∃ r p, s.commandPool.pushBack s.jetpackStatus cmd = .ok (r, p) ∧
        s' = { s with commandPool := p }) := by
  obtain ⟨need, hneed, h⟩ := Except.bind_eq_ok h
  cases need with
  | false =>
    cases h
    exact .inl ⟨hneed, rfl⟩
  | true =>
    rw [if_pos rfl] at h
    split at h
    · next hskip =>
      obtain ⟨o, ho, h⟩ := Except.bind_eq_ok h
      cases o with
      | none =>
        cases h
        exact .inr (.inl ⟨hneed, hskip, .inl ⟨ho, rfl⟩⟩)
      | some k =>
        cases h
        exact .inr (.inl ⟨hneed, hskip, .inr ⟨k, ho, rfl⟩⟩)
    · next hskip =>
      obtain ⟨⟨r, p⟩, hpush, h⟩ := Except.bind_eq_ok h
      cases h
      exact .inr (.inr ⟨hneed, Bool.eq_false_iff.mpr hskip, r, p, hpush, rfl⟩)

theorem poolGC_ok (h : s.poolGC cmd = .ok s') :
    ∃ n p, s.commandPool.remove cmd = .ok (n, p) ∧ s' = { s with commandPool := p } := by
  obtain ⟨⟨n, p⟩, hremove, h⟩ := Except.bind_eq_ok h
  cases h
  exact ⟨n, p, hremove, rfl⟩

theorem ruleCommandPoolGC_ok (h : s.ruleCommandPoolGC cfg cmd = .ok s') :
    (cfg.isCurpMode = true ∧ ∃ w, s' = { s with curpWitness := w }) ∨
    (cfg.isCurpMode = false ∧ cfg.skipPoolForOriginalPath = true ∧
      needRecordConflictInOriginalPath cmd = .ok true ∧
      ((extractPoolKeys cmd = .ok none ∧ s' = s) ∨
        ∃ k, extractPoolKeys cmd = .ok (some k) ∧ s' = s.eraseInflight k.key k.cmdId)) ∨
    (cfg.isCurpMode = false ∧
      (cfg.skipPoolForOriginalPath = true → needRecordConflictInOriginalPath cmd = .ok false) ∧
      ∃ n p, s.commandPool.remove cmd = .ok (n, p) ∧ s' = { s with commandPool := p }) := by
  unfold ruleCommandPoolGC at h
  split at h
  · next hcurp =>
    obtain ⟨⟨n, w⟩, -, h⟩ := Except.bind_eq_ok h
    cases h
    exact .inl ⟨hcurp, w, rfl⟩
  next hcurp =>
  have hcurp : cfg.isCurpMode = false := Bool.eq_false_iff.mpr hcurp
  split at h
  · next hskip =>
    obtain ⟨need, hneed, h⟩ := Except.bind_eq_ok h
    cases need with
    | true =>
      obtain ⟨o, ho, h⟩ := Except.bind_eq_ok h
      cases o with
      | none =>
        cases h
        exact .inr (.inl ⟨hcurp, hskip, hneed, .inl ⟨ho, rfl⟩⟩)
      | some k =>
        cases h
        exact .inr (.inl ⟨hcurp, hskip, hneed, .inr ⟨k, ho, rfl⟩⟩)
    | false => exact .inr (.inr ⟨hcurp, fun _ => hneed, poolGC_ok h⟩)
  · next hskip => exact .inr (.inr ⟨hcurp, fun hs => absurd hs hskip, poolGC_ok h⟩)

end Server

theorem pushBack_status {p p' : JetpackCommandPool} {st : JetpackStatus} {cmd : Marshallable}
    {r : Bool} (h : p.pushBack st cmd = .ok (r, p')) :
    (st = .recovery ∧ r = false ∧ p' = p) ∨ (st = .ready ∧ p.pushBack .ready cmd = .ok (r, p')) := by
  cases st with
  | ready => exact .inr ⟨rfl, h⟩
  | recovery =>
    unfold JetpackCommandPool.pushBack at h
    rw [if_pos rfl] at h
    cases h
    exact .inl ⟨rfl, rfl, rfl⟩

end Jetpack.FastPath
