import Jetpack.Command

/-! The Mencius server. Decided entries are applied in slot order up to the first gap, and past it
out of order where a per-key counter says that no other decided command waits. -/

namespace Jetpack.Mencius

def cmdTpcCommit : Nat := 5

/-- `kind_` is overwritten with `CMD_TPC_COMMIT`. On any other object the parsers' cast to
`TpcCommitCommand` then gives a null pointer. -/
def setKindTpcCommit : Marshallable → Marshallable
  | .tpcCommit c => .tpcCommit c
  | _ => .other cmdTpcCommit

structure MenciusData where
  maxBallotSeen : Int := 0
  maxBallotSuggested : Int := 0
  cmd : Option Marshallable := none
  committedCmd : Option Marshallable := none
  executed : Bool := false

structure MenciusServer where
  minActiveSlot : Nat := 0
  maxExecutedSlot : Nat := 0
  maxCommittedSlot : Nat := 0
  maxActiveSlot : Nat := 0
  logs : Nat → MenciusData := fun _ => {}
  unexecutedKeys : Key → Int := fun _ => 0
  /-- The calls of `app_next_`, with the slot each was made for. -/
  applied : List (Nat × Marshallable) := []

namespace MenciusServer

def getInstance (s : MenciusServer) (id : Nat) : Except Fault MenciusData :=
  if s.minActiveSlot ≤ id then .ok (s.logs id) else .error .verify

def setInstance (s : MenciusServer) (id : Nat) (inst : MenciusData) : MenciusServer :=
  { s with logs := Function.update s.logs id inst }

def addUnexecuted (s : MenciusServer) (key : Key) (d : Int) : MenciusServer :=
  { s with unexecutedKeys := Function.update s.unexecutedKeys key (s.unexecutedKeys key + d) }

def onPrepare (s : MenciusServer) (slot : Nat) (ballot : Int) : Except Fault MenciusServer := do
  let inst ← s.getInstance slot
  if inst.maxBallotSeen < ballot then
    return s.setInstance slot { inst with maxBallotSeen := ballot }
  else
    throw .verify

def onSuggest (s : MenciusServer) (slot : Nat) (ballot : Int) (cmd : Marshallable) :
    Except Fault MenciusServer := do
  let inst ← s.getInstance slot
  if inst.maxBallotSeen ≤ ballot then
    let t := s.setInstance slot
      { inst with maxBallotSeen := ballot, maxBallotSuggested := ballot, cmd := some cmd }
    return { t with maxActiveSlot := max s.maxActiveSlot slot }
  else
    throw .verify

/-- `app_next_` on one entry and the bookkeeping after it. -/
def execute (s : MenciusServer) (id : Nat) (inst : MenciusData) (cmd : Marshallable) :
    Except Fault MenciusServer := do
  let t := s.setInstance id { inst with executed := true }
  let parsed ← SimpleRWCommand.parse cmd
  let t := { t with applied := t.applied ++ [(id, cmd)] }.addUnexecuted parsed.key (-1)
  if 0 ≤ t.unexecutedKeys parsed.key then
    return t
  else
    throw .verify

/-- The deduplication of accepted entries: the upper end of the loops moves up by one for every
suggested command the command pool has seen. -/
def skipAppeared (hasAppeared : Marshallable → Bool) (s : MenciusServer) :
    List Nat → Except Fault MenciusServer
  | [] => .ok s
  | id :: ids => do
    let inst ← s.getInstance id
    if inst.cmd.any hasAppeared then
      skipAppeared hasAppeared { s with maxCommittedSlot := s.maxCommittedSlot + 1 } ids
    else
      skipAppeared hasAppeared s ids

def applyInOrder (s : MenciusServer) : List Nat → Except Fault MenciusServer
  | [] => .ok s
  | id :: ids => do
    let inst ← s.getInstance id
    match inst.committedCmd with
    | none => return s
    | some cmd =>
      let t ← if inst.executed then pure s else s.execute id inst cmd
      applyInOrder { t with maxExecutedSlot := t.maxExecutedSlot + 1 } ids

def applyOutOfOrder (s : MenciusServer) : List Nat → Except Fault MenciusServer
  | [] => .ok s
  | id :: ids => do
    let inst ← s.getInstance id
    match inst.committedCmd with
    | none => applyOutOfOrder s ids
    | some cmd =>
      let parsed ← SimpleRWCommand.parse cmd
      if !inst.executed && s.unexecutedKeys parsed.key == 1 then
        applyOutOfOrder (← s.execute id inst cmd) ids
      else
        applyOutOfOrder s ids

/-- Entries more than 1000 slots below the last one executed in order are erased. -/
def freeLogs (s : MenciusServer) : MenciusServer :=
  let i := max s.minActiveSlot (s.maxExecutedSlot - 1000)
  { s with
    minActiveSlot := i
    logs := fun id => if s.minActiveSlot ≤ id ∧ id < i then {} else s.logs id }

def slotsUpTo (a b : Nat) : List Nat := List.range' a (b + 1 - a)

def applyCommitted (s : MenciusServer) (hasAppeared : Marshallable → Bool) :
    Except Fault MenciusServer := do
  let s ← s.skipAppeared hasAppeared
    (List.range' s.maxCommittedSlot (s.maxActiveSlot - s.maxCommittedSlot))
  let s ← s.applyInOrder (slotsUpTo (s.maxExecutedSlot + 1) s.maxCommittedSlot)
  let s ← s.applyOutOfOrder (slotsUpTo (s.maxExecutedSlot + 1) s.maxCommittedSlot)
  return s.freeLogs

def onCommit (s : MenciusServer) (slot : Nat) (cmd : Marshallable)
    (hasAppeared : Marshallable → Bool) : Except Fault MenciusServer := do
  let inst ← s.getInstance slot
  let s := s.setInstance slot { inst with committedCmd := some (setKindTpcCommit cmd) }
  let s := { s with maxCommittedSlot := max s.maxCommittedSlot slot }
  if s.maxExecutedSlot < slot then
    s.applyCommitted hasAppeared
  else
    throw .verify

/-- The `Decide` handler: it counts the command before it commits it. -/
def decide (s : MenciusServer) (slot : Nat) (cmd : Marshallable)
    (hasAppeared : Marshallable → Bool) : Except Fault MenciusServer := do
  let parsed ← SimpleRWCommand.parse cmd
  (s.addUnexecuted parsed.key 1).onCommit slot cmd hasAppeared

end MenciusServer

/-- A message handled by the server. `hasAppeared` is the answer of the command pool while the
message is handled. Suggestions that commit skipped slots are left out. -/
inductive Message
  | prepare (slot : Nat) (ballot : Int)
  | suggest (slot : Nat) (ballot : Int) (cmd : Marshallable)
  | decide (slot : Nat) (cmd : Marshallable) (hasAppeared : Marshallable → Bool)

def handle (s : MenciusServer) : Message → Except Fault MenciusServer
  | .prepare slot ballot => s.onPrepare slot ballot
  | .suggest slot ballot cmd => s.onSuggest slot ballot cmd
  | .decide slot cmd hasAppeared => s.decide slot cmd hasAppeared

def handleAll (s : MenciusServer) : List Message → Except Fault MenciusServer
  | [] => .ok s
  | e :: es => do handleAll (← handle s e) es

end Jetpack.Mencius
