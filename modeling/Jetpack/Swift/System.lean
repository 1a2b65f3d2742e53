import Jetpack.Swift.Server
import Jetpack.Library.Transition

/-! Runs of SwiftPaxos with `n` replicas. A command may be proposed to any replica at any time, a
message that was sent may reach a replica at any time, more than once or never, and any replica may
start a recovery. A crashed replica is one that takes no more steps. -/

namespace Jetpack.Swift

variable {n : Nat}

/-- `proposed i` lists the commands that were proposed to replica `i`, in order. -/
structure System (n : Nat) where
  server : Fin n → SwiftPaxosServer n := fun _ => {}
  proposed : Fin n → List CmdId := fun _ => []

/-- `deliver i k j` brings the message that replica `i` sent as its `k`-th to replica `j`. -/
inductive Event (n : Nat)
  | propose (i : Fin n) (cid : CmdId)
  | deliver (i : Fin n) (k : Nat) (j : Fin n)
  | triggerRecovery (i : Fin n)

def Message.cmdId? : Message n → Option CmdId
  | .fastAck _ _ cid _ => some cid
  | .slowAck _ _ cid => some cid
  | _ => none

/-- The answer to a candidate goes to it alone, all else to the other replicas. -/
def Message.reaches (m : Message n) (i j : Fin n) : Bool :=
  match m with
  | .newLeaderAck candidate _ _ _ _ => j == candidate
  | _ => j != i

def SwiftPaxosServer.receive (w : Workload) (s : SwiftPaxosServer n) (loc : Fin n) :
    Message n → SwiftPaxosServer n
  | .fastAck replica _ cid dep => s.onFastAck loc replica cid dep
  | .slowAck replica ballot cid => s.onLightSlowAck replica ballot cid
  | .newLeader replica ballot => s.onNewLeaderRecv loc replica ballot
  | .newLeaderAck _ replica ballot cballot state =>
    s.onNewLeaderAckRecv w loc replica ballot cballot state
  | .sync _ ballot state => s.onSyncRecv w ballot state

namespace System

def setServer (s : System n) (i : Fin n) (r : SwiftPaxosServer n) : System n :=
  { s with server := Function.update s.server i r }

def propose (w : Workload) (s : System n) (i : Fin n) (cid : CmdId) : System n :=
  { s.setServer i ((s.server i).onPropose w i cid) with
    proposed := Function.update s.proposed i (s.proposed i ++ [cid]) }

def deliver (w : Workload) (s : System n) (i : Fin n) (k : Nat) (j : Fin n) :
    Option (System n) := do
  let m ← (s.server i).sent[k]?
  if m.reaches i j then return s.setServer j ((s.server j).receive w j m) else none

end System

def step (w : Workload) (s : System n) : Event n → Option (System n)
  | .propose i cid => some (s.propose w i cid)
  | .deliver i k j => s.deliver w i k j
  | .triggerRecovery i => some (s.setServer i ((s.server i).triggerRecovery i))

namespace SwiftPaxosServer

variable (w : Workload) (s : SwiftPaxosServer n)

def proposeCompletes (loc : Fin n) (cid : CmdId) : Bool :=
  !s.recovering && !(s.cmdDescs cid).decided &&
    (((s.preAccept w cid).recordFastAck loc loc cid (getDep w s.keys cid)).cmdDescs
      cid).quorumReached

def receiveCompletes (loc : Fin n) : Message n → Option CmdId
  | .fastAck replica _ cid dep =>
    if !(s.cmdDescs cid).decided && ((s.recordFastAck loc replica cid dep).cmdDescs cid).quorumReached
    then some cid else none
  | .slowAck replica ballot cid =>
    if !(s.cmdDescs cid).decided && ballot == s.ballot &&
      ((s.recordSlowAck replica cid).cmdDescs cid).quorumReached
    then some cid else none
  | _ => none

end SwiftPaxosServer

/-- The replica and the command whose quorum the step completes, if it completes one. -/
def completes (w : Workload) (s : System n) : Event n → Option (Fin n × CmdId)
  | .propose i cid => if (s.server i).proposeCompletes w i cid then some (i, cid) else none
  | .deliver i k j =>
    (s.server i).sent[k]?.bind fun m => ((s.server j).receiveCompletes j m).map fun cid => (j, cid)
  | .triggerRecovery _ => none

end Jetpack.Swift
