import Jetpack.Command

/-! A replica of SwiftPaxos: the votes on a command, the commit rule, and the recovery that moves
the replicas to a new ballot. An id stands for one command, so what the source reads from a
command's payload is a function of its id. Sequence numbers, profiling and the batching of acks are
left out: no rule of the protocol reads them. -/

namespace Jetpack.Swift

structure Workload where
  key : CmdId → Key
  isWrite : CmdId → Bool

def Workload.conflict (w : Workload) (a b : CmdId) : Bool :=
  a != b && w.key a == w.key b && (w.isWrite a || w.isWrite b)

structure SwiftKeyInfo where
  lastWrite : List CmdId := []
  lastCmd : List CmdId := []

def dropSelf (cid : CmdId) (last : List CmdId) : List CmdId :=
  match last with
  | [] => []
  | a :: _ => if a ≠ cid then last else []

def getDep (w : Workload) (keys : Key → SwiftKeyInfo) (cid : CmdId) : List CmdId :=
  let info := keys (w.key cid)
  if w.isWrite cid then dropSelf cid info.lastCmd else dropSelf cid info.lastWrite

def trackKey (w : Workload) (keys : Key → SwiftKeyInfo) (cid : CmdId) : Key → SwiftKeyInfo :=
  let info := keys (w.key cid)
  Function.update keys (w.key cid)
    { lastCmd := [cid], lastWrite := if w.isWrite cid then [cid] else info.lastWrite }

/-- The order of a dependency list is not significant. -/
def depsEqual (a b : List CmdId) : Bool :=
  a.length == b.length && a.insertionSort (· ≤ ·) == b.insertionSort (· ≤ ·)

inductive Phase
  | start
  | preAccept
  | accept
  | commit
  deriving Repr, DecidableEq

def Phase.toNat : Phase → Nat
  | .start => 0
  | .preAccept => 1
  | .accept => 2
  | .commit => 3

def fastQuorum (n : Nat) : Nat := 3 * n / 4 + 1

def slowQuorum (n : Nat) : Nat := n / 2 + 1

variable {n : Nat}

/-- The descriptor of a command; `cmd` says that its payload has arrived. A descriptor with the
defaults is the same as none. -/
structure SwiftCmdDesc (n : Nat) where
  phase : Phase := .start
  cmd : Bool := false
  myDep : List CmdId := []
  myDepSet : Bool := false
  leaderDep : List CmdId := []
  leaderAcked : Bool := false
  slowAckSent : Bool := false
  fastAcksByReplica : Fin n → Option (List CmdId) := fun _ => none
  slowAckReplicas : Fin n → Bool := fun _ => false
  delivered : Bool := false
  committed : Bool := false

namespace SwiftCmdDesc

variable (d : SwiftCmdDesc n)

def decided : Bool := d.committed || d.delivered

/-- The fast ack of replica `i` has arrived and names the dependency of the leader. -/
def matching (i : Fin n) : Bool :=
  (d.fastAcksByReplica i).any (depsEqual · d.leaderDep)

def endorsed (i : Fin n) : Bool := d.slowAckReplicas i || d.matching i

/-- The condition under which `CheckCommit` commits. -/
def quorumReached : Bool :=
  d.leaderAcked &&
    (decide (fastQuorum n ≤ (List.finRange n).countP d.matching) ||
      decide (slowQuorum n ≤ (List.finRange n).countP d.endorsed))

/-- `emplace` keeps the first vote. -/
def emplaceFastAck (i : Fin n) (dep : List CmdId) : SwiftCmdDesc n :=
  { d with fastAcksByReplica :=
      Function.update d.fastAcksByReplica i (some ((d.fastAcksByReplica i).getD dep)) }

def anchor (dep : List CmdId) : SwiftCmdDesc n :=
  { d with leaderAcked := true, leaderDep := dep }

def insertSlowAck (i : Fin n) : SwiftCmdDesc n :=
  { d with slowAckReplicas := Function.update d.slowAckReplicas i true }

end SwiftCmdDesc

/-- One command of a `SwiftRecoveryState`. -/
structure RecoveryEntry where
  cmdId : CmdId
  phase : Phase
  dep : List CmdId
  deriving Repr, DecidableEq

structure NewLeaderAckEntry where
  cballot : Nat
  state : List RecoveryEntry

inductive Message (n : Nat)
  | fastAck (replica : Fin n) (ballot : Nat) (cid : CmdId) (dep : List CmdId)
  | slowAck (replica : Fin n) (ballot : Nat) (cid : CmdId)
  | newLeader (replica : Fin n) (ballot : Nat)
  | newLeaderAck (candidate replica : Fin n) (ballot cballot : Nat) (state : List RecoveryEntry)
  | sync (replica : Fin n) (ballot : Nat) (state : List RecoveryEntry)

structure Commit where
  cmdId : CmdId
  dep : List CmdId
  ballot : Nat
  deriving Repr, DecidableEq

structure Recovery where
  ballot : Nat
  merged : List RecoveryEntry
  deriving Repr, DecidableEq

/-- `known` lists the ids of `cmd_descs_`. The last five fields record what the replica has done: the
messages it sent, its calls of `Deliver` and of `app_next_`, the commits with the dependency and the
ballot they were made in, and the states it merged. -/
structure SwiftPaxosServer (n : Nat) where
  ballot : Nat := 0
  cballot : Nat := 0
  recovering : Bool := false
  keys : Key → SwiftKeyInfo := fun _ => {}
  cmdDescs : CmdId → SwiftCmdDesc n := fun _ => {}
  known : List CmdId := []
  pendingNewLeaderAcks : Fin n → Option NewLeaderAckEntry := fun _ => none
  syncBroadcastDone : Bool := false
  sent : List (Message n) := []
  delivered : List CmdId := []
  applied : List CmdId := []
  commits : List Commit := []
  recoveries : List Recovery := []

/-- The first ballot of a replica among the `fuel` next ones. -/
def searchBallot (n loc : Nat) : Nat → Nat → Nat
  | 0, ballot => ballot
  | fuel + 1, ballot => if ballot % n = loc then ballot else searchBallot n loc fuel (ballot + 1)

namespace SwiftPaxosServer

variable (s : SwiftPaxosServer n)

def leads (i : Fin n) : Bool := i.val == s.ballot % n

def setDesc (cid : CmdId) (d : SwiftCmdDesc n) : SwiftPaxosServer n :=
  { s with
    cmdDescs := Function.update s.cmdDescs cid d
    known := if s.known.contains cid then s.known else s.known ++ [cid] }

def send (m : Message n) : SwiftPaxosServer n := { s with sent := s.sent ++ [m] }

def deliver (cid : CmdId) : SwiftPaxosServer n :=
  let d := s.cmdDescs cid
  if d.delivered then s
  else
    { s.setDesc cid { d with delivered := true } with
      delivered := s.delivered ++ [cid]
      applied := if d.cmd then s.applied ++ [cid] else s.applied }

def commitWith (cid : CmdId) (d : SwiftCmdDesc n) : SwiftPaxosServer n :=
  let t : SwiftPaxosServer n :=
    { s.setDesc cid { d with committed := true, phase := .commit } with
      commits := s.commits ++ [⟨cid, d.leaderDep, s.ballot⟩] }
  t.deliver cid

def checkCommit (cid : CmdId) : SwiftPaxosServer n :=
  let d := s.cmdDescs cid
  if d.committed then s
  else if d.quorumReached then s.commitWith cid d
  else s

/-- Every replica is in the fast and in the slow quorum, so whether the dependencies differ decides
nothing. -/
def maybeSendLightSlowAck (loc : Fin n) (cid : CmdId) : SwiftPaxosServer n :=
  let d := s.cmdDescs cid
  if s.leads loc || d.slowAckSent || d.decided || !d.myDepSet then s
  else
    (s.setDesc cid { d.insertSlowAck loc with slowAckSent := true }).send
      (.slowAck loc s.ballot cid)

def recordFastAck (loc replica : Fin n) (cid : CmdId) (dep : List CmdId) : SwiftPaxosServer n :=
  let d := (s.cmdDescs cid).emplaceFastAck replica dep
  if s.leads replica then (s.setDesc cid (d.anchor dep)).maybeSendLightSlowAck loc cid
  else s.setDesc cid d

/-- The ballot of the ack is not looked at. -/
def onFastAck (loc replica : Fin n) (cid : CmdId) (dep : List CmdId) : SwiftPaxosServer n :=
  if (s.cmdDescs cid).decided then s
  else (s.recordFastAck loc replica cid dep).checkCommit cid

def recordSlowAck (replica : Fin n) (cid : CmdId) : SwiftPaxosServer n :=
  s.setDesc cid ((s.cmdDescs cid).insertSlowAck replica)

def onLightSlowAck (replica : Fin n) (ballot : Nat) (cid : CmdId) : SwiftPaxosServer n :=
  if (s.cmdDescs cid).decided then s
  else if ballot ≠ s.ballot then s
  else (s.recordSlowAck replica cid).checkCommit cid

variable (w : Workload)

/-- `OnPropose` up to the ack of the replica to itself. -/
def preAccept (cid : CmdId) : SwiftPaxosServer n :=
  let d := s.cmdDescs cid
  let d := if d.phase = .start then { d with phase := .preAccept, cmd := true } else d
  { s.setDesc cid { d with myDep := getDep w s.keys cid, myDepSet := true } with
    keys := trackKey w s.keys cid }

def recallSlowAck (loc : Fin n) (cid : CmdId) : SwiftPaxosServer n :=
  let d := s.cmdDescs cid
  if d.leaderAcked && !d.slowAckSent && !s.leads loc then s.maybeSendLightSlowAck loc cid else s

def onPropose (loc : Fin n) (cid : CmdId) : SwiftPaxosServer n :=
  if s.recovering || (s.cmdDescs cid).decided then s
  else
    let dep := getDep w s.keys cid
    (((s.preAccept w cid).onFastAck loc loc cid dep).send
      (.fastAck loc s.ballot cid dep)).recallSlowAck loc cid

/-- A command without a payload is left out, and an empty dependency of the leader is replaced by
the replica's own. -/
def snapshotEntry (cid : CmdId) (d : SwiftCmdDesc n) : Option RecoveryEntry :=
  if d.phase = .start ∨ d.cmd = false then none
  else some ⟨cid, d.phase, if d.leaderDep = [] then d.myDep else d.leaderDep⟩

def snapshotLocalState : List RecoveryEntry :=
  s.known.filterMap fun cid => snapshotEntry cid (s.cmdDescs cid)

def installEntry (s : SwiftPaxosServer n) (e : RecoveryEntry) : SwiftPaxosServer n :=
  let d := { s.cmdDescs e.cmdId with
    phase := e.phase, leaderDep := e.dep, leaderAcked := true, cmd := true }
  let s := s.setDesc e.cmdId d
  let s :=
    if Phase.accept.toNat ≤ e.phase.toNat then { s with keys := trackKey w s.keys e.cmdId } else s
  if e.phase = .commit ∧ d.committed = false then s.commitWith e.cmdId d else s

def dropUnmerged (state : List RecoveryEntry) : SwiftPaxosServer n :=
  let keep cid := state.any (·.cmdId == cid) || (s.cmdDescs cid).committed
  { s with
    keys := fun _ => {}
    cmdDescs := fun cid => if keep cid then s.cmdDescs cid else {}
    known := s.known.filter keep }

def installRecoveryState (state : List RecoveryEntry) : SwiftPaxosServer n :=
  state.foldl (installEntry w) (s.dropUnmerged state)

/-- Any `n` ballots in a row have one of each replica. -/
def nextBallot (loc : Fin n) : Nat := searchBallot n loc n (s.ballot + 1)

def triggerRecovery (loc : Fin n) : SwiftPaxosServer n :=
  let t : SwiftPaxosServer n :=
    { s with
      ballot := s.nextBallot loc
      recovering := true
      syncBroadcastDone := false
      pendingNewLeaderAcks :=
        Function.update (fun _ => none) loc (some ⟨s.cballot, s.snapshotLocalState⟩) }
  t.send (.newLeader loc (s.nextBallot loc))

def onNewLeaderRecv (loc replica : Fin n) (ballot : Nat) : SwiftPaxosServer n :=
  if ballot ≤ s.ballot then s
  else
    let t : SwiftPaxosServer n := { s with ballot := ballot, recovering := true }
    t.send (.newLeaderAck replica loc ballot s.cballot s.snapshotLocalState)

end SwiftPaxosServer

def answers (pending : Fin n → Option NewLeaderAckEntry) : List NewLeaderAckEntry :=
  (List.finRange n).filterMap pending

def maxCballot (pending : Fin n → Option NewLeaderAckEntry) : Nat :=
  ((answers pending).map (·.cballot)).foldl max 0

/-- The entries of the answers with the highest cballot that count in the merge. -/
def mergeable (pending : Fin n → Option NewLeaderAckEntry) : List RecoveryEntry :=
  (((answers pending).filter (·.cballot == maxCballot pending)).flatMap (·.state)).filter
    fun e => e.phase == .accept || e.phase == .commit

/-- The map from ids to entries, in ascending order: an entry replaces one of a lower phase. -/
def keepBest (e : RecoveryEntry) : List RecoveryEntry → List RecoveryEntry
  | [] => [e]
  | x :: best =>
    if e.cmdId = x.cmdId then if x.phase.toNat < e.phase.toNat then e :: best else x :: best
    else if e.cmdId < x.cmdId then e :: x :: best
    else x :: keepBest e best

def mergeStates (pending : Fin n → Option NewLeaderAckEntry) : List RecoveryEntry :=
  (mergeable pending).foldl (fun best e => keepBest e best) []

namespace SwiftPaxosServer

variable (s : SwiftPaxosServer n) (w : Workload)

/-- What the answers come to once there are enough of them. -/
def finishRecovery (loc : Fin n) : SwiftPaxosServer n :=
  let merged := mergeStates s.pendingNewLeaderAcks
  let t : SwiftPaxosServer n := { s with syncBroadcastDone := true, cballot := s.ballot }
  let t := t.installRecoveryState w merged
  let t : SwiftPaxosServer n :=
    { t with recovering := false, recoveries := t.recoveries ++ [⟨s.ballot, merged⟩] }
  t.send (.sync loc s.ballot merged)

def awaits (ballot : Nat) : Bool :=
  ballot == s.ballot && s.recovering && !s.syncBroadcastDone

def recordAnswer (replica : Fin n) (cballot : Nat) (state : List RecoveryEntry) :
    SwiftPaxosServer n :=
  { s with pendingNewLeaderAcks :=
      Function.update s.pendingNewLeaderAcks replica (some ⟨cballot, state⟩) }

def hasAnswers : Bool := decide (slowQuorum n ≤ (answers s.pendingNewLeaderAcks).length)

def onNewLeaderAckRecv (loc replica : Fin n) (ballot cballot : Nat)
    (state : List RecoveryEntry) : SwiftPaxosServer n :=
  if s.awaits ballot = false then s
  else if (s.recordAnswer replica cballot state).hasAnswers then
    (s.recordAnswer replica cballot state).finishRecovery w loc
  else s.recordAnswer replica cballot state

def onSyncRecv (ballot : Nat) (state : List RecoveryEntry) : SwiftPaxosServer n :=
  if ballot < s.ballot then s
  else
    let t : SwiftPaxosServer n := { s with ballot := ballot, cballot := ballot }
    { t.installRecoveryState w state with
      recovering := false
      pendingNewLeaderAcks := fun _ => none
      syncBroadcastDone := false }

end SwiftPaxosServer

end Jetpack.Swift
