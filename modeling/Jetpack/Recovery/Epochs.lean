import Jetpack.Recovery.Server

/-! The epoch checks of the five recovery handlers. Four of them compare the epochs of a message
before anything else changes, or nearly so; `OnJetpackPullRecovery` stores the epoch and the views
first. -/

namespace Jetpack.Recovery

/-- The log server with the views it keeps. `raft` is set when it is a `RaftServer` under one of the
two Raft protocols. -/
structure ViewServer extends TxLogServer where
  oldView : View := {}
  newView : View := {}
  siteId : BitVec 32 := 0
  raft : Bool := true

namespace ViewServer

/-- The views are `none` where the message holds no `ViewData`. A leader steps down when the new view
names another one. -/
def onJetpackBeginRecovery (r : ViewServer) (oldView newView : Option View) (oepoch : Epoch) :
    ViewServer :=
  let otherLeader := newView.any fun v => v.leaders.head?.any (· != r.siteId)
  { r with
    toTxLogServer :=
      { r.toTxLogServer.onJetpackBeginRecovery oepoch with
        isLeader := r.isLeader && !(r.raft && otherLeader) }
    oldView := oldView.getD r.oldView
    newView := newView.getD r.newView }

def onJetpackPullRecovery (r : ViewServer) (oldView newView : Option View) (jepoch oepoch : Epoch) :
    Except Fault (ViewServer × Bool) :=
  let r := r.onJetpackBeginRecovery oldView newView oepoch
  if r.currentFor jepoch oepoch then do
    let _ ← r.commandPool.recoveryBatch
    return (r, true)
  else .ok (r, false)

end ViewServer

inductive RecoveryMessage
  | pullRecovery (oldView newView : Option View) (jepoch oepoch : Epoch)
  | prepare (jepoch oepoch : Epoch) (ballot : Int)
  | accept (jepoch oepoch : Epoch) (ballot sid : Int)
  | commit (jepoch oepoch : Epoch) (sid : Int)
  | finishRecovery (oepoch : Epoch)

/-- The new state and the `ok` of the reply; commits and finishes have none. -/
def ViewServer.handle (r : ViewServer) : RecoveryMessage → Except Fault (ViewServer × Option Bool)
  | .pullRecovery oldView newView jepoch oepoch => do
    let (r', ok) ← r.onJetpackPullRecovery oldView newView jepoch oepoch
    return (r', some ok)
  | .prepare jepoch oepoch ballot =>
    let (s, ok) := r.toTxLogServer.onJetpackPrepare jepoch oepoch ballot
    .ok ({ r with toTxLogServer := s }, some ok)
  | .accept jepoch oepoch ballot sid =>
    let (s, ok) := r.toTxLogServer.onJetpackAccept jepoch oepoch ballot sid
    .ok ({ r with toTxLogServer := s }, some ok)
  | .commit jepoch oepoch sid =>
    .ok ({ r with toTxLogServer := r.toTxLogServer.onJetpackCommit jepoch oepoch sid }, none)
  | .finishRecovery oepoch =>
    .ok ({ r with toTxLogServer := r.toTxLogServer.onJetpackFinishRecovery oepoch }, none)

def Stale (r : ViewServer) : RecoveryMessage → Prop
  | .pullRecovery _ _ jepoch oepoch => oepoch < r.oepoch ∨ jepoch < r.jepoch
  | .prepare jepoch oepoch _ => oepoch < r.oepoch ∨ jepoch < r.jepoch
  | .accept jepoch oepoch _ _ => oepoch < r.oepoch ∨ jepoch < r.jepoch
  | .commit jepoch oepoch _ => oepoch < r.oepoch ∨ jepoch < r.jepoch
  | .finishRecovery oepoch => oepoch < r.oepoch

/-- What a stale message must leave alone. The pool holds the ballots of the recovery. -/
structure SameRecovery (r r' : ViewServer) : Prop where
  status : r'.jetpackStatus = r.jetpackStatus
  oldView : r'.oldView = r.oldView
  newView : r'.newView = r.newView
  pool : r'.commandPool = r.commandPool

/-- One message is handled as it should be: the epochs do not go back, and a stale message has no
effect and is refused. -/
structure Conforms (r : ViewServer) (m : RecoveryMessage) (r' : ViewServer) (ok : Option Bool) :
    Prop where
  jepoch_le : r.jepoch ≤ r'.jepoch
  oepoch_le : r.oepoch ≤ r'.oepoch
  same : Stale r m → SameRecovery r r'
  refused : Stale r m → ok ≠ some true

/-- When a message is harmless at this replica. A `PullRecovery` may be stale only in `jepoch`, at a
replica that already recovers under the same views. -/
def Harmless (r : ViewServer) : RecoveryMessage → Prop
  | .pullRecovery oldView newView jepoch oepoch =>
    r.oepoch ≤ oepoch ∧ (jepoch < r.jepoch → r.jetpackStatus = .recovery ∧
      oldView.getD r.oldView = r.oldView ∧ newView.getD r.newView = r.newView)
  | .prepare jepoch oepoch ballot =>
    oepoch < r.oepoch ∨ jepoch < r.jepoch → ballot ≤ r.commandPool.maxSeenBallot
  | .accept jepoch oepoch ballot _ =>
    oepoch < r.oepoch ∨ jepoch < r.jepoch → ballot ≤ r.commandPool.maxSeenBallot
  | .commit _ _ _ => True
  | .finishRecovery oepoch => r.oepoch ≤ oepoch → r.jepoch ≤ oepoch

theorem currentFor_eq_false {r : TxLogServer} {jepoch oepoch : Epoch}
    (h : oepoch < r.oepoch ∨ jepoch < r.jepoch) : r.currentFor jepoch oepoch = false := by
  rw [TxLogServer.currentFor, Bool.and_eq_false_iff]
  rcases h with h | h
  · exact Or.inr (by simpa using h)
  · exact Or.inl (by simpa using h)

theorem currentFor_eq_true {r : TxLogServer} {jepoch oepoch : Epoch}
    (h : ¬ (oepoch < r.oepoch ∨ jepoch < r.jepoch)) : r.currentFor jepoch oepoch = true := by
  obtain ⟨ho, hj⟩ := not_or.mp h
  simp only [TxLogServer.currentFor, Bool.and_eq_true, decide_eq_true_eq]
  exact ⟨BitVec.not_lt.mp hj, BitVec.not_lt.mp ho⟩

theorem currentFor_onJetpackBeginRecovery {r : ViewServer} {oldView newView : Option View}
    {jepoch oepoch : Epoch} :
    (r.onJetpackBeginRecovery oldView newView oepoch).currentFor jepoch oepoch =
      decide (r.jepoch ≤ jepoch) := by
  simp [ViewServer.onJetpackBeginRecovery, TxLogServer.onJetpackBeginRecovery,
    TxLogServer.currentFor]

/-- The state a `PullRecovery` leaves does not depend on its check, only the answer does. -/
theorem onJetpackPullRecovery_eq_ok {r r' : ViewServer} {oldView newView : Option View}
    {jepoch oepoch : Epoch} {ok : Bool}
    (h : r.onJetpackPullRecovery oldView newView jepoch oepoch = .ok (r', ok)) :
    r' = r.onJetpackBeginRecovery oldView newView oepoch ∧ ok = decide (r.jepoch ≤ jepoch) := by
  simp only [ViewServer.onJetpackPullRecovery, currentFor_onJetpackBeginRecovery] at h
  split at h
  · next hle =>
    obtain ⟨batch, -, h⟩ := Except.bind_eq_ok h
    cases h
    exact ⟨rfl, by simpa using hle.symm⟩
  · next hle =>
    cases h
    exact ⟨rfl, by simpa using hle⟩

theorem pullRecovery_conforms_iff {r r' : ViewServer} {oldView newView : Option View}
    {jepoch oepoch : Epoch} {ok : Bool}
    (h : r.onJetpackPullRecovery oldView newView jepoch oepoch = .ok (r', ok)) :
    Conforms r (.pullRecovery oldView newView jepoch oepoch) r' (some ok) ↔
      Harmless r (.pullRecovery oldView newView jepoch oepoch) := by
  obtain ⟨rfl, rfl⟩ := onJetpackPullRecovery_eq_ok h
  constructor
  · intro hc
    refine ⟨hc.oepoch_le, fun hj => ?_⟩
    have hsame := hc.same (Or.inr hj)
    exact ⟨hsame.status.symm, hsame.oldView, hsame.newView⟩
  · rintro ⟨ho, hj⟩
    refine ⟨BitVec.le_refl _, ho, fun hstale => ?_, fun hstale => ?_⟩
    · obtain ⟨hstatus, hold, hnew⟩ := hj (hstale.resolve_left (BitVec.not_lt.mpr ho))
      exact ⟨hstatus.symm, hold, hnew, rfl⟩
    · have hlt := hstale.resolve_left (BitVec.not_lt.mpr ho)
      simpa using hlt

theorem seeBallot_pool_eq_iff {r : TxLogServer} {ballot : Int} :
    (r.seeBallot ballot).commandPool = r.commandPool ↔ ballot ≤ r.commandPool.maxSeenBallot := by
  constructor
  · intro h
    have hmax := congrArg JetpackCommandPool.maxSeenBallot h
    simp only [TxLogServer.seeBallot] at hmax
    omega
  · intro h
    simp only [TxLogServer.seeBallot, max_eq_left h]

/-- Preparing and accepting change a stale replica's pool in its highest ballot only. -/
theorem seeBallot_conforms_iff {r r' : ViewServer} {m : RecoveryMessage} {ok : Bool} {ballot : Int}
    (hjepoch : r'.jepoch = r.jepoch) (hoepoch : r'.oepoch = r.oepoch)
    (hold : r'.oldView = r.oldView) (hnew : r'.newView = r.newView)
    (hstatus : r'.jetpackStatus = r.jetpackStatus)
    (hstale : Stale r m → r'.commandPool = (r.seeBallot ballot).commandPool ∧ ok = false) :
    Conforms r m r' (some ok) ↔ (Stale r m → ballot ≤ r.commandPool.maxSeenBallot) := by
  constructor
  · intro hc hs
    have hpool := (hc.same hs).pool
    rw [(hstale hs).1] at hpool
    exact seeBallot_pool_eq_iff.mp hpool
  · intro hle
    refine ⟨hjepoch ▸ BitVec.le_refl _, hoepoch ▸ BitVec.le_refl _, fun hs => ?_, fun hs => ?_⟩
    · have hpool := seeBallot_pool_eq_iff.mpr (hle hs)
      exact ⟨hstatus, hold, hnew, (hstale hs).1.trans hpool⟩
    · simp [(hstale hs).2]

theorem accept_frame (r : TxLogServer) (jepoch oepoch : Epoch) (ballot sid : Int) :
    (r.onJetpackAccept jepoch oepoch ballot sid).1.jepoch = r.jepoch ∧
    (r.onJetpackAccept jepoch oepoch ballot sid).1.oepoch = r.oepoch ∧
    (r.onJetpackAccept jepoch oepoch ballot sid).1.jetpackStatus = r.jetpackStatus := by
  simp only [TxLogServer.onJetpackAccept]
  split
  · exact ⟨rfl, rfl, rfl⟩
  · exact ⟨rfl, rfl, rfl⟩

theorem ballotOk_eq_false {r : TxLogServer} {jepoch oepoch : Epoch} {ballot : Int}
    (h : oepoch < r.oepoch ∨ jepoch < r.jepoch) : r.ballotOk jepoch oepoch ballot = false := by
  simp [TxLogServer.ballotOk, currentFor_eq_false h]

theorem accept_stale {r : TxLogServer} {jepoch oepoch : Epoch} {ballot sid : Int}
    (h : oepoch < r.oepoch ∨ jepoch < r.jepoch) :
    r.onJetpackAccept jepoch oepoch ballot sid = (r.seeBallot ballot, false) := by
  simp [TxLogServer.onJetpackAccept, ballotOk_eq_false h]

theorem commit_conforms (r : ViewServer) (jepoch oepoch : Epoch) (sid : Int) :
    Conforms r (.commit jepoch oepoch sid)
      { r with toTxLogServer := r.toTxLogServer.onJetpackCommit jepoch oepoch sid } none := by
  by_cases hstale : Stale r (.commit jepoch oepoch sid)
  · have hcur := currentFor_eq_false hstale
    have hsame : r.toTxLogServer.onJetpackCommit jepoch oepoch sid = r.toTxLogServer := by
      simp [TxLogServer.onJetpackCommit, hcur]
    rw [hsame]
    exact ⟨BitVec.le_refl _, BitVec.le_refl _, fun _ => ⟨rfl, rfl, rfl, rfl⟩, by simp⟩
  · have hcur := currentFor_eq_true hstale
    refine ⟨?_, ?_, fun h => absurd h hstale, by simp⟩
    · simp [TxLogServer.onJetpackCommit, hcur]
    · simp [TxLogServer.onJetpackCommit, hcur]

theorem finishRecovery_conforms_iff (r : ViewServer) (oepoch : Epoch) :
    Conforms r (.finishRecovery oepoch)
      { r with toTxLogServer := r.toTxLogServer.onJetpackFinishRecovery oepoch } none ↔
      (r.oepoch ≤ oepoch → r.jepoch ≤ oepoch) := by
  by_cases hle : r.oepoch ≤ oepoch
  · have hfin : r.toTxLogServer.onJetpackFinishRecovery oepoch =
        { r.toTxLogServer with
          jepoch := oepoch, oepoch := oepoch, commandPool := r.commandPool.reset
          jetpackStatus := .ready } := by
      simp [TxLogServer.onJetpackFinishRecovery, hle]
    rw [hfin]
    constructor
    · exact fun hc _ => hc.jepoch_le
    · intro h
      exact ⟨h hle, hle, fun hstale => absurd hle (BitVec.not_le.mpr hstale), by simp⟩
  · have hfin : r.toTxLogServer.onJetpackFinishRecovery oepoch = r.toTxLogServer := by
      simp [TxLogServer.onJetpackFinishRecovery, hle]
    rw [hfin]
    constructor
    · exact fun _ h => absurd h hle
    · exact fun _ =>
        ⟨BitVec.le_refl _, BitVec.le_refl _, fun _ => ⟨rfl, rfl, rfl, rfl⟩, by simp⟩

theorem handle_conforms_iff {r r' : ViewServer} {m : RecoveryMessage} {ok : Option Bool}
    (h : r.handle m = .ok (r', ok)) : Conforms r m r' ok ↔ Harmless r m := by
  cases m with
  | pullRecovery oldView newView jepoch oepoch =>
    obtain ⟨⟨s, b⟩, hpull, h⟩ := Except.bind_eq_ok h
    cases h
    exact pullRecovery_conforms_iff hpull
  | prepare jepoch oepoch ballot =>
    cases h
    exact seeBallot_conforms_iff rfl rfl rfl rfl rfl
      (fun hs => ⟨rfl, ballotOk_eq_false hs⟩)
  | accept jepoch oepoch ballot sid =>
    obtain ⟨hr', hok⟩ := Prod.mk.inj (Except.ok.inj h)
    subst hr' hok
    have hframe := accept_frame r.toTxLogServer jepoch oepoch ballot sid
    refine seeBallot_conforms_iff hframe.1 hframe.2.1 rfl rfl hframe.2.2 (fun hs => ?_)
    have hstale : r.onJetpackAccept jepoch oepoch ballot sid = (r.seeBallot ballot, false) :=
      accept_stale hs
    exact ⟨congrArg (fun p => p.1.commandPool) hstale, congrArg Prod.snd hstale⟩
  | commit jepoch oepoch sid =>
    cases h
    exact ⟨fun _ => trivial, fun _ => commit_conforms r jepoch oepoch sid⟩
  | finishRecovery oepoch =>
    cases h
    exact finishRecovery_conforms_iff r oepoch

def AtEveryMessage (P : ViewServer → RecoveryMessage → ViewServer → Option Bool → Prop) :
    ViewServer → List RecoveryMessage → Prop
  | _, [] => True
  | r, m :: ms => ∀ r' ok, r.handle m = .ok (r', ok) → P r m r' ok ∧ AtEveryMessage P r' ms

/-- Along any sequence of messages at any replica, every message is handled as it should be if and
only if every message is harmless where it arrives. -/
theorem epochs_conform_iff (r : ViewServer) (ms : List RecoveryMessage) :
    AtEveryMessage Conforms r ms ↔ AtEveryMessage (fun r m _ _ => Harmless r m) r ms := by
  induction ms generalizing r with
  | nil => exact Iff.rfl
  | cons m ms ih =>
    refine forall_congr' fun r' => forall_congr' fun ok => ?_
    constructor
    · intro hall h
      obtain ⟨hc, hrest⟩ := hall h
      exact ⟨(handle_conforms_iff h).mp hc, (ih r').mp hrest⟩
    · intro hall h
      obtain ⟨hh, hrest⟩ := hall h
      exact ⟨(handle_conforms_iff h).mpr hh, (ih r').mpr hrest⟩

/-- A recovery into epoch 2 completes, and a `PullRecovery` of epoch 1 arrives after it: it is
answered with `ok` and takes `oepoch_` from 2 to 1. -/
theorem stale_pullRecovery_accepted :
    let r : ViewServer := { jepoch := 0, oepoch := 0 }
    let ms : List RecoveryMessage :=
      [.pullRecovery none none 0 2, .finishRecovery 2, .pullRecovery none none 2 1]
    ¬ AtEveryMessage Conforms r ms ∧
      ∃ r₂ r₃ : ViewServer, r₂.oepoch = 2 ∧ Stale r₂ (.pullRecovery none none 2 1) ∧
        r₂.jetpackStatus = .ready ∧
        r₂.handle (.pullRecovery none none 2 1) = .ok (r₃, some true) ∧
        r₃.oepoch = 1 ∧ r₃.jetpackStatus = .recovery := by
  refine ⟨fun h => ?_, { jepoch := 2, oepoch := 2 }, _, rfl, Or.inl (by decide), rfl, rfl, rfl, rfl⟩
  have h₁ := (h _ _ rfl).2
  have h₂ := (h₁ _ _ rfl).2
  have h₃ := (h₂ _ _ rfl).1
  exact absurd h₃.oepoch_le (by decide)

end Jetpack.Recovery
