import Jetpack.Recovery.System

/-! What each step does to ballots. Most steps leave the ballots of a replica as they are, raise them,
or take the replica out of the epoch. -/

namespace Jetpack.Recovery

open BallotWindow

variable {n : Nat}

/-- The replica is past the first epoch `j` now, or keeps what it accepted and the ballots it saw. -/
def Calm (j : Epoch) (r r' : TxLogServer) : Prop :=
  j < r'.jepoch ∨ (r'.jepoch = r.jepoch ∧
    r.commandPool.maxSeenBallot ≤ r'.commandPool.maxSeenBallot ∧
    r'.commandPool.maxAcceptedBallot = r.commandPool.maxAcceptedBallot ∧
    r'.commandPool.sid = r.commandPool.sid)

theorem Calm.refl (j : Epoch) (r : TxLogServer) : Calm j r r := .inr ⟨rfl, le_refl _, rfl, rfl⟩

structure SameBallots (p p' : JetpackCommandPool) : Prop where
  seen : p'.maxSeenBallot = p.maxSeenBallot
  accepted : p'.maxAcceptedBallot = p.maxAcceptedBallot
  sid : p'.sid = p.sid

theorem SameBallots.calm {j : Epoch} {r r' : TxLogServer} (hj : r'.jepoch = r.jepoch)
    (h : SameBallots r.commandPool r'.commandPool) : Calm j r r' :=
  .inr ⟨hj, le_of_eq h.seen.symm, h.accepted, h.sid⟩

theorem sameBallots_pushBack {p p' : JetpackCommandPool} {status : JetpackStatus}
    {cmd : Marshallable} {b : Bool} (h : p.pushBack status cmd = .ok (b, p')) : SameBallots p p' := by
  unfold JetpackCommandPool.pushBack at h
  split at h
  · cases h
    exact ⟨rfl, rfl, rfl⟩
  · obtain ⟨k, -, h⟩ := Except.bind_eq_ok h
    obtain ⟨bucket, -, h⟩ := Except.bind_eq_ok h
    dsimp only at h
    split at h
    · obtain ⟨-, -, h⟩ := Except.bind_eq_ok h
      cases h
      exact ⟨rfl, rfl, rfl⟩
    · cases h
      exact ⟨rfl, rfl, rfl⟩

theorem sameBallots_remove {p p' : JetpackCommandPool} {cmd : Marshallable} {k : Int}
    (h : p.remove cmd = .ok (k, p')) : SameBallots p p' := by
  refine JetpackCommandPool.remove_induct (P := SameBallots p) ?_ ⟨rfl, rfl, rfl⟩ h
  intro m _ q q' r hq hremove
  obtain ⟨k, -, hremove⟩ := Except.bind_eq_ok hremove
  cases hremove
  exact ⟨hq.seen, hq.accepted, hq.sid⟩

namespace TxLogServer

theorem onRuleSpeculativeExecute_calm {j : Epoch} {r r' : TxLogServer} {paused skip ok lead : Bool}
    {cmd : Marshallable} (h : r.onRuleSpeculativeExecute paused skip cmd = .ok (r', ok, lead)) :
    Calm j r r' := by
  unfold onRuleSpeculativeExecute at h
  split at h
  · cases h
    exact Calm.refl j r
  · split at h
    · cases h
      exact Calm.refl j r
    · obtain ⟨⟨b, pool⟩, hpush, h⟩ := Except.bind_eq_ok h
      cases h
      exact (sameBallots_pushBack hpush).calm rfl

theorem placeHolder_calm {j : Epoch} {r r' : TxLogServer} {cmd : Marshallable}
    (h : r.placeHolder cmd = .ok r') : Calm j r r' := by
  obtain ⟨⟨b, pool⟩, hpush, h⟩ := Except.bind_eq_ok h
  cases h
  exact (sameBallots_pushBack hpush).calm rfl

theorem ruleCommandPoolGC_calm {j : Epoch} {r r' : TxLogServer} {cmd : Marshallable}
    (h : r.ruleCommandPoolGC cmd = .ok r') : Calm j r r' := by
  obtain ⟨⟨k, pool⟩, hremove, h⟩ := Except.bind_eq_ok h
  cases h
  exact (sameBallots_remove hremove).calm rfl

theorem onJetpackPullRecovery_calm {j : Epoch} {r r' : TxLogServer} {jepoch oepoch jr or : Epoch}
    {ok : Bool} {batch : List (Key × CmdId)}
    (h : r.onJetpackPullRecovery jepoch oepoch = .ok (r', ok, jr, or, batch)) : Calm j r r' := by
  unfold onJetpackPullRecovery at h
  dsimp only at h
  split at h
  · obtain ⟨b, -, h⟩ := Except.bind_eq_ok h
    cases h
    exact .inr ⟨rfl, le_refl _, rfl, rfl⟩
  · cases h
    exact .inr ⟨rfl, le_refl _, rfl, rfl⟩

theorem onJetpackRecordCmd_calm (j : Epoch) (r : TxLogServer) (jepoch oepoch : Epoch) (sid : Int)
    (ids missing : List (Key × CmdId)) :
    Calm j r (r.onJetpackRecordCmd jepoch oepoch sid ids missing).1 := by
  unfold onJetpackRecordCmd
  split
  · exact .inr ⟨rfl, le_refl _, rfl, rfl⟩
  · exact Calm.refl j r

theorem seeBallot_calm (j : Epoch) (r : TxLogServer) (b : Int) : Calm j r (r.seeBallot b) :=
  .inr ⟨rfl, le_max_left _ _, rfl, rfl⟩

theorem onJetpackAccept_reply (r : TxLogServer) (jepoch oepoch : Epoch) (ballot sid : Int) :
    (r.onJetpackAccept jepoch oepoch ballot sid).2 = r.ballotOk jepoch oepoch ballot ∧
      (r.onJetpackAccept jepoch oepoch ballot sid).1.jepoch = r.jepoch ∧
      (r.onJetpackAccept jepoch oepoch ballot sid).1.oepoch = r.oepoch := by
  unfold onJetpackAccept
  split
  · next hok => exact ⟨hok.symm, rfl, rfl⟩
  · next hno => exact ⟨(Bool.not_eq_true _ ▸ hno).symm, rfl, rfl⟩

theorem onJetpackFinishRecovery_calm {j : Epoch} {r : TxLogServer} {oepoch : Epoch}
    (h : r.oepoch ≤ oepoch → j < oepoch) : Calm j r (r.onJetpackFinishRecovery oepoch) := by
  unfold onJetpackFinishRecovery
  split
  · next hle => exact .inl (h hle)
  · exact Calm.refl j r

theorem adoptEpochs_calm {j : Epoch} {r : TxLogServer} (hj : j ≤ r.jepoch) (mj mo : Epoch) :
    Calm j r (r.adoptEpochs mj mo) := by
  unfold adoptEpochs
  by_cases hlt : r.jepoch < mj
  · left
    have hout : j < mj := by bv_omega
    rw [if_pos hlt]
    dsimp only
    split <;> exact hout
  · rw [if_neg hlt]
    dsimp only
    split
    · exact .inr ⟨rfl, le_refl _, rfl, rfl⟩
    · exact Calm.refl j r

end TxLogServer

theorem Calm.trans {j : Epoch} {r r' r'' : TxLogServer} (h : Calm j r r') (h' : Calm j r' r'') :
    Calm j r r'' := by
  rcases h' with hout | ⟨hj', hseen', hacc', hsid'⟩
  · exact .inl hout
  · rcases h with hout | ⟨hj, hseen, hacc, hsid⟩
    · exact .inl (hj' ▸ hout)
    · exact .inr ⟨hj'.trans hj, le_trans hseen hseen', hacc'.trans hacc, hsid'.trans hsid⟩

theorem failRound_calm {j : Epoch} {r : TxLogServer} (hj : j ≤ r.jepoch) (mj mo : Epoch) (b : Int) :
    Calm j r (System.failRound r mj mo b) :=
  (TxLogServer.adoptEpochs_calm hj mj mo).trans (TxLogServer.seeBallot_calm j _ b)

def Call.isBallot : Call n → Bool
  | .prepare _ _ _ _ | .accept _ _ _ _ _ | .commit _ _ _ _ => true
  | _ => false

def Reply.isBallot : Reply n → Bool
  | .prepare _ _ | .accept _ _ => true
  | _ => false

/-- The coordinator's counts of prepare and accept replies are as before, or it stopped waiting for
them. -/
def CalmStage : Stage n → Stage n → Prop
  | .one w, .one w' =>
    w'.prepared = w.prepared ∧ w'.prepare = w.prepare ∧ w'.prepareFed = w.prepareFed
  | .two w, .two w' =>
    w'.accept = w.accept ∧ w'.acceptFed = w.acceptFed ∧ w'.proposeSid = w.proposeSid
  | .one _, .two w' => w'.accept = none
  | _, .one _ => False
  | _, .two _ => False
  | _, _ => True

theorem CalmStage.refl (st : Stage n) : CalmStage st st := by
  cases st <;> simp [CalmStage]

/-- A step seen by the ballots of the epoch that starts at `j`. -/
inductive RoundStep (j : Epoch) (s s' : System n) : Prop
  | calm (calls : List (Call n)) (replies : List (Reply n))
      (hservers : ∀ v, Calm j (s.server v) (s'.server v))
      (hcalls : s'.calls = s.calls ++ calls) (hcall : ∀ c ∈ calls, c.isBallot = false)
      (hreplies : s'.replies = s.replies ++ replies) (hreply : ∀ r ∈ replies, r.isBallot = false)
      (hproposals : s'.proposals = s.proposals) (hruns : s'.runs = s.runs)
      (hstage : ∀ i, CalmStage (s.stage i) (s'.stage i))
  | start (i : Fin n) (w : RoundOne n) (hidle : s.stage i = .idle)
      (hepoch : (s.server i).jepoch = j)
      (hprepared : w.prepared = (s.server i).commandPool.maxSeenBallot) (hfed : w.prepareFed = [])
      (hcount : w.prepare = { nTotal := n, quorum := n / 2 + 1 })
      (hserver : ∀ v, Calm j (s.server v) (s'.server v))
      (hcalls : s'.calls = s.calls ++
        [.pullRecovery (i, s.runs i + 1) (s.server i).jepoch (s.server i).oepoch,
         .prepare (i, s.runs i + 1) (s.server i).jepoch (s.server i).oepoch w.prepared])
      (hreplies : s'.replies = s.replies) (hproposals : s'.proposals = s.proposals)
      (hruns : s'.runs = Function.update s.runs i (s.runs i + 1))
      (hstage : s'.stage = Function.update s.stage i (.one w))
  | promise (v : Fin n) (round : Round n) (jepoch oepoch : Epoch) (ballot : Int)
      (hcall : .prepare round jepoch oepoch ballot ∈ s.calls)
      (hserver : s'.server = Function.update s.server v ((s.server v).seeBallot ballot))
      (hreplies : s'.replies = s.replies ++ [.prepare round
        ⟨v, (s.server v).ballotOk jepoch oepoch ballot, (s.server v).jepoch, (s.server v).oepoch,
          ((s.server v).seeBallot ballot).commandPool.maxSeenBallot,
          (s.server v).commandPool.maxAcceptedBallot, (s.server v).commandPool.sid⟩])
      (hcalls : s'.calls = s.calls) (hproposals : s'.proposals = s.proposals)
      (hruns : s'.runs = s.runs) (hstage : s'.stage = s.stage)
  | feedPrepare (i : Fin n) (w : RoundOne n) (x : PrepareReply n) (hone : s.stage i = .one w)
      (hreply : .prepare (s.round i) x ∈ s.replies)
      (hnew : x.site ∉ w.prepareFed.map PrepareReply.site)
      (hstage : s'.stage = Function.update s.stage i (.one
        { w with prepare := feedPrepareEvent w.prepare x, prepareFed := x :: w.prepareFed }))
      (hserver : s'.server = s.server) (hcalls : s'.calls = s.calls)
      (hreplies : s'.replies = s.replies) (hproposals : s'.proposals = s.proposals)
      (hruns : s'.runs = s.runs)
  | propose (i : Fin n) (w : RoundOne n) (w' : RoundTwo n) (sid : Int) (record : Call n)
      (hone : s.stage i = .one w) (hyes : w.prepare.yes = true)
      (hepoch : (s.server i).jepoch = j)
      (hapart : ∀ p ∈ s.proposals, Apart p
        ⟨s.round i, w.prepared, (s.server i).commandPool.maxSeenBallot + 1, w'.proposeSid⟩)
      (hsid : sid = (s.server i).nextSid i) (hrecord : record.isBallot = false)
      (hpropose : w'.proposeSid = proposeSid w.prepare sid)
      (haccept : w'.accept = some { nTotal := n, quorum := n / 2 + 1 }) (hfed : w'.acceptFed = [])
      (hserver : ∀ v, Calm j (s.server v) (s'.server v))
      (hcalls : s'.calls = s.calls ++ [record, .accept (s.round i) (s.server i).jepoch
        (s.server i).oepoch ((s.server i).commandPool.maxSeenBallot + 1) w'.proposeSid])
      (hproposals : s'.proposals = s.proposals ++
        [⟨s.round i, w.prepared, (s.server i).commandPool.maxSeenBallot + 1, w'.proposeSid⟩])
      (hreplies : s'.replies = s.replies) (hruns : s'.runs = s.runs)
      (hstage : s'.stage = Function.update s.stage i (.two w'))
  | accept (v : Fin n) (round : Round n) (jepoch oepoch : Epoch) (ballot sid maxSeen : Int)
      (hcall : .accept round jepoch oepoch ballot sid ∈ s.calls)
      (hserver : s'.server = Function.update s.server v
        ((s.server v).onJetpackAccept jepoch oepoch ballot sid).1)
      (hreplies : s'.replies = s.replies ++ [.accept round
        ⟨v, (s.server v).ballotOk jepoch oepoch ballot, (s.server v).jepoch, (s.server v).oepoch,
          maxSeen⟩])
      (hcalls : s'.calls = s.calls) (hproposals : s'.proposals = s.proposals)
      (hruns : s'.runs = s.runs) (hstage : s'.stage = s.stage)
  | feedAccept (i : Fin n) (w : RoundTwo n) (e : JetpackAcceptQuorumEvent) (x : AcceptReply n)
      (htwo : s.stage i = .two w) (he : w.accept = some e)
      (hreply : .accept (s.round i) x ∈ s.replies)
      (hnew : x.site ∉ w.acceptFed.map AcceptReply.site)
      (hstage : s'.stage = Function.update s.stage i (.two
        { w with
          accept := some (e.feedResponse x.ok x.jepoch x.oepoch x.maxSeenBallot)
          acceptFed := x :: w.acceptFed }))
      (hserver : s'.server = s.server) (hcalls : s'.calls = s.calls)
      (hreplies : s'.replies = s.replies) (hproposals : s'.proposals = s.proposals)
      (hruns : s'.runs = s.runs)
  | decide (i : Fin n) (w : RoundTwo n) (e : JetpackAcceptQuorumEvent) (jepoch oepoch : Epoch)
      (calls : List (Call n)) (htwo : s.stage i = .two w) (he : w.accept = some e)
      (hyes : e.yes = true) (hserver : ∀ v, Calm j (s.server v) (s'.server v))
      (hcalls : s'.calls = s.calls ++ .commit (s.round i) jepoch oepoch w.proposeSid :: calls)
      (hcall : ∀ c ∈ calls, c.isBallot = false) (hreplies : s'.replies = s.replies)
      (hproposals : s'.proposals = s.proposals) (hruns : s'.runs = s.runs)
      (hstage : ∀ k, k ≠ i → s'.stage k = s.stage k)
      (hdone : CalmStage .idle (s'.stage i))
  | learn (v : Fin n) (round : Round n) (jepoch oepoch : Epoch) (sid : Int)
      (hcall : .commit round jepoch oepoch sid ∈ s.calls)
      (hserver : s'.server = Function.update s.server v
        ((s.server v).onJetpackCommit jepoch oepoch sid))
      (hcalls : s'.calls = s.calls) (hreplies : s'.replies = s.replies)
      (hproposals : s'.proposals = s.proposals) (hruns : s'.runs = s.runs)
      (hstage : s'.stage = s.stage)

/-- The proposal the coordinator broadcasts if its first round is over. -/
def System.newProposal (s : System n) (i : Fin n) : Option (Proposal (Round n) Int) :=
  match s.stage i with
  | .one w =>
    if w.pull.yes && w.prepare.yes then
      some ⟨s.round i, w.prepared, (s.server i).commandPool.maxSeenBallot + 1,
        proposeSid w.prepare ((s.server i).nextSid i)⟩
    else none
  | _ => none

/-- A `FinishRecovery` that resets the replica takes it past the epoch of `j`. -/
def System.finishesPast (s : System n) (j : Epoch) (v : Fin n) : Call n → Bool
  | .finishRecovery _ oepoch => !decide ((s.server v).oepoch ≤ oepoch) || decide (j < oepoch)
  | _ => true

/-- Coordinators start and propose in the epoch of `j`, their windows of ballots are apart from those
of every other set proposed, and no `FinishRecovery` resets a replica inside the epoch. -/
def BallotsApart (j : Epoch) (s : System n) : Event n → Prop
  | .startRecovery i => (s.server i).jepoch = j
  | .roundOneDone i => ∀ p ∈ s.newProposal i,
      (s.server i).jepoch = j ∧ ∀ p' ∈ s.proposals, Apart p' p
  | .deliver v k => ∀ c ∈ s.calls[k]?, s.finishesPast j v c
  | _ => True

instance (j : Epoch) (s : System n) (e : Event n) : Decidable (BallotsApart j s e) :=
  match e with
  | .startRecovery i => inferInstanceAs (Decidable ((s.server i).jepoch = j))
  | .roundOneDone i => inferInstanceAs (Decidable (∀ p ∈ s.newProposal i, _ ∧ _))
  | .deliver v k => inferInstanceAs (Decidable (∀ c ∈ s.calls[k]?, s.finishesPast j v c))
  | .issue _ | .speculate _ _ _ _ | .feedSpec _ | .fastCommit _ | .placeHolder _ _ | .original _
  | .apply _ | .setLeader _ _ | .crash _ | .deliverDispatch _ _ | .recordError _ _ | .feed _
  | .roundTwoDone _ | .resubmitDone _ | .finishDone _ => isTrue trivial

theorem calm_update {j : Epoch} {s : System n} {v : Fin n} {r : TxLogServer}
    (h : Calm j (s.server v) r) (u : Fin n) :
    Calm j (s.server u) (Function.update s.server v r u) := by
  by_cases huv : u = v
  · subst huv
    simpa using h
  · simpa [huv] using Calm.refl j (s.server u)

theorem calmStage_update {s : System n} {i : Fin n} {st : Stage n} (h : CalmStage (s.stage i) st)
    (k : Fin n) : CalmStage (s.stage k) (Function.update s.stage i st k) := by
  by_cases hki : k = i
  · subst hki
    simpa using h
  · simpa [hki] using CalmStage.refl (s.stage k)

theorem calmStage_all (s : System n) (i : Fin n) : CalmStage (s.stage i) (s.stage i) :=
  CalmStage.refl _

theorem System.live_eq_some {s s' : System n} {v : Fin n} {next : Option (System n)}
    (h : s.live v next = some s') : next = some s' := by
  unfold live at h
  split at h
  · cases h
  · exact h

section Steps

variable {j : Epoch} {s s' : System n}

theorem roundStep_issue {cmd : VecPieceData} (h : s.issue cmd = some s') : RoundStep j s s' := by
  unfold System.issue at h
  split at h
  · cases h
    exact .calm [] [] (fun v => Calm.refl j _) (by simp) (by simp) (by simp) (by simp) rfl rfl
      (calmStage_all s)
  · cases h

theorem roundStep_speculate {v : Fin n} {k : Nat} {paused skip : Bool}
    (h : s.speculate v k paused skip = some s') : RoundStep j s s' := by
  obtain ⟨a, -, h⟩ := Option.bind_eq_some_iff.mp h
  obtain ⟨⟨r, ok, lead⟩, hr, h⟩ := Option.bind_eq_some_iff.mp h
  cases h
  exact .calm [] [] (calm_update (TxLogServer.onRuleSpeculativeExecute_calm
    (Except.toOption_eq_some hr))) (by simp [System.setServer]) (by simp) (by simp [System.setServer])
    (by simp) rfl rfl (calmStage_all s)

theorem roundStep_feedSpec {k : Nat} (h : s.feedSpec k = some s') : RoundStep j s s' := by
  obtain ⟨r, -, h⟩ := Option.bind_eq_some_iff.mp h
  obtain ⟨a, -, h⟩ := Option.bind_eq_some_iff.mp h
  split at h
  · cases h
  · cases h
    exact .calm [] [] (fun v => Calm.refl j _) (by simp) (by simp) (by simp) (by simp) rfl rfl
      (calmStage_all s)

theorem roundStep_fastCommit {k : Nat} (h : s.fastCommit k = some s') : RoundStep j s s' := by
  obtain ⟨a, -, h⟩ := Option.bind_eq_some_iff.mp h
  obtain ⟨keys, -, h⟩ := Option.bind_eq_some_iff.mp h
  split at h
  · cases h
    exact .calm [] [] (fun v => Calm.refl j _) (by simp) (by simp) (by simp) (by simp) rfl rfl
      (calmStage_all s)
  · cases h

theorem roundStep_placeHolder {v : Fin n} {cmd : Marshallable} (h : s.placeHolder v cmd = some s') :
    RoundStep j s s' := by
  unfold System.placeHolder at h
  split at h
  · obtain ⟨r, hr, h⟩ := Option.bind_eq_some_iff.mp h
    cases h
    exact .calm [] [] (calm_update (TxLogServer.placeHolder_calm (Except.toOption_eq_some hr)))
      (by simp [System.setServer]) (by simp) (by simp [System.setServer]) (by simp) rfl rfl
      (calmStage_all s)
  · cases h

theorem roundStep_apply {v : Fin n} (h : s.apply v = some s') : RoundStep j s s' := by
  obtain ⟨e, -, h⟩ := Option.bind_eq_some_iff.mp h
  obtain ⟨r, hr, h⟩ := Option.bind_eq_some_iff.mp h
  cases h
  exact .calm [] [] (calm_update (TxLogServer.ruleCommandPoolGC_calm (Except.toOption_eq_some hr)))
    (by simp [System.setServer]) (by simp) (by simp [System.setServer]) (by simp) rfl rfl
    (calmStage_all s)

theorem roundStep_startRecovery {i : Fin n} (hepoch : (s.server i).jepoch = j)
    (h : s.startRecovery i = some s') : RoundStep j s s' := by
  unfold System.startRecovery at h
  split at h
  · next hidle =>
    cases h
    refine .start i _ hidle hepoch rfl rfl rfl (calm_update ?_) rfl rfl rfl rfl rfl
    exact .inr ⟨rfl, le_refl _, rfl, rfl⟩
  · cases h

theorem roundStep_deliver {v : Fin n} {call : Call n} (hmem : call ∈ s.calls)
    (hok : ∀ round oepoch, call = .finishRecovery round oepoch →
      (s.server v).oepoch ≤ oepoch → j < oepoch)
    (h : s.deliver v call = some s') : RoundStep j s s' := by
  cases call with
  | pullRecovery round jepoch oepoch =>
    obtain ⟨⟨r, ok, jr, or, batch⟩, hr, h⟩ := Option.bind_eq_some_iff.mp h
    cases h
    exact .calm [] _ (calm_update (TxLogServer.onJetpackPullRecovery_calm
      (Except.toOption_eq_some hr))) (by simp [System.setServer]) (by simp) rfl
      (by simp [Reply.isBallot]) rfl rfl (calmStage_all s)
  | prepare round jepoch oepoch ballot =>
    cases h
    exact .promise v round jepoch oepoch ballot hmem rfl rfl rfl rfl rfl rfl
  | recordCmd round jepoch oepoch sid ids missing =>
    cases h
    exact .calm [] _ (calm_update (TxLogServer.onJetpackRecordCmd_calm j _ _ _ _ _ _))
      (by simp [System.setServer]) (by simp) rfl (by simp [Reply.isBallot]) rfl rfl (calmStage_all s)
  | accept round jepoch oepoch ballot sid =>
    cases h
    refine .accept v round jepoch oepoch ballot sid
      ((s.server v).onJetpackAccept jepoch oepoch ballot sid).1.commandPool.maxSeenBallot hmem rfl ?_ rfl
      rfl rfl rfl
    obtain ⟨hok, hj, ho⟩ := TxLogServer.onJetpackAccept_reply (s.server v) jepoch oepoch ballot sid
    rw [← hok, ← hj, ← ho]
  | commit round jepoch oepoch sid =>
    cases h
    exact .learn v round jepoch oepoch sid hmem rfl rfl rfl rfl rfl rfl
  | dispatch round cmd => cases h
  | finishRecovery round oepoch =>
    cases h
    exact .calm [] _ (calm_update (TxLogServer.onJetpackFinishRecovery_calm (hok round oepoch rfl)))
      (by simp [System.setServer]) (by simp) rfl (by simp [Reply.isBallot]) rfl rfl (calmStage_all s)

theorem roundStep_deliverDispatch {k : Nat} {accepted : Bool}
    (h : s.deliverDispatch k accepted = some s') : RoundStep j s s' := by
  unfold System.deliverDispatch at h
  split at h
  · cases h
    exact .calm [] _ (fun v => Calm.refl j _) (by simp) (by simp) rfl (by simp [Reply.isBallot]) rfl
      rfl (calmStage_all s)
  · cases h

theorem roundStep_recordError {v : Fin n} {call : Call n} (h : s.recordError v call = some s') :
    RoundStep j s s' := by
  unfold System.recordError at h
  split at h
  · split at h
    · next htwo =>
      split at h
      · cases h
        exact .calm [] [] (fun v => Calm.refl j _) (by simp [System.setStage]) (by simp)
          (by simp [System.setStage]) (by simp) rfl rfl (calmStage_update (by simp [htwo, CalmStage]))
      · cases h
    · cases h
  · cases h

/-- Feeding a reply is calm, or counts an answer to the prepare or to the accept call. -/
theorem feedStage_cases {st st' : Stage n} {reply : Reply n} (h : feedStage st reply = some st') :
    CalmStage st st' ∨
      (∃ w round x, st = .one w ∧ reply = .prepare round x ∧
        x.site ∉ w.prepareFed.map PrepareReply.site ∧ st' = .one
          { w with prepare := feedPrepareEvent w.prepare x, prepareFed := x :: w.prepareFed }) ∨
      (∃ w e round x, st = .two w ∧ w.accept = some e ∧ reply = .accept round x ∧
        x.site ∉ w.acceptFed.map AcceptReply.site ∧ st' = .two
          { w with
            accept := some (e.feedResponse x.ok x.jepoch x.oepoch x.maxSeenBallot)
            acceptFed := x :: w.acceptFed }) := by
  unfold feedStage at h
  split at h
  · split at h
    · cases h
    · cases h
      exact .inl ⟨rfl, rfl, rfl⟩
  · next w round x =>
    split at h
    · cases h
    · next hnew =>
      cases h
      exact .inr (.inl ⟨w, round, x, rfl, rfl, by simpa using hnew, rfl⟩)
  · split at h
    · cases h
    · cases h
      exact .inl ⟨rfl, rfl, rfl⟩
  · split at h
    · cases h
    · cases h
      exact .inl ⟨rfl, rfl, rfl⟩
  · next w round x =>
    split at h
    · cases h
    · next e he =>
      split at h
      · cases h
      · next hnew =>
        cases h
        exact .inr (.inr ⟨w, e, round, x, rfl, he, rfl, by simpa using hnew, rfl⟩)
  · split at h
    · cases h
      exact .inl trivial
    · cases h
  · split at h
    · cases h
    · cases h
      exact .inl trivial
  · cases h

theorem roundStep_feed {k : Nat} (h : s.feed k = some s') : RoundStep j s s' := by
  obtain ⟨reply, hreply, h⟩ := Option.bind_eq_some_iff.mp h
  have hmem : reply ∈ s.replies := List.mem_of_getElem? hreply
  split at h
  · next hround =>
    obtain ⟨st, hst, h⟩ := Option.bind_eq_some_iff.mp h
    cases h
    rcases feedStage_cases hst with hcalm | ⟨w, round, x, hone, rfl, hnew, rfl⟩ |
      ⟨w, e, round, x, htwo, he, rfl, hnew, rfl⟩
    · exact .calm [] [] (fun v => Calm.refl j _) (by simp [System.setStage]) (by simp)
        (by simp [System.setStage]) (by simp) rfl rfl (calmStage_update hcalm)
    · change s.round round.1 = round at hround
      exact .feedPrepare round.1 w x hone (hround ▸ hmem) hnew rfl rfl rfl rfl rfl rfl
    · change s.round round.1 = round at hround
      exact .feedAccept round.1 w e x htwo he (hround ▸ hmem) hnew rfl rfl rfl rfl rfl rfl
  · cases h

theorem roundStep_roundOneDone {i : Fin n} (hj : ∀ v, j ≤ (s.server v).jepoch)
    (hok : ∀ p ∈ s.newProposal i, (s.server i).jepoch = j ∧ ∀ p' ∈ s.proposals, Apart p' p)
    (h : s.roundOneDone i = some s') : RoundStep j s s' := by
  unfold System.roundOneDone at h
  dsimp only at h
  split at h
  · next w hone =>
    split at h
    · split at h
      · next hpull =>
        split at h
        · next hyes =>
          cases h
          have hproposal : s.newProposal i = some ⟨s.round i, w.prepared,
              (s.server i).commandPool.maxSeenBallot + 1,
              proposeSid w.prepare ((s.server i).nextSid i)⟩ := by
            simp [System.newProposal, hone, hpull, hyes]
          have hnew := hok _ hproposal
          refine .propose i w _ _ _ hone hyes hnew.1 hnew.2 rfl rfl rfl rfl rfl (calm_update ?_) rfl
            rfl rfl rfl rfl
          exact .inr ⟨rfl, Int.le_add_of_nonneg_right (by decide), rfl, rfl⟩
        · cases h
          exact .calm _ [] (calm_update (.inr ⟨rfl, le_refl _, rfl, rfl⟩)) rfl
            (by simp [Call.isBallot]) (by simp [System.setStage, System.setServer]) (by simp) rfl rfl
            (calmStage_update (by simp [hone, CalmStage]))
      · cases h
        exact .calm [] [] (calm_update (TxLogServer.adoptEpochs_calm (hj i) _ _))
          (by simp [System.setStage, System.setServer]) (by simp)
          (by simp [System.setStage, System.setServer]) (by simp) rfl rfl
          (calmStage_update (by simp [hone, CalmStage]))
    · cases h
  · cases h

theorem storeMissed_calm (r : TxLogServer) (w : RoundTwo n) : Calm j r (System.storeMissed r w) := by
  unfold System.storeMissed
  dsimp only
  split
  · exact .inr ⟨rfl, le_refl _, rfl, rfl⟩
  · exact Calm.refl j r

theorem storeMissed_jepoch (r : TxLogServer) (w : RoundTwo n) :
    (System.storeMissed r w).jepoch = r.jepoch := by
  unfold System.storeMissed
  dsimp only
  split <;> rfl

theorem roundStep_roundTwoDone {i : Fin n} (hj : ∀ v, j ≤ (s.server v).jepoch)
    (h : s.roundTwoDone i = some s') : RoundStep j s s' := by
  unfold System.roundTwoDone at h
  dsimp only at h
  split at h
  · next w htwo =>
    split at h
    · have hmissed := storeMissed_calm (j := j) (s.server i) w
      have hkeep : j ≤ (System.storeMissed (s.server i) w).jepoch :=
        storeMissed_jepoch (s.server i) w ▸ hj i
      have hfail : ∀ (mj mo : Epoch) (b : Int), RoundStep j s ((s.setServer i
          (System.failRound (System.storeMissed (s.server i) w) mj mo b)).setStage i .idle) := by
        intro mj mo b
        exact .calm [] [] (calm_update (hmissed.trans (failRound_calm hkeep mj mo b)))
          (by simp [System.setStage, System.setServer]) (by simp)
          (by simp [System.setStage, System.setServer]) (by simp) rfl rfl
          (calmStage_update (by simp [htwo, CalmStage]))
      split at h
      · cases h
        exact hfail _ _ _
      · next e he =>
        split at h
        · next hyes =>
          obtain ⟨cmds, -, h⟩ := Option.bind_eq_some_iff.mp h
          split at h
          · cases h
            refine .decide i w e _ _ _ htwo he hyes (calm_update hmissed)
              (List.append_assoc _ _ _) ?_ rfl rfl rfl ?_ ?_
            · simp [Call.isBallot, or_imp, forall_and]
            · intro k hk
              simp [System.broadcastFinish, System.setStage, System.setServer, hk]
            · simp [System.broadcastFinish, System.setStage, CalmStage]
          · cases h
            refine .decide i w e _ _ _ htwo he hyes (calm_update hmissed) rfl ?_ rfl rfl rfl ?_ ?_
            · simp [Call.isBallot]
            · intro k hk
              simp [System.setStage, System.setServer, hk]
            · simp [System.setStage, CalmStage]
        · cases h
          exact hfail _ _ _
    · cases h
  · cases h

theorem roundStep_broadcastFinish {i : Fin n} {calls fed : List Nat}
    (hstage : s.stage i = .resubmit calls fed) : RoundStep j s (s.broadcastFinish i) :=
  .calm _ [] (fun v => Calm.refl j _) rfl (by simp [Call.isBallot])
    (by simp [System.broadcastFinish, System.setStage]) (by simp) rfl rfl
    (calmStage_update (by simp [hstage, CalmStage]))

theorem roundStep_of_step {e : Event n} (hj : ∀ v, j ≤ (s.server v).jepoch)
    (hok : BallotsApart j s e) (h : s.step e = some s') : RoundStep j s s' := by
  cases e with
  | issue cmd => exact roundStep_issue h
  | speculate v k paused skip => exact roundStep_speculate (System.live_eq_some h)
  | feedSpec k => exact roundStep_feedSpec h
  | fastCommit k => exact roundStep_fastCommit h
  | placeHolder v cmd => exact roundStep_placeHolder (System.live_eq_some h)
  | original cmd =>
    cases h
    exact .calm [] [] (fun v => Calm.refl j _) (by simp) (by simp) (by simp) (by simp) rfl rfl
      (calmStage_all s)
  | apply v => exact roundStep_apply (System.live_eq_some h)
  | setLeader v b =>
    cases h
    exact .calm [] [] (calm_update (.inr ⟨rfl, le_refl _, rfl, rfl⟩)) (by simp [System.setServer])
      (by simp) (by simp [System.setServer]) (by simp) rfl rfl (calmStage_all s)
  | crash v =>
    dsimp only [System.step, System.crash] at h
    split at h
    · cases h
      exact .calm [] [] (fun v => Calm.refl j _) (by simp) (by simp) (by simp) (by simp) rfl rfl
        (calmStage_all s)
    · cases h
  | startRecovery i => exact roundStep_startRecovery hok (System.live_eq_some h)
  | deliver v k =>
    obtain ⟨call, hcall, h⟩ := Option.bind_eq_some_iff.mp (System.live_eq_some h)
    refine roundStep_deliver (List.mem_of_getElem? hcall) (fun round oepoch heq hle => ?_) h
    subst heq
    have hpast : s.finishesPast j v (.finishRecovery round oepoch) = true := hok _ hcall
    simpa [System.finishesPast, hle] using hpast
  | deliverDispatch k accepted => exact roundStep_deliverDispatch h
  | recordError v k =>
    obtain ⟨call, -, h⟩ := Option.bind_eq_some_iff.mp h
    exact roundStep_recordError h
  | feed k => exact roundStep_feed h
  | roundOneDone i => exact roundStep_roundOneDone hj hok (System.live_eq_some h)
  | roundTwoDone i => exact roundStep_roundTwoDone hj (System.live_eq_some h)
  | resubmitDone i =>
    have hdone := System.live_eq_some h
    unfold System.resubmitDone at hdone
    split at hdone
    · next hstage =>
      split at hdone
      · cases hdone
        exact roundStep_broadcastFinish hstage
      · cases hdone
    · cases hdone
  | finishDone i =>
    have hdone := System.live_eq_some h
    unfold System.finishDone at hdone
    split at hdone
    · next hstage =>
      split at hdone
      · cases hdone
        exact .calm [] [] (fun v => Calm.refl j _) (by simp [System.setStage]) (by simp)
          (by simp [System.setStage]) (by simp) rfl rfl
          (calmStage_update (by simp [hstage, CalmStage]))
      · cases hdone
    · cases hdone

end Steps

end Jetpack.Recovery
