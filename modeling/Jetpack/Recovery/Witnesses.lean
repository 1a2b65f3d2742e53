import Jetpack.Library.Transition
import Jetpack.Recovery.Ballots

/-! The replicas that acknowledged a fast-committed write are its witnesses: they report it to every
recovery until it is in the log, unless their pools are reset under it. -/

namespace Jetpack

namespace JetpackCommandPool

def holds (p : JetpackCommandPool) (k : PoolKeys) (cmd : Marshallable) : Bool :=
  (p.bucket k.key).candidates.lookup k.cmdId = some ⟨cmd, true⟩ ∧
    (p.bucket k.key).toRecoverId = k.cmdId

theorem Holds.of_holds {p : JetpackCommandPool} {k : PoolKeys} {cmd : Marshallable}
    (hk : extractPoolKeys cmd = .ok (some k)) (h : p.holds k cmd = true) : p.Holds k cmd := by
  have hboth := of_decide_eq_true h
  exact ⟨hboth.1, hboth.2, extractPoolKeys_cmdId_ne hk⟩

theorem Holds.congr {p p' : JetpackCommandPool} {k : PoolKeys} {cmd : Marshallable}
    (h : p.Holds k cmd) (hc : p'.candidates = p.candidates) : p'.Holds k cmd := by
  unfold Holds bucket at h ⊢
  rw [hc]
  exact h

theorem WellFormed.congr {p p' : JetpackCommandPool} (h : p.WellFormed)
    (hc : p'.candidates = p.candidates) : p'.WellFormed := by
  unfold WellFormed bucket at h ⊢
  rw [hc]
  exact h

theorem Holds.key_mem {p : JetpackCommandPool} {k : PoolKeys} {cmd : Marshallable}
    (h : p.Holds k cmd) : k.key ∈ p.candidates.keys := by
  have hstored := h.stored
  cases hlookup : p.candidates.lookup k.key with
  | none =>
    have hempty : p.bucket k.key = {} := by simp [bucket, hlookup]
    rw [hempty] at hstored
    cases hstored
  | some b => exact AList.mem_keys.mp (AList.lookup_isSome.mp (by rw [hlookup, Option.isSome_some]))

theorem recoveryEntries_mem {p : JetpackCommandPool} {keys : List Key} {key : Key}
    {cmd : Marshallable} {batch : List (Key × CmdId)} (hkey : key ∈ keys)
    (hhas : p.hasCmdToRecover key = true) (hcmd : p.cmdToRecover key = some cmd)
    (h : p.recoveryEntries keys = .ok batch) :
    ∃ id, getCombinedCmdID (some cmd) = .ok id ∧ (key, id) ∈ batch := by
  induction keys generalizing batch with
  | nil => cases hkey
  | cons key' keys ih =>
    unfold recoveryEntries at h
    split at h
    next cmd' hhas' hcmd' =>
      obtain ⟨id, hid, h⟩ := Except.bind_eq_ok h
      obtain ⟨rest, hrest, h⟩ := Except.bind_eq_ok h
      cases h
      by_cases hsame : key = key'
      · subst hsame
        rw [hcmd] at hcmd'
        cases hcmd'
        exact ⟨id, hid, List.mem_cons_self⟩
      · obtain ⟨id', hid', hmem⟩ := ih ((List.mem_cons.mp hkey).resolve_left hsame) hrest
        exact ⟨id', hid', List.mem_cons_of_mem _ hmem⟩
    next hnot =>
      refine ih ((List.mem_cons.mp hkey).resolve_left ?_) h
      rintro rfl
      exact hnot cmd hhas hcmd

end JetpackCommandPool

theorem parse_cmdId {cmd : Marshallable} {p : TxPieceData} {c : SimpleRWCommand}
    (hp : cmd.vector0 = .ok (some p)) (h : SimpleRWCommand.parse cmd = .ok c) :
    c.cmdId = (p.clientId, p.cmdIdInClient) := by
  unfold SimpleRWCommand.parse at h
  rw [hp] at h
  obtain ⟨q, hq, h⟩ := Except.bind_eq_ok h
  cases hq
  dsimp only at h
  split at h
  · obtain ⟨key, -, h⟩ := Except.bind_eq_ok h
    cases h
    rfl
  split at h
  · obtain ⟨key, -, h⟩ := Except.bind_eq_ok h
    obtain ⟨value, -, h⟩ := Except.bind_eq_ok h
    cases h
    rfl
  split at h
  · obtain ⟨key, -, h⟩ := Except.bind_eq_ok h
    obtain ⟨value, -, h⟩ := Except.bind_eq_ok h
    cases h
    rfl
  split at h
  · obtain ⟨key, -, h⟩ := Except.bind_eq_ok h
    cases h
    rfl
  · cases h

theorem extractPoolKeys_cmdId {cmd : Marshallable} {k : PoolKeys}
    (h : extractPoolKeys cmd = .ok (some k)) :
    ∃ p, cmd.vector0 = .ok (some p) ∧ k.cmdId = combineInt32 p.clientId p.cmdIdInClient := by
  obtain ⟨o, ho, h⟩ := Except.bind_eq_ok h
  cases o with
  | none => cases h
  | some p =>
    dsimp only at h
    split at h
    · cases h
    · obtain ⟨key, -, h⟩ := Except.bind_eq_ok h
      cases h
      exact ⟨p, ho, rfl⟩

theorem getCombinedCmdID_vecPiece {v : VecPieceData} {id : CmdId} {k : PoolKeys}
    (hid : getCombinedCmdID (some (.vecPiece v)) = .ok id)
    (hk : extractPoolKeys (.vecPiece v) = .ok (some k)) : id = k.cmdId := by
  obtain ⟨p, hp, hkid⟩ := extractPoolKeys_cmdId hk
  obtain ⟨pair, hpair, hid⟩ := Except.bind_eq_ok hid
  cases hid
  change SimpleRWCommand.cmdId <$> SimpleRWCommand.parse (.vecPiece v) = .ok pair at hpair
  cases hparse : SimpleRWCommand.parse (.vecPiece v) with
  | error e =>
    rw [hparse] at hpair
    cases hpair
  | ok c =>
    rw [hparse] at hpair
    cases hpair
    rw [parse_cmdId hp hparse, hkid]

/-- A held write is in the batch that answers a recovery. -/
theorem JetpackCommandPool.Holds.reported {p : JetpackCommandPool} {k : PoolKeys}
    {v : VecPieceData} {batch : List (Key × CmdId)} (h : p.Holds k (.vecPiece v))
    (hk : extractPoolKeys (.vecPiece v) = .ok (some k)) (hbatch : p.recoveryBatch = .ok batch) :
    (k.key, k.cmdId) ∈ batch := by
  obtain ⟨id, hid, hmem⟩ :=
    recoveryEntries_mem h.key_mem (RevoveryCandidates.Holds.hasCmdToRecover h)
      (RevoveryCandidates.Holds.cmdToRecover h) hbatch
  rwa [getCombinedCmdID_vecPiece hid hk] at hmem

namespace JetpackPullRecoveryQuorumEvent

variable {n : Nat}

theorem feed_append (e : JetpackPullRecoveryQuorumEvent) (replies replies' : List (PullReply n)) :
    e.feed (replies ++ replies') = (e.feed replies).feed replies' := by
  simp [feed]

theorem feed_votes (e : JetpackPullRecoveryQuorumEvent) (replies : List (PullReply n)) :
    (e.feed replies).quorum = e.quorum ∧
      (e.feed replies).nVotedYes = e.nVotedYes + (replies.filter PullReply.ok).length := by
  induction replies generalizing e with
  | nil => exact ⟨rfl, rfl⟩
  | cons r rs ih =>
    rw [feed, List.foldl_cons, ← feed]
    obtain ⟨hquorum, hvotes⟩ := ih (e.feedResponse r.ok r.jepoch r.oepoch r.batch)
    rw [hquorum, hvotes]
    cases hr : r.ok with
    | true =>
      refine ⟨rfl, ?_⟩
      simp only [feedResponse, if_true, QuorumEvent.voteYes, List.filter_cons, hr, List.length_cons]
      omega
    | false => exact ⟨rfl, by simp [feedResponse, QuorumEvent.voteNo, hr]⟩

end JetpackPullRecoveryQuorumEvent

namespace Recovery

variable {n : Nat}

def AgreesWith (issued : List Marshallable) (cmd : Marshallable) : Prop :=
  ∀ c ∈ issued, ∀ k k', extractPoolKeys c = .ok (some k) → extractPoolKeys cmd = .ok (some k') →
    k.cmdId = k'.cmdId → c = cmd

theorem agreesWith_of_idsAgree {issued : List Marshallable} {cmd : Marshallable}
    (h : System.idsAgree issued cmd = true) : AgreesWith issued cmd := by
  intro c hc k k' hk hk' hid
  have hboth := of_decide_eq_true (List.all_eq_true.mp h c hc)
  rcases hboth with heq | hne
  · exact heq
  · rw [hk, hk'] at hne
    exact absurd (congrArg some hid) hne

theorem AgreesWith.append {issued : List Marshallable} {cmd : Marshallable}
    (hall : ∀ c ∈ issued, AgreesWith issued c) (h : AgreesWith issued cmd) :
    ∀ c ∈ issued ++ [cmd], AgreesWith (issued ++ [cmd]) c := by
  intro c hc c' hc' k k' hk hk' hid
  rcases List.mem_append.mp hc with hold | hnew
  · rcases List.mem_append.mp hc' with hold' | hnew'
    · exact hall c hold c' hold' k k' hk hk' hid
    · obtain rfl := List.mem_singleton.mp hnew'
      exact (h c hold k' k hk' hk hid.symm).symm
  · obtain rfl := List.mem_singleton.mp hnew
    rcases List.mem_append.mp hc' with hold' | hnew'
    · exact h c' hold' k k' hk hk' hid
    · exact List.mem_singleton.mp hnew'

/-- The replicas counted as acknowledging are distinct, and are the yes votes of the event. -/
structure AttemptOk (issued : List Marshallable) (a : Attempt n) : Prop where
  vec : ∃ v, a.cmd = .vecPiece v
  issued : a.cmd ∈ issued
  quorum : a.event.quorum = ruleSuperMajority n
  nodup : a.acks.Nodup
  fed : a.acks ⊆ a.fed
  count : a.event.nVotedYes = a.acks.length

/-- A super majority acknowledged the command. -/
structure FastCommitOk (issued : List Marshallable) (w : FastCommit n) : Prop where
  vec : ∃ v, w.cmd = .vecPiece v
  keys : extractPoolKeys w.cmd = .ok (some w.keys)
  issued : w.cmd ∈ issued
  nodup : w.acks.Nodup
  super : ruleSuperMajority n ≤ w.acks.length

structure Clients (s : System n) : Prop where
  agree : ∀ cmd ∈ s.issued, AgreesWith s.issued cmd
  attempt : ∀ a ∈ s.attempts, AttemptOk s.issued a
  fast : ∀ w ∈ s.fastCommitted, FastCommitOk s.issued w

theorem Clients.same {s s' : System n} (h : Clients s) (hissued : s'.issued = s.issued)
    (hattempts : s'.attempts = s.attempts) (hfast : s'.fastCommitted = s.fastCommitted) :
    Clients s' where
  agree := hissued ▸ h.agree
  attempt := hissued ▸ hattempts ▸ h.attempt
  fast := hissued ▸ hfast ▸ h.fast

theorem AttemptOk.mono {issued issued' : List Marshallable} {a : Attempt n}
    (h : AttemptOk issued a) (hsub : issued ⊆ issued') : AttemptOk issued' a :=
  { h with issued := hsub h.issued }

theorem FastCommitOk.mono {issued issued' : List Marshallable} {w : FastCommit n}
    (h : FastCommitOk issued w) (hsub : issued ⊆ issued') : FastCommitOk issued' w :=
  { h with issued := hsub h.issued }

theorem Clients.issue {s s' : System n} {cmd : VecPieceData} (hs : Clients s)
    (h : s.issue cmd = some s') : Clients s' := by
  unfold System.issue at h
  split at h
  · next hagree =>
    cases h
    have hsub : s.issued ⊆ s.issued ++ [Marshallable.vecPiece cmd] := List.subset_append_left _ _
    refine ⟨(agreesWith_of_idsAgree hagree).append hs.agree, ?_, fun w hw => (hs.fast w hw).mono hsub⟩
    intro a ha
    rcases List.mem_append.mp ha with hold | hnew
    · exact (hs.attempt a hold).mono hsub
    · obtain rfl := List.mem_singleton.mp hnew
      exact ⟨⟨cmd, rfl⟩, by simp, rfl, List.nodup_nil, List.Subset.refl _, rfl⟩
  · cases h

theorem AttemptOk.feed {issued : List Marshallable} {a : Attempt n} {r : SpecReply n}
    (h : AttemptOk issued a) (hnew : r.site ∉ a.fed) : AttemptOk issued (a.feed r) := by
  have hout : r.site ∉ a.acks := fun hmem => hnew (h.fed hmem)
  have hcount := h.count
  have hquorum := h.quorum
  unfold Attempt.feed RuleSpeculativeExecuteQuorumEvent.feedResponse
  cases hr : r.accepted with
  | true =>
    refine ⟨h.vec, h.issued, hquorum, ?_, ?_, ?_⟩
    · exact List.nodup_cons.mpr ⟨hout, h.nodup⟩
    · exact List.cons_subset_cons r.site h.fed
    · simp [QuorumEvent.voteYes, hcount]
  | false =>
    refine ⟨h.vec, h.issued, hquorum, h.nodup, ?_, hcount⟩
    exact List.Subset.trans h.fed (List.subset_cons_self _ _)

theorem Clients.feedSpec {s s' : System n} {k : Nat} (hs : Clients s) (h : s.feedSpec k = some s') :
    Clients s' := by
  obtain ⟨r, -, h⟩ := Option.bind_eq_some_iff.mp h
  obtain ⟨a, ha, h⟩ := Option.bind_eq_some_iff.mp h
  split at h
  · cases h
  · next hnew =>
    cases h
    refine ⟨hs.agree, fun b hb => ?_, hs.fast⟩
    rcases List.mem_or_eq_of_mem_set hb with hold | rfl
    · exact hs.attempt b hold
    · exact (hs.attempt a (List.mem_of_getElem? ha)).feed (by simpa using hnew)

theorem fastCommit_eq_some {s s' : System n} {k : Nat} (h : s.fastCommit k = some s') :
    ∃ a keys, s.attempts[k]? = some a ∧ extractPoolKeys a.cmd = .ok (some keys) ∧
      a.event.fastYes = true ∧
      s' = { s with fastCommitted := s.fastCommitted ++ [⟨a.cmd, keys, a.acks⟩] } := by
  obtain ⟨a, ha, h⟩ := Option.bind_eq_some_iff.mp h
  obtain ⟨keys, hkeys, h⟩ := Option.bind_eq_some_iff.mp h
  split at h
  · next hyes =>
    cases h
    exact ⟨a, keys, ha, Except.toOption_eq_some (Option.join_eq_some_iff.mp hkeys), hyes, rfl⟩
  · cases h

theorem Clients.fastCommit {s s' : System n} {k : Nat} (hs : Clients s)
    (h : s.fastCommit k = some s') : Clients s' := by
  obtain ⟨a, keys, ha, hkeys, hyes, rfl⟩ := fastCommit_eq_some h
  have hok := hs.attempt a (List.mem_of_getElem? ha)
  refine ⟨hs.agree, hs.attempt, fun w hw => ?_⟩
  rcases List.mem_append.mp hw with hold | hnew
  · exact hs.fast w hold
  · obtain rfl := List.mem_singleton.mp hnew
    refine ⟨hok.vec, hkeys, hok.issued, hok.nodup, ?_⟩
    have hvotes : a.event.quorum ≤ a.event.nVotedYes := by
      simp only [RuleSpeculativeExecuteQuorumEvent.fastYes, Bool.and_eq_true,
        decide_eq_true_eq] at hyes
      exact hyes.1
    rwa [hok.quorum, hok.count] at hvotes

/-- The pool is in order and reports every pending write that its replica acknowledged. -/
def Retains (s : System n) (v : Fin n) (p : JetpackCommandPool) : Prop :=
  p.WellFormed ∧ ∀ w ∈ s.pending, v ∈ w.acks → p.Holds w.keys w.cmd

theorem mem_pending {s : System n} {w : FastCommit n} :
    w ∈ s.pending ↔ w ∈ s.fastCommitted ∧ w.keys.isWrite = true ∧
      System.inLog s.log w.keys = false := by
  simp [System.pending]

theorem inLog_mono {log log' : List (LogEntry n)} {k : PoolKeys} (hsub : log ⊆ log')
    (h : System.inLog log k = true) : System.inLog log' k = true := by
  obtain ⟨e, he, hsame⟩ := List.any_eq_true.mp h
  exact List.any_eq_true.mpr ⟨e, hsub he, hsame⟩

theorem pending_anti {s s' : System n} (hfast : s'.fastCommitted = s.fastCommitted)
    (hlog : s.log ⊆ s'.log) : s'.pending ⊆ s.pending := by
  intro w hw
  obtain ⟨hmem, hwrite, hout⟩ := mem_pending.mp hw
  refine mem_pending.mpr ⟨hfast ▸ hmem, hwrite, ?_⟩
  by_contra hin
  rw [inLog_mono hlog (by simpa using hin)] at hout
  cases hout

namespace Retains

variable {s s' : System n} {v : Fin n} {p p' : JetpackCommandPool}

theorem anti (h : Retains s v p) (hsub : s'.pending ⊆ s.pending) : Retains s' v p :=
  ⟨h.1, fun w hw => h.2 w (hsub hw)⟩

theorem congr (h : Retains s v p) (hc : p'.candidates = p.candidates) : Retains s v p' :=
  ⟨h.1.congr hc, fun w hw hv => (h.2 w hw hv).congr hc⟩

theorem pushBack {status : JetpackStatus} {cmd : Marshallable} {b : Bool} (hs : Clients s)
    (h : Retains s v p) (hagree : AgreesWith s.issued cmd)
    (hpush : p.pushBack status cmd = .ok (b, p')) : Retains s v p' := by
  cases status with
  | recovery =>
    cases hpush
    exact h
  | ready =>
    refine ⟨h.1.pushBack hpush, fun w hw hv => ?_⟩
    obtain ⟨hmem, hwrite, -⟩ := mem_pending.mp hw
    have hok := hs.fast w hmem
    refine (h.2 w hw hv).pushBack h.1 (fun k' hk' _ hid => ?_) hpush
    obtain rfl := hagree w.cmd hok.issued w.keys k' hok.keys hk' hid.symm
    have hkeys := hok.keys.symm.trans hk'
    cases hkeys
    exact ⟨rfl, hwrite⟩

theorem remove {e : LogEntry n} {k : Int} (h : Retains s v p) (he : e ∈ s.log)
    (hremove : p.remove (.tpcCommit e.cmd) = .ok (k, p')) : Retains s v p' := by
  refine ⟨h.1.remove hremove, fun w hw hv => ?_⟩
  refine (h.2 w hw hv).remove h.1 (fun m hm k' hk' hkey hid => ?_) hremove
  obtain rfl := List.mem_singleton.mp hm
  have hin : System.inLog s.log w.keys = true :=
    List.any_eq_true.mpr ⟨e, he, by simp [System.sameCommand, hk', hkey, hid]⟩
  rw [(mem_pending.mp hw).2.2] at hin
  cases hin

theorem empty (hnone : ∀ w ∈ s.pending, v ∉ w.acks) : Retains s v {} :=
  ⟨JetpackCommandPool.wellFormed_empty, fun w hw hv => absurd hv (hnone w hw)⟩

end Retains

end Recovery

end Jetpack
