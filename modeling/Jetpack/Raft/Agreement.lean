import Jetpack.Raft.StateMachine

/-! Log matching, leader completeness and state machine safety, over all terms. -/

namespace Jetpack.Raft

open Leadership QuorumVoting Transition

variable {n : Nat} {α : Type}

namespace Partition

theorem Safe.askVotes {r : Partition n α} {system : System n α} {i : Fin n} {timeout : Nat}
    {sig : JmSignal} (h : r.Safe)
    (hsystem : r.system.step (.requestVote i timeout sig) = some system) :
    ({ r with system := system } : Partition n α).Safe := by
  have hset := hsystem
  simp only [System.step] at hset
  split at hset
  · next hcan =>
    have hnot := (canStartElection_cases hcan).1
    obtain ⟨⟨q, m⟩, hq, hset⟩ := Option.bind_eq_some_iff.mp hset
    cases hset
    refine h.rest_one (e := .requestVote i timeout sig) trivial hsystem rfl ?_ rfl rfl
    have hlead : q.isLeader = true → False := by
      intro hl
      obtain ⟨-, hcalm⟩ | ⟨_, _, -, -, -, hsame, -⟩ := RaftServer.requestVote_cases hq
      · rw [(hcalm.leader hl).1] at hnot
        cases hnot
      · rw [hsame, hnot] at hl
        cases hl
    exact ⟨RaftServer.unwritten_requestVote hq, fun hl => (hlead hl).elim,
      fun hl => (hlead hl).elim⟩
  · cases hset

theorem Safe.vote {r : Partition n α} {system : System n α} {v : Fin n} {k : Nat} (h : r.Safe)
    (hok : LeaderYields r.system (.deliverVoteRequest v k))
    (hsystem : r.system.step (.deliverVoteRequest v k) = some system) :
    ({ r with system := system } : Partition n α).Safe := by
  have hset := hsystem
  obtain ⟨m, hm, hset⟩ := Option.bind_eq_some_iff.mp hset
  split at hset
  · cases hset
  obtain ⟨⟨q, reply⟩, hq, hset⟩ := Option.bind_eq_some_iff.mp hset
  obtain ⟨b, hb, hq⟩ := Option.bind_eq_some_iff.mp hq
  cases hq
  cases hset
  refine h.rest_one hok hsystem rfl ?_ rfl rfl
  refine ⟨RaftServer.unwritten_doVote _ _ _ _, fun hl => ?_, fun _ f _ => ?_⟩
  · rw [RaftServer.doVote_isLeader, Bool.and_eq_true] at hl
    obtain rfl : b = false := by simpa using hl.2
    refine ⟨hl.1, ?_⟩
    -- A leader that refused had already reached the candidate's term.
    have hreached : ¬ (r.system.server v).currentTerm < m.candTerm :=
      fun hlt => hok m hm hl.1 hlt hb
    rw [RaftServer.doVote_currentTerm]
    simp [RaftServer.raiseTerm, hreached]
  · refine le_trans ?_ (le_max_left _ _)
    cases b with
    | false => exact le_refl _
    | true => exact RaftServer.setIsLeader_matchIndex_le r.system.now false _ f

theorem Safe.countVote {r : Partition n α} {system : System n α} {k : Nat} (h : r.Safe)
    (hsystem : r.system.step (.deliverVoteReply k) = some system) :
    ({ r with system := system } : Partition n α).Safe := by
  have hset := hsystem
  obtain ⟨reply, -, hset⟩ := Option.bind_eq_some_iff.mp hset
  obtain ⟨q, hq, hset⟩ := Option.bind_eq_some_iff.mp hset
  cases hset
  obtain ⟨w, -, -, -, rfl⟩ := RaftServer.feedVote_cases hq
  refine h.rest_one (e := .deliverVoteReply k) trivial hsystem rfl ?_ rfl rfl
  exact ⟨⟨⟨rfl, rfl, rfl, rfl, rfl⟩, rfl⟩, fun hl => ⟨hl, rfl⟩, fun _ _ _ => le_max_left _ _⟩

theorem Safe.reply {r : Partition n α} {system : System n α} {k : Nat} (h : r.Safe)
    (hsystem : r.system.step (.deliverAppendReply k) = some system) :
    ({ r with system := system } : Partition n α).Safe := by
  have hset := hsystem
  obtain ⟨p, hp, hset⟩ := Option.bind_eq_some_iff.mp hset
  cases hset
  refine h.rest_one (e := .deliverAppendReply k) trivial hsystem rfl ?_ rfl rfl
  have hcalm := RaftServer.calm_onAppendReply r.system.now p.call.leaderSiteId p
    (r.system.server p.call.leaderSiteId)
  refine ⟨RaftServer.unwritten_onAppendReply _ _ _ _, hcalm.leader, fun _ f _ => ?_⟩
  obtain hsame | ⟨rfl, hterm, hok, hcmd, hraised⟩ := RaftServer.onAppendReply_matchIndex
    r.system.now p.call.leaderSiteId p (r.system.server p.call.leaderSiteId) f
  · rw [hsame]
    exact le_max_left _ _
  · obtain ⟨hcall, hacked⟩ := h.commits.answered p (List.mem_of_getElem? hp)
    obtain ⟨R, hR⟩ := h.calls.sent p.call hcall
    have hle := (h.inv.reigned _ R hR.reign).2
    rw [hR.leader] at hle
    have hown : p.call.term = (r.system.server p.call.leaderSiteId).currentTerm :=
      le_antisymm hle hterm
    have hagreed := hacked hok hcmd
    rw [hown] at hagreed
    rw [hraised]
    exact max_le_max (le_refl _) ((min_le_right _ _).trans hagreed)

theorem Safe.step {r r' : Partition n α} {e : Event n α} (h : r.Safe) (hok : r.Regular e)
    (hstep : r.step e = some r') : r'.Safe := by
  obtain ⟨horder, hyields, habove⟩ := hok
  cases e with
  | finishVote i => exact h.finish hstep
  | start i cmd => exact h.start hstep
  | deliverAppend k => exact h.deliver horder hstep
  | tick us =>
    obtain ⟨system, hsystem, rfl⟩ := Option.map_eq_some_iff.mp hstep
    have hset := hsystem
    cases hset
    exact h.rest (e := .tick us) trivial hsystem (fun i => .refl r i _) rfl rfl rfl rfl rfl
  | requestVote i timeout sig =>
    obtain ⟨system, hsystem, rfl⟩ := Option.map_eq_some_iff.mp hstep
    exact h.askVotes hsystem
  | deliverVoteRequest v k =>
    obtain ⟨system, hsystem, rfl⟩ := Option.map_eq_some_iff.mp hstep
    exact h.vote hyields hsystem
  | deliverVoteReply k =>
    obtain ⟨system, hsystem, rfl⟩ := Option.map_eq_some_iff.mp hstep
    exact h.countVote hsystem
  | advanceCommit i =>
    obtain ⟨system, hsystem, rfl⟩ := Option.map_eq_some_iff.mp hstep
    exact h.advance hsystem
  | drain i follower =>
    obtain ⟨system, hsystem, rfl⟩ := Option.map_eq_some_iff.mp hstep
    exact h.send habove hsystem
  | deliverAppendReply k =>
    obtain ⟨system, hsystem, rfl⟩ := Option.map_eq_some_iff.mp hstep
    exact h.reply hsystem
  | appendTimeout k =>
    obtain ⟨system, hsystem, rfl⟩ := Option.map_eq_some_iff.mp hstep
    obtain ⟨m, -, hset⟩ := Option.bind_eq_some_iff.mp hsystem
    cases hset
    refine h.rest_one (e := .appendTimeout k) trivial hsystem rfl ?_ rfl rfl
    exact .of_calm ⟨⟨rfl, rfl, rfl, rfl, rfl⟩, rfl⟩ (.of_eq rfl rfl rfl) rfl
  | appendError k =>
    obtain ⟨system, hsystem, rfl⟩ := Option.map_eq_some_iff.mp hstep
    obtain ⟨m, -, hset⟩ := Option.bind_eq_some_iff.mp hsystem
    cases hset
    refine h.rest_one (e := .appendError k) trivial hsystem rfl ?_ rfl rfl
    exact .of_calm ⟨⟨rfl, rfl, rfl, rfl, rfl⟩, rfl⟩ (.of_eq rfl rfl rfl) rfl
  | pause i =>
    obtain ⟨system, hsystem, rfl⟩ := Option.map_eq_some_iff.mp hstep
    have hset := hsystem
    cases hset
    refine h.rest_one (e := .pause i) trivial hsystem rfl ?_ rfl rfl
    exact .of_calm ⟨⟨rfl, rfl, rfl, rfl, rfl⟩, rfl⟩ (.of_eq rfl rfl rfl) rfl
  | jetpackRpc i =>
    obtain ⟨system, hsystem, rfl⟩ := Option.map_eq_some_iff.mp hstep
    have hset := hsystem
    simp only [System.step] at hset
    split at hset
    · cases hset
    cases hset
    refine h.rest_one (e := .jetpackRpc i) trivial hsystem rfl ?_ rfl rfl
    exact .of_calm ⟨⟨rfl, rfl, rfl, rfl, rfl⟩, rfl⟩ (.of_eq rfl rfl rfl) rfl
  | beginRecovery i =>
    obtain ⟨system, hsystem, rfl⟩ := Option.map_eq_some_iff.mp hstep
    have hset := hsystem
    simp only [System.step] at hset
    split at hset
    · cases hset
      refine h.rest_one (e := .beginRecovery i) trivial hsystem rfl ?_ rfl rfl
      exact ⟨RaftServer.unwritten_setIsLeader _ _ _, (RaftServer.calm_stepDown _ _).leader,
        fun _ f _ => (RaftServer.setIsLeader_matchIndex_le _ _ _ f).trans (le_max_left _ _)⟩
    · cases hset

theorem Inv.grows {r r' : Partition n α} {e : Event n α} (h : r.Inv) (hstep : r.step e = some r') :
    r.chronicle.Grows r'.chronicle := by
  obtain ⟨system, hsystem, rfl⟩ := Option.map_eq_some_iff.mp hstep
  cases e with
  | start i cmd =>
    unfold after
    dsimp only
    split
    · next hl =>
      obtain ⟨R, hR⟩ := h.leads i hl
      unfold appended
      dsimp only
      rw [hR.reign]
      exact (Chronicle.grows_put hR.reign (R.extends_append _)).trans (Chronicle.grows_ack _ _ _ _)
    · exact .refl _
  | finishVote i =>
    unfold after
    dsimp only
    split
    · next hwon =>
      simp only [Bool.and_eq_true, Bool.not_eq_true'] at hwon
      obtain ⟨q, hq, hset⟩ := Option.bind_eq_some_iff.mp hsystem
      have hself : system.server i = q := by
        cases hset
        exact Function.update_self ..
      rw [hself] at hwon
      obtain hcalm | ⟨w, hw, hyes, hterm, -⟩ := RaftServer.finishVote_cases hq
      · rw [(hcalm.leader hwon.1).1] at hwon
        cases hwon.2
      · have hnone := h.reign_none hw hyes
        rw [← hterm] at hnone
        exact (Chronicle.grows_put_new _ hnone).trans (Chronicle.grows_ack _ _ _ _)
    · exact .refl _
  | deliverAppend k =>
    unfold after
    dsimp only
    split
    · unfold received
      dsimp only
      split
      · exact Chronicle.grows_ack _ _ _ _
      · exact .refl _
    · exact .refl _
  | tick _ | requestVote _ _ _ | deliverVoteRequest _ _ | deliverVoteReply _ | advanceCommit _
  | drain _ _ | deliverAppendReply _ | appendTimeout _ | appendError _ | pause _ | jetpackRpc _
  | beginRecovery _ => exact .refl _

theorem Safe.initial : ({} : Partition n α).Safe := by
  have hnone : ∀ t, ({} : Partition n α).chronicle.reign t = none := fun _ => rfl
  refine ⟨?_, ⟨fun m hm => ?_, .nil, fun k m hk => ?_⟩, fun i => ?_, fun m hm => ?_, fun p hp => ?_,
    fun i hi => ?_⟩
  · constructor
    case election => exact electionInv_init
    case asked => exact ⟨fun m hm => (by cases hm), fun p hp => (by cases hp)⟩
    case slots =>
      intro i
      refine ⟨rfl, by simp, fun _ _ => rfl, fun j hmin hj => ?_, le_refl _, Nat.le_max_left _ _⟩
      change 1 ≤ j at hmin
      change j ≤ 0 at hj
      omega
    case recorded => exact fun i j _ => rfl
    case sound =>
      constructor
      case follows => exact fun hR => by cases hR
      case start_le => exact fun hR => by cases hR
      case before => exact fun hR => by cases hR
      case within => exact fun hR => by cases hR
      case acked_none => exact fun _ => rfl
      case acked_le => exact fun hR => by cases hR
    case follows => exact fun i j hpos hj => absurd hpos (Nat.not_lt.mpr hj)
    case older => exact fun i j hpos hj => absurd hpos (Nat.not_lt.mpr hj)
    case leads => exact fun i hi => by cases hi
    case reigned => exact fun t R hR => by cases hR
    case voting => exact fun i w hw => by cases hw
    case acked => exact fun i t hpos => by cases hpos
    case keeps => exact fun i t R k _ hR => by cases hR
    case candidate => exact fun i w hw => by cases hw
    case backed => exact fun t R hR => by cases hR
  · cases hm
  · cases hk
  · exact ⟨⟨0, le_refl _, .inl rfl, le_refl _⟩, le_refl _, rfl⟩
  · cases hm
  · cases hp
  · cases hi

theorem safe_of_reachable {r : Partition n α} (h : ReachableWhere step Regular {} r) : r.Safe :=
  h.invariant (fun _ _ _ hs hok he => hs.step hok he) .initial

theorem after_system (r : Partition n α) (system : System n α) (e : Event n α) :
    (r.after system e).system = system := by
  unfold after
  split
  · split <;> rfl
  · split <;> rfl
  · split
    · unfold received
      dsimp only
      split <;> rfl
    · rfl
  · rfl

structure Later (r r' : Partition n α) : Prop where
  safe : r'.Safe
  grows : r.chronicle.Grows r'.chronicle
  term : ∀ i, (r.system.server i).currentTerm ≤ (r'.system.server i).currentTerm

theorem later_of_reachable {r r' : Partition n α} (h : r.Safe)
    (hlater : ReachableWhere step Regular r r') : r.Later r' := by
  refine ReachableWhere.invariant (fun s e t hs hok he => ?_) hlater ⟨h, .refl _, fun _ => le_refl _⟩
  obtain ⟨system, hsystem, ht⟩ := Option.map_eq_some_iff.mp he
  have hterm := (electionStep_of_step hsystem).term_le
  refine ⟨hs.safe.step hok he, hs.grows.trans (hs.safe.inv.grows he), fun i => ?_⟩
  rw [← ht, after_system]
  exact (hs.term i).trans (hterm i)

/-- What a server has committed is equal to what a server commits later. -/
theorem Later.committed_agree {r r' : Partition n α} (h : r.Safe) (h' : r.Later r') (i j : Fin n) :
    Agrees (r.history i) (r'.history j)
      (min (r.system.server i).commitIndex (r'.system.server j).commitIndex) := by
  rcases Nat.eq_zero_or_pos (r.system.server i).commitIndex with hi | hi
  · intro k hpos hk
    omega
  rcases Nat.eq_zero_or_pos (r'.system.server j).commitIndex with hj | hj
  · intro k hpos hk
    omega
  obtain ⟨t, R, l, -, hchosen, hl, hholds⟩ := h.inv.committed (h.commits.settled i) hi
  obtain ⟨t', R', l', -, hchosen', hl', hholds'⟩ :=
    h'.safe.inv.committed (h'.safe.commits.settled j) hj
  obtain ⟨R₁, hext, hgrown⟩ := hchosen.grows h'.grows
  have hagree := hgrown.agree hchosen' h'.safe.inv.sound h'.safe.inv.majorityBacked
  have hmine : Agrees (r.history i) R₁.log (r.system.server i).commitIndex :=
    hholds.agrees.trans (hext.agrees.mono (hl.trans hchosen.le)).symm
  exact ((hmine.mono (min_le_left _ _)).trans (hagree.mono (min_le_min hl hl'))).trans
    (hholds'.agrees.mono (min_le_right _ _)).symm

theorem commands_isPrefix {log log' : Nat → RaftData α} {k l : Nat} (hle : k ≤ l)
    (h : Agrees log log' k) : RaftServer.commands log 1 k <+: RaftServer.commands log' 1 l := by
  have hsame : RaftServer.commands log 1 k = RaftServer.commands log' 1 k :=
    RaftServer.commands_congr fun j hpos hj => h j hpos (by omega)
  refine ⟨RaftServer.commands log' (1 + k) (l - k), ?_⟩
  rw [hsame, RaftServer.commands_append, Nat.add_sub_cancel' hle]

/-- Two servers that hold an entry of the same term in the same slot hold equal entries in all slots
up to there which neither of them has freed. -/
theorem log_matching {r : Partition n α} (h : ReachableWhere step Regular {} r) {i j : Fin n} {k : Nat}
    (hi : (r.system.server i).minActiveSlot ≤ k ∧ k ≤ (r.system.server i).lastLogIndex)
    (hj : (r.system.server j).minActiveSlot ≤ k ∧ k ≤ (r.system.server j).lastLogIndex)
    (hterm : ((r.system.server i).raftLogs k).term = ((r.system.server j).raftLogs k).term) :
    ∀ l, (r.system.server i).minActiveSlot ≤ l → (r.system.server j).minActiveSlot ≤ l → l ≤ k →
      (r.system.server i).raftLogs l = (r.system.server j).raftLogs l := by
  have hinv := (safe_of_reachable h).inv
  intro l hli hlj hl
  have hmin := (hinv.slots i).minSlot
  rw [hinv.recorded i k hi.1, hinv.recorded j k hj.1] at hterm
  have hagrees := (hinv.follows i).matching (hinv.follows j) (by omega) hi.2 hj.2 hterm
  rw [hinv.recorded i l hli, hinv.recorded j l hlj]
  exact hagrees l (by omega) hl

def firstEntry (a b : Fin n) : List (Event n Unit) :=
  firstElection a b ++ [.start a (), .drain a b, .deliverAppend 0, .deliverAppendReply 0]

def twoEntries (a b : Fin n) : List (Event n Unit) :=
  firstEntry a b ++ [.start a (), .drain a b, .deliverAppend 1, .deliverAppendReply 1]

theorem log_matching_two : ∃ r : Partition 3 Unit, ReachableWhere step Regular {} r ∧
    (r.system.server 0).lastLogIndex = 2 ∧ (r.system.server 1).lastLogIndex = 2 ∧
    (r.system.server 0).minActiveSlot ≤ 1 ∧ (r.system.server 1).minActiveSlot ≤ 1 ∧
    ∀ l, (r.system.server 0).minActiveSlot ≤ l → (r.system.server 1).minActiveSlot ≤ l → l ≤ 2 →
      (r.system.server 0).raftLogs l = (r.system.server 1).raftLogs l := by
  have hrun : (runWhere step Regular {} (twoEntries (n := 3) 0 1)).any (fun r =>
      decide ((r.system.server 0).minActiveSlot ≤ 1 ∧ (r.system.server 1).minActiveSlot ≤ 1 ∧
        (r.system.server 0).lastLogIndex = 2 ∧ (r.system.server 1).lastLogIndex = 2 ∧
        ((r.system.server 0).raftLogs 2).term = ((r.system.server 1).raftLogs 2).term)) = true := by
    decide +kernel
  obtain ⟨r, hreach, hchecks⟩ := exists_reachableWhere hrun
  obtain ⟨hmin, hmin', hlast, hlast', hterm⟩ := of_decide_eq_true hchecks
  exact ⟨r, hreach, hlast, hlast', hmin, hmin', log_matching hreach
    ⟨hmin.trans one_le_two, hlast.ge⟩ ⟨hmin'.trans one_le_two, hlast'.ge⟩ hterm⟩

/-- What a server has committed is in the log of every leader of its term or a later one, now and at
any time after. -/
theorem leader_completeness {r r' : Partition n α} (h : ReachableWhere step Regular {} r)
    (hlater : ReachableWhere step Regular r r') {i j : Fin n} {k : Nat}
    (hcommitted : (r.system.server i).minActiveSlot ≤ k ∧ k ≤ (r.system.server i).commitIndex)
    (hleader : (r'.system.server j).isLeader = true)
    (hterm : (r.system.server i).currentTerm ≤ (r'.system.server j).currentTerm) :
    k ≤ (r'.system.server j).lastLogIndex ∧ ((r'.system.server j).minActiveSlot ≤ k →
      (r'.system.server j).raftLogs k = (r.system.server i).raftLogs k) := by
  have hsafe := safe_of_reachable h
  have hafter := later_of_reachable hsafe hlater
  have hmin := (hsafe.inv.slots i).minSlot
  obtain ⟨t, R, l, ht, hchosen, hl, hholds⟩ :=
    hsafe.inv.committed (hsafe.commits.settled i) (by omega)
  obtain ⟨R₁, hext, hgrown⟩ := hchosen.grows hafter.grows
  obtain ⟨R', hR'⟩ := hafter.safe.inv.leads j hleader
  have hcomplete := hgrown.holds hafter.safe.inv.sound hafter.safe.inv.majorityBacked hR'.reign
    (ht.trans hterm)
  have hk : k ≤ l := hcommitted.2.trans hl
  have hlast : k ≤ R'.last := hk.trans hcomplete.le
  refine ⟨hR'.last ▸ hlast, fun hlive => ?_⟩
  have hpos : 0 < k := by omega
  rw [hafter.safe.inv.recorded j k hlive, hsafe.inv.recorded i k hcommitted.1,
    ← hR'.agrees k hpos hlast, hcomplete.agrees k hpos hk,
    hext.agrees k hpos (hk.trans hchosen.le), hholds.agrees k hpos hcommitted.2]

def commitOfThree (r : Partition 3 Unit) (i f g : Fin 3) : Option (Partition 3 Unit) :=
  let s := r.system.server i
  let matched := max (s.matchIndex f) (s.matchIndex g)
  if s.isLeader && RaftServer.peers i == [f, g] then
    ((s.raiseCommit (min s.lastLogIndex matched)).bind fun s =>
      if s.executeIndex < s.commitIndex then s.applyLogs else some s).map fun s =>
        { r with system := r.system.setServer i s }
  else none

theorem step_of_commitOfThree {r r' : Partition 3 Unit} {i f g : Fin 3}
    (h : r.commitOfThree i f g = some r') : r.step (.advanceCommit i) = some r' := by
  unfold commitOfThree at h
  dsimp only at h
  split at h
  · next hcond =>
    simp only [Bool.and_eq_true, beq_iff_eq] at hcond
    obtain ⟨hl, hpeers⟩ := hcond
    obtain ⟨q', hq', rfl⟩ := Option.map_eq_some_iff.mp h
    have hmatched : ((RaftServer.peers i).map (r.system.server i).matchIndex).mergeSort[(3 - 1) / 2]? =
        some (max ((r.system.server i).matchIndex f) ((r.system.server i).matchIndex g)) := by
      rw [hpeers, List.mergeSort_eq_insertionSort]
      simp only [List.map_cons, List.map_nil, List.insertionSort_cons, List.insertionSort_nil,
        List.orderedInsert_nil, List.orderedInsert_cons]
      split
      · next hle => simpa using hle
      · next hle => simpa using (Nat.lt_of_not_le (by simpa using hle)).le
    have hcap : ∀ a b : Nat, (if a < b then a else b) = min a b := by
      intro a b
      split <;> omega
    have hcommit : (r.system.server i).advanceCommit i = some q' := by
      simp only [RaftServer.advanceCommit, hl, if_true, Option.bind_eq_bind]
      rw [hmatched, Option.bind_some, hcap]
      exact hq'
    unfold step
    rw [show r.system.step (.advanceCommit i) = some (r.system.setServer i q') by
      simp only [System.step, hcommit]
      rfl]
    rfl
  · cases h

theorem exists_commitOfThree {r : Partition 3 Unit} {i f g : Fin 3} {p : Partition 3 Unit → Bool}
    (h : (r.commitOfThree i f g).any p = true) :
    ∃ r', ReachableWhere step Regular r r' ∧ p r' = true := by
  cases hr : r.commitOfThree i f g with
  | none => simp [hr] at h
  | some r' =>
    refine ⟨r', .single ⟨.advanceCommit i, ⟨trivial, trivial, trivial⟩, step_of_commitOfThree hr⟩, ?_⟩
    simpa [hr] using h

/-- Another server is elected later, and brings its log and another command to the one that voted. -/
def secondEntry (b c : Fin n) : List (Event n Unit) :=
  [.tick 6000000, .requestVote b 5000000 { failureTriggered := true, initElectionDone := true },
   .deliverVoteRequest c 1, .deliverVoteReply 1, .finishVote b, .start b (), .drain b c,
   .deliverAppend 1, .deliverAppendReply 1, .drain b c, .deliverAppend 2, .deliverAppendReply 2]

theorem leader_completeness_second : ∃ r r' : Partition 3 Unit,
    ReachableWhere step Regular {} r ∧ ReachableWhere step Regular r r' ∧
      (r'.system.server 1).isLeader = true ∧ 1 ≤ (r'.system.server 1).lastLogIndex ∧
        ((r'.system.server 1).minActiveSlot ≤ 1 →
          (r'.system.server 1).raftLogs 1 = (r.system.server 0).raftLogs 1) := by
  have hrun : (runWhere step Regular {} (firstEntry (n := 3) 0 1)).any (fun r =>
      (r.commitOfThree 0 1 2).any fun r =>
        (runWhere step Regular r (secondEntry (n := 3) 1 2)).any fun r' =>
          decide ((r.system.server 0).minActiveSlot ≤ 1 ∧ 1 ≤ (r.system.server 0).commitIndex ∧
            (r'.system.server 1).isLeader = true ∧
            (r.system.server 0).currentTerm ≤ (r'.system.server 1).currentTerm)) = true := by
    decide +kernel
  obtain ⟨r₀, hfirst, hrun⟩ := exists_reachableWhere hrun
  obtain ⟨r, hcommit, hrun⟩ := exists_commitOfThree hrun
  obtain ⟨r', hlater, hchecks⟩ := exists_reachableWhere hrun
  obtain ⟨hmin, hcommitted, hleader, hterm⟩ := of_decide_eq_true hchecks
  exact ⟨r, r', hfirst.trans hcommit, hlater, hleader,
    leader_completeness (hfirst.trans hcommit) hlater ⟨hmin, hcommitted⟩ hleader hterm⟩

/-- Of the commands that two servers have applied, be it at different times, one list starts with the
other. -/
theorem state_machine_safety {r r' : Partition n α} (h : ReachableWhere step Regular {} r)
    (hlater : ReachableWhere step Regular r r') (i j : Fin n) :
    (r.system.server i).applied <+: (r'.system.server j).applied ∨
      (r'.system.server j).applied <+: (r.system.server i).applied := by
  have hsafe := safe_of_reachable h
  have hafter := later_of_reachable hsafe hlater
  have hi := hsafe.commits.settled i
  have hj := hafter.safe.commits.settled j
  have hagree := (hafter.committed_agree hsafe i j).mono (min_le_min hi.executed hj.executed)
  have hinjective : Function.Injective (some : α → Option α) := Option.some_injective α
  rcases Nat.le_total (r.system.server i).executeIndex (r'.system.server j).executeIndex with hle | hle
  · left
    rw [← List.prefix_map_iff_of_injective hinjective, hi.applied, hj.applied]
    exact commands_isPrefix hle (min_eq_left hle ▸ hagree)
  · right
    rw [← List.prefix_map_iff_of_injective hinjective, hi.applied, hj.applied]
    exact commands_isPrefix hle (min_eq_right hle ▸ hagree).symm

theorem state_machine_safety_second : ∃ r r' : Partition 3 Unit,
    ReachableWhere step Regular {} r ∧ ReachableWhere step Regular r r' ∧
      (r.system.server 0).applied.length = 1 ∧ (r'.system.server 1).applied.length = 2 ∧
        ((r.system.server 0).applied <+: (r'.system.server 1).applied ∨
          (r'.system.server 1).applied <+: (r.system.server 0).applied) := by
  have hrun : (runWhere step Regular {} (firstEntry (n := 3) 0 1)).any (fun r =>
      (r.commitOfThree 0 1 2).any fun r =>
        (runWhere step Regular r (secondEntry (n := 3) 1 2)).any fun r' =>
          (r'.commitOfThree 1 0 2).any fun r' =>
            decide ((r.system.server 0).applied.length = 1 ∧
              (r'.system.server 1).applied.length = 2)) = true := by
    decide +kernel
  obtain ⟨r₀, hfirst, hrun⟩ := exists_reachableWhere hrun
  obtain ⟨r, hcommit, hrun⟩ := exists_commitOfThree hrun
  obtain ⟨r₁, hsecond, hrun⟩ := exists_reachableWhere hrun
  obtain ⟨r', hcommit', hchecks⟩ := exists_commitOfThree hrun
  obtain ⟨hone, htwo⟩ := of_decide_eq_true hchecks
  have hreach := hfirst.trans hcommit
  have hlater := hsecond.trans hcommit'
  exact ⟨r, r', hreach, hlater, hone, htwo, state_machine_safety hreach hlater 0 1⟩

end Partition

end Jetpack.Raft
