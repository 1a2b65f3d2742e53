import Jetpack.Raft.Commits

/-! Servers apply the same commands in the same order, whatever leaders come and go. -/

namespace Jetpack.Raft

open Leadership QuorumVoting Transition

variable {n : Nat} {α : Type}

namespace RaftServer

theorem onAppendReply_matchIndex (now : Nat) (self : Fin n) (reply : AppendReply n α)
    (s : RaftServer n α) (f : Fin n) :
    (s.onAppendReply now self reply).matchIndex f = s.matchIndex f ∨
      (f = reply.call.follower ∧ s.currentTerm ≤ reply.call.term ∧ reply.ok = true ∧
        reply.call.cmd.isSome = true ∧ (s.onAppendReply now self reply).matchIndex f =
          max (s.matchIndex f) (min s.lastLogIndex reply.lastLogIndex)) := by
  obtain ⟨hothers, hindices⟩ := onAppendReply_indices now self reply s
  by_cases hf : f = reply.call.follower
  · subst hf
    obtain ⟨-, hsame⟩ | ⟨-, hsame⟩ | ⟨hok, hterm, hcmd, -, hraised⟩ := hindices
    · exact .inl hsame
    · exact .inl hsame
    · exact .inr ⟨rfl, hterm, hok, hcmd, hraised⟩
  · exact .inl (hothers f hf).2

theorem setIsLeader_matchIndex_le (now : Nat) (b : Bool) (s : RaftServer n α) (f : Fin n) :
    (setIsLeader now b s).matchIndex f ≤ s.matchIndex f := by
  unfold setIsLeader
  cases b <;> dsimp only <;> split <;> first | exact le_refl _ | exact Nat.zero_le _

theorem finishVote_matchIndex {now : Nat} {s s' : RaftServer n α} (h : finishVote now s = some s')
    (f : Fin n) : s'.matchIndex f ≤ s.matchIndex f := by
  obtain ⟨v, -, rfl | ⟨-, -, rfl⟩ | rfl⟩ := finishVote_eq h
  · exact le_refl _
  · obtain ⟨_, _, heq⟩ := markElectionDoneLocked_eq v.electionAfterFailure
      (setIsLeader now true { s with voting := none })
    rw [heq]
    exact setIsLeader_matchIndex_le now true { s with voting := none } f
  · exact setIsLeader_matchIndex_le now false { s with voting := none } f

end RaftServer

namespace Partition

structure Safe (r : Partition n α) : Prop where
  inv : r.Inv
  calls : r.Calls
  commits : r.Commits

/-- The step of one server that neither writes nor commits, nor becomes leader. -/
structure Rests (r : Partition n α) (i : Fin n) (s s' : RaftServer n α) : Prop where
  unwritten : s.Unwritten s'
  leads : s'.isLeader = true → s.isLeader = true ∧ s'.currentTerm = s.currentTerm
  matched : s'.isLeader = true → ∀ f, f ≠ i →
    s'.matchIndex f ≤ max (s.matchIndex f) (r.chronicle.acked f s.currentTerm)

theorem Rests.refl (r : Partition n α) (i : Fin n) (s : RaftServer n α) : r.Rests i s s :=
  ⟨.refl s, fun h => ⟨h, rfl⟩, fun _ _ _ => le_max_left _ _⟩

theorem Rests.of_calm {r : Partition n α} {i : Fin n} {s s' : RaftServer n α}
    (h : s.Unwritten s') (hcalm : s.Calm s') (hmatch : s'.matchIndex = s.matchIndex) :
    r.Rests i s s' := by
  refine ⟨h, hcalm.leader, fun _ f _ => ?_⟩
  rw [hmatch]
  exact le_max_left _ _

theorem Safe.rest {r r' : Partition n α} {e : Event n α} (h : r.Safe)
    (hok : LeaderYields r.system e) (hsystem : r.system.step e = some r'.system)
    (hservers : ∀ i, r.Rests i (r.system.server i) (r'.system.server i))
    (hhistory : r'.history = r.history) (hchronicle : r'.chronicle = r.chronicle)
    (hhandled : r'.handled = r.handled) (happends : r'.system.appends = r.system.appends)
    (hreplies : r'.system.appendReplies = r.system.appendReplies) : r'.Safe := by
  have hterm := (electionStep_of_step hsystem).term_le
  have hgrows : r.chronicle.Grows r'.chronicle := by
    rw [hchronicle]
    exact .refl _
  have hq : Quiet r r' := by
    refine ⟨hhistory, hchronicle, fun i => ?_, fun i j hj => ?_, fun i => (hservers i).leads⟩
    · exact (hservers i).unwritten.log.lastLogIndex
    · exact (hservers i).unwritten.log.logs j hj
  refine ⟨h.inv.quiet hok hsystem hq, ?_, fun i => ?_, fun m hm => ?_, fun p hp => ?_,
    fun i hi f hf => ?_⟩
  · exact h.calls.keep hgrows happends (fun l f => by rw [hhandled]) fun m R _ => by rw [hchronicle]
  · have hsame := (hservers i).unwritten
    exact (h.commits.settled i).keep hgrows (hterm i) hsame.log.commitIndex hsame.log.executeIndex
      hsame.applied fun j _ => by rw [hhistory]
  · obtain ⟨hcovered, hle⟩ := h.commits.calls m (happends ▸ hm)
    exact ⟨hcovered.grows hgrows, hle⟩
  · rw [hreplies] at hp
    obtain ⟨hcall, hacked⟩ := h.commits.answered p hp
    refine ⟨happends ▸ hcall, ?_⟩
    rw [hchronicle]
    exact hacked
  · obtain ⟨hold, hsame⟩ := (hservers i).leads hi
    rw [hchronicle, hsame]
    exact ((hservers i).matched hi f hf).trans (max_le (h.commits.matched i hold f hf) (le_refl _))

theorem Safe.rest_one {r : Partition n α} {e : Event n α} {system : System n α} {i : Fin n}
    {q : RaftServer n α} (h : r.Safe) (hok : LeaderYields r.system e)
    (hsystem : r.system.step e = some system)
    (hserver : system.server = Function.update r.system.server i q)
    (hq : r.Rests i (r.system.server i) q) (happends : system.appends = r.system.appends)
    (hreplies : system.appendReplies = r.system.appendReplies) :
    ({ r with system := system } : Partition n α).Safe := by
  refine h.rest hok hsystem (fun j => ?_) rfl rfl rfl happends hreplies
  change r.Rests j (r.system.server j) (system.server j)
  rw [hserver]
  by_cases hj : j = i
  · subst hj
    rw [Function.update_self]
    exact hq
  · rw [Function.update_of_ne hj]
    exact .refl r j _

/-- The calls and replies stay covered when nothing is sent and no term ends. -/
theorem Commits.calls_keep {r r' : Partition n α} (h : r.Commits)
    (hgrows : r.chronicle.Grows r'.chronicle) (happends : r'.system.appends = r.system.appends) :
    ∀ m ∈ r'.system.appends, r'.Covered m.term m.commitIndex ∧ m.commitIndex ≤ m.lastIndex := by
  intro m hm
  obtain ⟨hcovered, hle⟩ := h.calls m (happends ▸ hm)
  exact ⟨hcovered.grows hgrows, hle⟩

theorem Commits.answered_keep {r r' : Partition n α} (h : r.Commits)
    (hgrows : r.chronicle.Grows r'.chronicle)
    (happends : ∀ m ∈ r.system.appends, m ∈ r'.system.appends) {p : AppendReply n α} (hp : p ∈ r.system.appendReplies) : p.call ∈ r'.system.appends ∧
      (p.ok = true → p.call.cmd.isSome = true →
        p.lastLogIndex ≤ r'.chronicle.acked p.call.follower p.call.term) := by
  obtain ⟨hcall, hacked⟩ := h.answered p hp
  exact ⟨happends _ hcall, fun hok hcmd => (hacked hok hcmd).trans (hgrows.acked _ _)⟩

theorem Inv.sent {r : Partition n α} (h : r.Inv) {i follower : Fin n} (hne : i ≠ follower)
    {q : RaftServer n α} {m : AppendEntries n α} (habove : (r.system.server i).AboveTrim follower)
    (hq : (r.system.server i).drain r.system.now i follower = some (q, some m)) :
    ∃ R, r.Sent m R ∧ m.lastIndex = R.last ∧ r.Leads i R := by
  obtain ⟨hl, hsender, hto, hterm, -⟩ := (RaftServer.drain_cases hq).2 m rfl
  obtain ⟨hcontig, hend, hnonempty⟩ := RaftServer.drain_call habove hq
  obtain ⟨R, hR⟩ := h.leads i hl
  have hend' : m.lastIndex = R.last := hend.trans hR.last.symm
  have hslots : ∀ j, 0 < j → j ≤ m.lastIndex → ∀ d, (r.system.server i).getRaftInstance j = some d →
      R.log j = d := by
    intro j hpos hj d hd
    obtain ⟨hslot, hlog⟩ := RaftServer.getRaftInstance_some hd
    rw [hR.agrees j hpos (hj.trans hend'.le), ← h.recorded i j (hslot.resolve_right (by omega)), hlog]
  refine ⟨R, ?_, hend', hR⟩
  constructor
  case reign => rw [hterm, hR.reign]
  case leader => rw [hsender, hR.leader]
  case other =>
    rw [hto, hsender]
    exact hne.symm
  case start_le =>
    rw [hend']
    exact h.sound.start_le hR.reign
  case le => exact hend'.le
  case prevTerm =>
    intro hpos
    obtain ⟨d, hd, hdterm⟩ := Option.map_eq_some_iff.mp hcontig.prev
    rw [hslots _ hpos (Nat.le_add_right _ _) d hd, hdterm]
  case cmds =>
    intro k c hk
    have hlt := (List.getElem?_eq_some_iff.mp hk).1
    refine hslots _ (Nat.succ_pos _) ?_ _ (hcontig.cmds k c hk)
    unfold AppendEntries.lastIndex
    omega
  case nonempty => exact hnonempty

theorem server_cases {s s' : System n α} {i : Fin n} {q : RaftServer n α}
    (hserver : s'.server = Function.update s.server i q)
    {P : RaftServer n α → RaftServer n α → Prop} (hself : P (s.server i) q) (hrefl : ∀ p, P p p)
    (j : Fin n) : P (s.server j) (s'.server j) := by
  rw [hserver]
  by_cases hj : j = i
  · subst hj
    rw [Function.update_self]
    exact hself
  · rw [Function.update_of_ne hj]
    exact hrefl _

theorem Inv.quiet_one {r : Partition n α} {e : Event n α} {system : System n α} {i : Fin n}
    {q : RaftServer n α} (h : r.Inv) (hok : LeaderYields r.system e)
    (hsystem : r.system.step e = some system)
    (hserver : system.server = Function.update r.system.server i q)
    (hcontrol : (r.system.server i).SameControl q)
    (hlast : q.lastLogIndex = (r.system.server i).lastLogIndex)
    (hlogs : ∀ j, q.minActiveSlot ≤ j → (r.system.server i).minActiveSlot ≤ j ∧
      q.raftLogs j = (r.system.server i).raftLogs j) :
    ({ r with system := system } : Partition n α).Inv := by
  have hq : Quiet r { r with system := system } := by
    refine ⟨rfl, rfl, ?_, ?_, ?_⟩
    · exact server_cases (P := fun p p' => p'.lastLogIndex = p.lastLogIndex) hserver hlast
        fun _ => rfl
    · exact server_cases (P := fun p p' => ∀ j, p'.minActiveSlot ≤ j →
        p.minActiveSlot ≤ j ∧ p'.raftLogs j = p.raftLogs j) hserver hlogs fun _ j hj => ⟨hj, rfl⟩
    · exact server_cases (P := fun p p' => p'.isLeader = true →
        p.isLeader = true ∧ p'.currentTerm = p.currentTerm) hserver hcontrol.calm.leader
        fun _ hl => ⟨hl, rfl⟩
  exact h.quiet hok hsystem hq

theorem Safe.send {r : Partition n α} {system : System n α} {i follower : Fin n} (h : r.Safe)
    (habove : (r.system.server i).AboveTrim follower)
    (hsystem : r.system.step (.drain i follower) = some system) :
    ({ r with system := system } : Partition n α).Safe := by
  have hset := hsystem
  simp only [System.step] at hset
  split at hset
  · cases hset
  next hne =>
  obtain ⟨⟨q, m⟩, hq, hset⟩ := Option.bind_eq_some_iff.mp hset
  have hserver : system.server = Function.update r.system.server i q := by
    cases hset
    rfl
  have happends : system.appends = r.system.appends ++ m.toList := by
    cases hset
    rfl
  have hreplies : system.appendReplies = r.system.appendReplies := by
    cases hset
    rfl
  have hunwritten := RaftServer.unwritten_drain hq
  have hcontrol := (RaftServer.drain_cases hq).1
  cases m with
  | none =>
    refine h.rest_one (e := .drain i follower) trivial hsystem hserver ?_ ?_ hreplies
    · exact .of_calm hunwritten hcontrol.calm hcontrol.matchIndex
    · rw [happends]
      exact List.append_nil _
  | some m =>
    obtain ⟨R, hsent, hend, hR⟩ := h.inv.sent hne habove hq
    have hinv := h.inv.quiet_one (e := .drain i follower) trivial hsystem hserver hcontrol
      hunwritten.log.lastLogIndex hunwritten.log.logs
    have hgrows : r.chronicle.Grows ({ r with system := system } : Partition n α).chronicle :=
      .refl _
    have hterm := (electionStep_of_step hsystem).term_le
    refine ⟨hinv, h.calls.send h.inv rfl happends rfl hsent hend, fun j => ?_, fun m' hm' => ?_,
      fun p hp => ?_, ?_⟩
    · have hsame := server_cases (P := RaftServer.Unwritten) hserver hunwritten
        RaftServer.Unwritten.refl j
      exact (h.commits.settled j).keep hgrows (hterm j) hsame.log.commitIndex
        hsame.log.executeIndex hsame.applied fun _ _ => rfl
    · change m' ∈ system.appends at hm'
      rw [happends, List.mem_append] at hm'
      rcases hm' with hm' | hm'
      · exact h.commits.calls m' hm'
      · obtain rfl := List.mem_singleton.mp hm'
        have hcommit := (RaftServer.drain_carries hq).2.1
        have hterm' := ((RaftServer.drain_cases hq).2 m' rfl).2.2.2.1
        obtain ⟨u, hu, hcovered, -⟩ := (h.commits.settled i).commits
        rw [hcommit, hterm']
        refine ⟨hcovered.mono hu (le_refl _), ?_⟩
        rw [hend, hR.last]
        exact h.inv.commit_le_last (h.commits.settled i)
    · change p ∈ system.appendReplies at hp
      rw [hreplies] at hp
      refine h.commits.answered_keep hgrows ?_ hp
      intro m' hm'
      change m' ∈ system.appends
      rw [happends]
      exact List.mem_append_left _ hm'
    · have hmatch := server_cases (P := fun p p' => p'.isLeader = p.isLeader ∧
        p'.currentTerm = p.currentTerm ∧ p'.matchIndex = p.matchIndex) hserver
        ⟨hcontrol.isLeader, hcontrol.currentTerm, hcontrol.matchIndex⟩ fun _ => ⟨rfl, rfl, rfl⟩
      intro j hj f hf
      obtain ⟨hleads, hcur, hidx⟩ := hmatch j
      change (system.server j).isLeader = true at hj
      change (system.server j).matchIndex f ≤ r.chronicle.acked f (system.server j).currentTerm
      rw [hcur, hidx]
      exact h.commits.matched j (hleads ▸ hj) f hf

theorem appliesUpTo_congr {s s' : RaftServer n α} {log log' : Nat → RaftData α}
    (h : s.AppliesUpTo s' log) (hlog : ∀ j, s.executeIndex < j → log j = log' j) :
    s.AppliesUpTo s' log' := by
  obtain ⟨hle, happlied⟩ := h
  refine ⟨hle, happlied.trans (congrArg (_ ++ ·) ?_)⟩
  exact RaftServer.commands_congr fun j hj _ => hlog j hj

theorem Inv.recorded_next {r : Partition n α} (h : r.Inv) {i : Fin n} {j : Nat}
    (hj : (r.system.server i).executeIndex < j) :
    (r.system.server i).raftLogs j = r.history i j := by
  have hmin := (h.slots i).minSlot
  exact h.recorded i j (by omega)

/-- What a leader commits was chosen in its term. -/
theorem Safe.commit_covered {r : Partition n α} (h : r.Safe) {i : Fin n} {k matched : Nat}
    (hl : (r.system.server i).isLeader = true) (hpos : 0 < k)
    (hlast : k ≤ (r.system.server i).lastLogIndex) (hmin : (r.system.server i).minActiveSlot ≤ k)
    (hterm : ((r.system.server i).raftLogs k).term = (r.system.server i).currentTerm)
    (hmatched : ((RaftServer.peers i).map (r.system.server i).matchIndex).mergeSort[(n - 1) / 2]? =
      some matched) (hk : k ≤ matched) :
    r.Covered (r.system.server i).currentTerm k ∧
      k ≤ r.chronicle.acked i (r.system.server i).currentTerm := by
  obtain ⟨R, hR⟩ := h.inv.leads i hl
  have hself : k ≤ r.chronicle.acked i (r.system.server i).currentTerm := by
    rw [hR.acked, hR.last]
    exact hlast
  obtain ⟨Q, hQ, hvoters⟩ := exists_majority_of_matched hmatched
  refine ⟨.inr ⟨_, R, k, le_refl _, ⟨hR.reign, hpos, ?_, ?_, Q, hQ, fun v hv => ?_⟩, le_refl k⟩, hself⟩
  · rw [hR.last]
    exact hlast
  · rw [hR.agrees k hpos (hR.last ▸ hlast), ← h.inv.recorded i k hmin, hterm]
  · rcases hvoters v hv with rfl | ⟨hne, hle⟩
    · exact hself
    · exact (hk.trans hle).trans (h.commits.matched i hl v hne)

theorem Safe.advance {r : Partition n α} {system : System n α} {i : Fin n} (h : r.Safe)
    (hsystem : r.system.step (.advanceCommit i) = some system) :
    ({ r with system := system } : Partition n α).Safe := by
  obtain ⟨q, hq, hset⟩ := Option.bind_eq_some_iff.mp hsystem
  have hserver : system.server = Function.update r.system.server i q := by
    cases hset
    rfl
  have happends : system.appends = r.system.appends := by
    cases hset
    rfl
  have hreplies : system.appendReplies = r.system.appendReplies := by
    cases hset
    rfl
  have hself : system.server i = q := by rw [hserver, Function.update_self]
  have hother : ∀ j, j ≠ i → system.server j = r.system.server j := fun j hj => by
    rw [hserver, Function.update_of_ne hj]
  have hcontrol := RaftServer.sameControl_advanceCommit hq
  have hadvanced := RaftServer.advanced_of_advanceCommit hq
  obtain ⟨hlast, hlogs⟩ := RaftServer.advanceCommit_logs hq
  have hinv := h.inv.quiet_one (e := .advanceCommit i) trivial hsystem hserver hcontrol hlast hlogs
  have hgrows : r.chronicle.Grows ({ r with system := system } : Partition n α).chronicle := .refl _
  refine ⟨hinv, h.calls.keep hgrows happends (fun _ _ => le_refl _) fun _ _ _ => rfl, fun j => ?_,
    h.commits.calls_keep hgrows happends, fun p hp => ?_, fun j hj f hf => ?_⟩
  · have hold := h.commits.settled j
    by_cases hj : j = i
    · subst hj
      refine hold.advance ?_ ?_ ?_ fun _ _ _ => rfl
      · change ∃ u, u ≤ (system.server j).currentTerm ∧ _
        rw [hself, hcontrol.currentTerm]
        obtain hsame | ⟨hl, hlt, hle, hmin, hterm, matched, hmatched, hk⟩ := hadvanced.commit
        · obtain ⟨u, hu, hcovered, hacked⟩ := hold.commits
          refine ⟨u, hu, ?_, ?_⟩
          · rw [hsame]
            exact hcovered
          · rw [hsame]
            exact hacked
        · have hchosen := h.commit_covered hl (by omega) hle hmin hterm hmatched hk
          exact ⟨_, le_refl _, hchosen.1, hchosen.2⟩
      · change (system.server j).executeIndex ≤ (system.server j).commitIndex
        rw [hself]
        have hexec := hold.executed
        have hexecuted := hadvanced.executed
        have hcommit : (r.system.server j).commitIndex ≤ q.commitIndex := by
          obtain hsame | ⟨-, hlt, -⟩ := hadvanced.commit
          · exact hsame.ge
          · exact hlt.le
        omega
      · change (r.system.server j).AppliesUpTo (system.server j) (r.history j)
        rw [hself]
        exact appliesUpTo_congr hadvanced.applies fun k hk => h.inv.recorded_next hk
    · have hsame := hother j hj
      refine hold.keep hgrows ?_ ?_ ?_ ?_ fun _ _ => rfl
      · exact (congrArg RaftServer.currentTerm hsame).ge
      · exact congrArg RaftServer.commitIndex hsame
      · exact congrArg RaftServer.executeIndex hsame
      · exact congrArg RaftServer.applied hsame
  · change p ∈ system.appendReplies at hp
    rw [hreplies] at hp
    exact h.commits.answered_keep hgrows (fun _ hm => happends.symm ▸ hm) hp
  · have hmatch := server_cases (P := fun p p' => p'.isLeader = p.isLeader ∧
      p'.currentTerm = p.currentTerm ∧ p'.matchIndex = p.matchIndex) hserver
      ⟨hcontrol.isLeader, hcontrol.currentTerm, hcontrol.matchIndex⟩ (fun _ => ⟨rfl, rfl, rfl⟩) j
    obtain ⟨hleads, hcur, hidx⟩ := hmatch
    change (system.server j).isLeader = true at hj
    change (system.server j).matchIndex f ≤ r.chronicle.acked f (system.server j).currentTerm
    rw [hcur, hidx]
    exact h.commits.matched j (hleads ▸ hj) f hf

theorem Safe.grow {r r' : Partition n α} {i : Fin n} {t : Nat} (h : r.Safe)
    (hg : Grown r r' i t) (hinv : r'.Inv)
    (hcur : (r.system.server i).currentTerm = t)
    (hcommit : (r'.system.server i).commitIndex = (r.system.server i).commitIndex)
    (hexec : (r'.system.server i).executeIndex = (r.system.server i).executeIndex)
    (happlied : (r'.system.server i).applied = (r.system.server i).applied)
    (hhistory : ∀ j, j ≤ (r.system.server i).executeIndex → r'.history i j = r.history i j)
    (happends : r'.system.appends = r.system.appends)
    (hreplies : r'.system.appendReplies = r.system.appendReplies)
    (hhandled : r'.handled = r.handled)
    (hcalls : ∀ m R, r.Sent m R → ¬ (m.follower = i ∧ m.term = t))
    (hmatch : (r'.system.server i).isLeader = true → ∀ f, f ≠ i →
      (r'.system.server i).matchIndex f ≤ r.chronicle.acked f t) : r'.Safe := by
  refine ⟨hinv, ?_, fun j => ?_, h.commits.calls_keep hg.grows happends, fun p hp => ?_,
    fun j hj f hf => ?_⟩
  · exact h.calls.keep hg.grows happends (fun l f => by rw [hhandled]) fun m R hm =>
      hg.acked _ _ (hcalls m R hm)
  · have hold := h.commits.settled j
    by_cases hji : j = i
    · subst hji
      refine hold.keep hg.grows ?_ hcommit hexec happlied hhistory
      rw [hg.term, hcur]
    · have hsame := hg.others j hji
      refine hold.keep hg.grows ?_ ?_ ?_ ?_ fun k _ => by rw [hg.histories j hji]
      · exact (congrArg RaftServer.currentTerm hsame).ge
      · exact congrArg RaftServer.commitIndex hsame
      · exact congrArg RaftServer.executeIndex hsame
      · exact congrArg RaftServer.applied hsame
  · rw [hreplies] at hp
    exact h.commits.answered_keep hg.grows (fun _ hm => happends.symm ▸ hm) hp
  · by_cases hji : j = i
    · subst hji
      rw [hg.term]
      exact (hmatch hj f hf).trans (hg.grows.acked f t)
    · rw [hg.others j hji] at hj ⊢
      exact (h.commits.matched j hj f hf).trans (hg.grows.acked f _)

theorem Safe.finish {r r' : Partition n α} {i : Fin n} (h : r.Safe)
    (hstep : r.step (.finishVote i) = some r') : r'.Safe := by
  obtain ⟨system, hsystem, rfl⟩ := Option.map_eq_some_iff.mp hstep
  obtain ⟨q, hq, hset⟩ := Option.bind_eq_some_iff.mp hsystem
  have hserver : system.server = Function.update r.system.server i q := by
    cases hset
    rfl
  have happends : system.appends = r.system.appends := by
    cases hset
    rfl
  have hreplies : system.appendReplies = r.system.appendReplies := by
    cases hset
    rfl
  have hself : system.server i = q := by rw [hserver, Function.update_self]
  have hunwritten := RaftServer.unwritten_finishVote hq
  unfold after
  dsimp only
  rw [hself]
  split
  · next hwon =>
    simp only [Bool.and_eq_true, Bool.not_eq_true'] at hwon
    obtain ⟨hl, hnot⟩ := hwon
    obtain hcalm | ⟨w, hw, hyes, hterm, hwins⟩ := RaftServer.finishVote_cases hq
    · rw [(hcalm.leader hl).1] at hnot
      cases hnot
    have hfields : q.currentTerm = (r.system.server i).currentTerm ∧ q.voting = none ∧
        q.matchIndex = fun _ => 0 := by
      rw [hwins]
      unfold RaftServer.markElectionDoneLocked
      split <;> exact ⟨by simp, by simp, RaftServer.matchIndex_setIsLeader _ _⟩
    obtain ⟨hqterm, hqvoting, hqmatch⟩ := hfields
    have hreq : system.voteRequests = r.system.voteRequests := by
      cases hset
      rfl
    have hrep : system.voteReplies = r.system.voteReplies := by
      cases hset
      rfl
    obtain ⟨hg, hinv⟩ := h.inv.elect (e := .finishVote i) trivial hsystem hw hyes hterm hserver
      hunwritten.log hqterm hqvoting hreq hrep
    have hnone := h.inv.reign_none hw hyes
    refine h.grow hg hinv hterm ?_ ?_ ?_ (fun _ _ => rfl) happends hreplies rfl ?_ ?_
    · exact (congrArg RaftServer.commitIndex hself).trans hunwritten.log.commitIndex
    · exact (congrArg RaftServer.executeIndex hself).trans hunwritten.log.executeIndex
    · exact (congrArg RaftServer.applied hself).trans hunwritten.applied
    · rintro m R hm ⟨-, hmterm⟩
      have hreign := hm.reign
      rw [hmterm, hnone] at hreign
      cases hreign
    · intro _ f _
      change (system.server i).matchIndex f ≤ _
      rw [hself, hqmatch]
      exact Nat.zero_le _
  · next hlost =>
    refine h.rest_one (e := .finishVote i) trivial hsystem hserver ?_ happends hreplies
    obtain hcalm | ⟨w, hw, hyes, hterm, hwins⟩ := RaftServer.finishVote_cases hq
    · exact ⟨hunwritten, hcalm.leader, fun _ f _ =>
        (RaftServer.finishVote_matchIndex hq f).trans (le_max_left _ _)⟩
    · have hl : q.isLeader = true := by
        rw [hwins]
        unfold RaftServer.markElectionDoneLocked
        split <;> simp
      have hwas : (r.system.server i).isLeader = true := by simpa [hl] using hlost
      obtain ⟨R, hR⟩ := h.inv.leads i hwas
      have hreign := hR.reign
      rw [hterm, h.inv.reign_none hw hyes] at hreign
      cases hreign

theorem Safe.start {r r' : Partition n α} {i : Fin n} {cmd : α} (h : r.Safe)
    (hstep : r.step (.start i cmd) = some r') : r'.Safe := by
  obtain ⟨system, hsystem, rfl⟩ := Option.map_eq_some_iff.mp hstep
  obtain ⟨q, hq, hset⟩ := Option.bind_eq_some_iff.mp hsystem
  have hserver : system.server = Function.update r.system.server i q := by
    cases hset
    rfl
  have happends : system.appends = r.system.appends := by
    cases hset
    rfl
  have hreplies : system.appendReplies = r.system.appendReplies := by
    cases hset
    rfl
  have hself : system.server i = q := by rw [hserver, Function.update_self]
  unfold after
  dsimp only
  split
  · next hl =>
    obtain ⟨hg, hinv⟩ := h.inv.append hsystem hl
    obtain ⟨R, hR⟩ := h.inv.leads i hl
    rw [RaftServer.start_eq, if_pos hl] at hq
    obtain ⟨hq, -⟩ := RaftServer.storeBatch_eq hq
    have hsettled := h.commits.settled i
    have hle := h.inv.commit_le_last hsettled
    have hexec := hsettled.executed
    refine h.grow hg hinv rfl ?_ ?_ ?_ ?_ happends hreplies rfl ?_ ?_
    · exact (congrArg RaftServer.commitIndex hself).trans (by rw [hq])
    · exact (congrArg RaftServer.executeIndex hself).trans (by rw [hq])
    · exact (congrArg RaftServer.applied hself).trans (by rw [hq])
    · intro j hj
      have hne : j ≠ (r.system.server i).lastLogIndex + 1 := by omega
      simp only [appended, Function.update_self]
      exact Function.update_of_ne hne _ _
    · rintro m R' hm ⟨hf, hmterm⟩
      have hreign := hm.reign
      rw [hmterm, hR.reign] at hreign
      obtain rfl := Option.some.inj hreign
      exact hm.other (hf.trans (hR.leader.symm.trans hm.leader))
    · intro _ f hf
      change (system.server i).matchIndex f ≤ _
      rw [hself, hq]
      exact h.commits.matched i hl f hf
  · next hnot =>
    rw [RaftServer.start_eq, if_neg hnot] at hq
    cases hq
    exact h.rest_one (e := .start i cmd) trivial hsystem hserver (.refl r i _) happends hreplies

theorem Safe.refuse {r r' : Partition n α} {k : Nat} {m : AppendEntries n α}
    {q : RaftServer n α} {reply : AppendReply n α} {system : System n α} (h : r.Safe)
    (hsystem : r.system.step (.deliverAppend k) = some system)
    (hset : system = { r.system.setServer m.follower q with
      appendReplies := r.system.appendReplies ++ [reply] })
    (hq : q = r.system.server m.follower) (hcall : reply.call ∈ r.system.appends)
    (hok : reply.ok = false) (hr' : r'.system = system) (hhistory : r'.history = r.history)
    (hchronicle : r'.chronicle = r.chronicle)
    (hhandled : ∀ l f, r.handled l f ≤ r'.handled l f) : r'.Safe := by
  have hserver : r'.system.server = r.system.server := by
    rw [hr', hset, hq]
    exact Function.update_eq_self _ _
  have happends : r'.system.appends = r.system.appends := by
    rw [hr', hset]
    rfl
  have hreplies : r'.system.appendReplies = r.system.appendReplies ++ [reply] := by
    rw [hr', hset]
  have hgrows : r.chronicle.Grows r'.chronicle := by
    rw [hchronicle]
    exact .refl _
  have hquiet : Quiet r r' := by
    refine ⟨hhistory, hchronicle, fun i => ?_, fun i j hj => ?_, fun i hi => ?_⟩
    · rw [hserver]
    · rw [hserver] at hj ⊢
      exact ⟨hj, rfl⟩
    · rw [hserver] at hi ⊢
      exact ⟨hi, rfl⟩
  rw [← hr'] at hsystem
  refine ⟨h.inv.quiet (e := .deliverAppend k) trivial hsystem hquiet, ?_, fun i => ?_,
    h.commits.calls_keep hgrows happends, fun p hp => ?_, fun i hi f hf => ?_⟩
  · exact h.calls.keep hgrows happends hhandled fun _ _ _ => by rw [hchronicle]
  · refine (h.commits.settled i).keep hgrows ?_ ?_ ?_ ?_ fun j _ => by rw [hhistory]
    all_goals rw [hserver]
  · rw [hreplies, List.mem_append, List.mem_singleton] at hp
    rcases hp with hp | rfl
    · exact h.commits.answered_keep hgrows (fun _ hm => happends.symm ▸ hm) hp
    · refine ⟨happends.symm ▸ hcall, fun htrue => ?_⟩
      rw [hok] at htrue
      cases htrue
  · rw [hserver] at hi ⊢
    rw [hchronicle]
    exact h.commits.matched i hi f hf

/-- What a server has committed does not change when it agrees with a later leader. -/
theorem committed_unchanged {r r' : Partition n α} {i : Fin n} (h : r.Inv) (h' : r'.Inv)
    (hi : r.Settled i) (hgrows : r.chronicle.Grows r'.chronicle)
    (hterm : (r.system.server i).currentTerm ≤ (r'.system.server i).currentTerm) :
    (r.system.server i).commitIndex ≤ (r'.system.server i).lastLogIndex ∧
      Agrees (r'.history i) (r.history i) (r.system.server i).commitIndex := by
  rcases Nat.eq_zero_or_pos (r.system.server i).commitIndex with hzero | hpos
  · rw [hzero]
    exact ⟨Nat.zero_le _, fun j hj hle => by omega⟩
  obtain ⟨u, hu, hcovered, hacked⟩ := hi.commits
  obtain ⟨t, R, l, -, hchosen, hl, hholds⟩ := h.covered_holds hu hcovered hacked hpos
  obtain ⟨t', R', l', -, hchosen', hl', hholds'⟩ := h'.covered_holds (hu.trans hterm)
    (hcovered.grows hgrows) (hacked.trans (hgrows.acked i u)) hpos
  obtain ⟨R₁, hext, hgrown⟩ := hchosen.grows hgrows
  have hagree := hchosen'.agree hgrown h'.sound h'.majorityBacked
  have hsame : Agrees R'.log R.log (r.system.server i).commitIndex :=
    (hagree.mono (le_min hl' hl)).trans (hext.agrees.mono (hl.trans hchosen.le))
  exact ⟨hholds'.le, hholds'.agrees.trans (hsame.trans hholds.agrees.symm)⟩

theorem Safe.accept {r : Partition n α} {system : System n α} {k : Nat} {m : AppendEntries n α}
    (h : r.Safe) (hsystem : r.system.step (.deliverAppend k) = some system)
    (hk : r.system.appends[k]? = some m) (hle : r.handled m.leaderSiteId m.follower ≤ k)
    (hok : (r.system.server m.follower).appendOk m = some true) : (r.received k m system).Safe := by
  have hmem := List.mem_of_getElem? hk
  obtain ⟨R, hsent⟩ := h.calls.sent m hmem
  have hahead := h.calls.ahead k m hk hle
  obtain ⟨hg, hinv⟩ := h.inv.accept hsystem hk hok hsent hahead
  obtain ⟨m', hm', hset⟩ := Option.bind_eq_some_iff.mp hsystem
  obtain rfl : m = m' := Option.some.inj (hk.symm.trans hm')
  obtain ⟨⟨q, reply⟩, hq, hset⟩ := Option.bind_eq_some_iff.mp hset
  have ha := RaftServer.accepted_of_ok hok hq
  have happlies := RaftServer.onAppendEntries_applies hok hq
  have hserver : system.server = Function.update r.system.server m.follower q := by
    cases hset
    rfl
  have hself : system.server m.follower = q := by rw [hserver, Function.update_self]
  have hreceived := received_of_ok (k := k) system hok
  generalize hr' : r.received k m system = r' at hreceived hg hinv ⊢
  have hsystem' : r'.system = system := by rw [hreceived]
  have hchronicle : r'.chronicle = r.chronicle.ack m.follower m.term m.lastIndex := by
    rw [hreceived]
  have hhandled : r'.handled = Function.update r.handled m.leaderSiteId
      (Function.update (r.handled m.leaderSiteId) m.follower (k + 1)) := by rw [hreceived]
  have happends : r'.system.appends = r.system.appends := by
    rw [hsystem']
    cases hset
    rfl
  have hreplies : r'.system.appendReplies = r.system.appendReplies ++ [reply] := by
    rw [hsystem']
    cases hset
    rfl
  have hhistory : r'.history m.follower =
      RaftServer.writeBatch (r.history m.follower) m.prevLogIndex (m.cmd.getD []) := by
    rw [hreceived]
    exact Function.update_self ..
  have hnew : r'.system.server m.follower = q := by rw [hsystem', hself]
  have hacked : m.lastIndex ≤ r'.chronicle.acked m.follower m.term := by
    rw [hchronicle, Chronicle.ack_self]
    exact le_max_right _ _
  have hterm : (r.system.server m.follower).currentTerm ≤ m.term := (RaftServer.appendOk_cases hok).1
  have hold := h.commits.settled m.follower
  have hkept : (r.system.server m.follower).commitIndex ≤ q.lastLogIndex ∧
      Agrees (r'.history m.follower) (r.history m.follower)
        (r.system.server m.follower).commitIndex := by
    rw [← hnew]
    exact committed_unchanged h.inv hinv hold hg.grows (hterm.trans hg.term.ge)
  have hexecuted := hold.executed
  refine ⟨hinv, h.calls.accept hk hle hchronicle happends hhandled, fun j => ?_,
    h.commits.calls_keep hg.grows happends, fun p hp => ?_, fun j hj f hf => ?_⟩
  · by_cases hj : j = m.follower
    · rw [hj]
      refine hold.advance ?_ ?_ ?_ fun l hpos hl => hkept.2 l hpos (hl.trans hexecuted)
      · rw [hg.term, hnew]
        obtain ⟨hsame, -⟩ | ⟨-, hcommit, -⟩ := ha.commit
        · obtain ⟨u, hu, hcovered, hle'⟩ := hold.commits
          rw [hsame]
          exact ⟨u, hu.trans hterm, hcovered.grows hg.grows, hle'.trans (hg.grows.acked _ u)⟩
        · obtain ⟨hcovered, hend⟩ := h.commits.calls m hmem
          have hcommitted : q.commitIndex ≤ m.commitIndex := by omega
          exact ⟨m.term, le_refl _, (hcovered.grows hg.grows).mono (le_refl _) hcommitted,
            (hcommitted.trans hend).trans hacked⟩
      · rw [hnew]
        obtain ⟨hsame, hexec⟩ | ⟨hlt, hcommit, hexec⟩ := ha.commit
        · rw [hsame, hexec]
          exact hexecuted
        · have hlast := hkept.1
          omega
      · rw [hnew, hhistory]
        exact appliesUpTo_congr happlies fun l hl =>
          RaftServer.writeBatch_congr (h.inv.recorded_next hl)
    · have hsame := hg.others j hj
      refine (h.commits.settled j).keep hg.grows ?_ ?_ ?_ ?_ fun l _ => by rw [hg.histories j hj]
      · exact (congrArg RaftServer.currentTerm hsame).ge
      · exact congrArg RaftServer.commitIndex hsame
      · exact congrArg RaftServer.executeIndex hsame
      · exact congrArg RaftServer.applied hsame
  · rw [hreplies, List.mem_append, List.mem_singleton] at hp
    rcases hp with hp | rfl
    · exact h.commits.answered_keep hg.grows (fun _ hm => happends.symm ▸ hm) hp
    · rw [ha.reply]
      refine ⟨happends.symm ▸ hmem, fun _ hcmd => ?_⟩
      dsimp only at hcmd ⊢
      rw [ha.last]
      obtain ⟨hnil, -⟩ | hend := lastAfter_cases (r.system.server m.follower) m
      · obtain ⟨batch, hbatch⟩ := Option.isSome_iff_exists.mp hcmd
        rw [hbatch, Option.getD_some] at hnil
        exact absurd (hnil ▸ hbatch) hsent.nonempty
      · rw [hend]
        exact hacked
  · by_cases hjf : j = m.follower
    · rw [hjf] at hj
      obtain ⟨R', hR'⟩ := hinv.leads m.follower hj
      have hreign := hR'.reign
      rw [hg.term, hchronicle] at hreign
      obtain rfl := Option.some.inj (hsent.reign.symm.trans hreign)
      exact absurd (hR'.leader.symm.trans hsent.leader) hsent.other
    · rw [hg.others j hjf] at hj ⊢
      exact (h.commits.matched j hj f hf).trans (hg.grows.acked f _)

theorem Safe.deliver {r r' : Partition n α} {k : Nat} (h : r.Safe)
    (horder : r.InSendOrder (.deliverAppend k)) (hstep : r.step (.deliverAppend k) = some r') :
    r'.Safe := by
  obtain ⟨system, hsystem, rfl⟩ := Option.map_eq_some_iff.mp hstep
  obtain ⟨m, hk, hset⟩ := Option.bind_eq_some_iff.mp hsystem
  have hle := horder m hk
  have hafter : r.after system (.deliverAppend k) = r.received k m system := by
    unfold after
    dsimp only
    rw [hk]
  rw [hafter]
  by_cases hok : (r.system.server m.follower).appendOk m = some true
  · exact h.accept hsystem hk hle hok
  · obtain ⟨⟨q, reply⟩, hq, hset⟩ := Option.bind_eq_some_iff.mp hset
    obtain ⟨-, hsame, hreply⟩ | ⟨hok', -⟩ := RaftServer.onAppendEntries_outcome hq
    · have hreceived : r.received k m system = { r with
          system := system
          handled := Function.update r.handled m.leaderSiteId
            (Function.update (r.handled m.leaderSiteId) m.follower (k + 1)) } := if_neg hok
      refine h.refuse hsystem (Option.some.inj hset).symm hsame ?_ ?_ ?_ ?_ ?_ fun l f => ?_
      · rw [hreply]
        exact List.mem_of_getElem? hk
      · rw [hreply]
      · rw [hreceived]
      · rw [hreceived]
      · rw [hreceived]
      · rw [hreceived]
        dsimp only
        by_cases hl : l = m.leaderSiteId
        · subst hl
          rw [Function.update_self]
          by_cases hf : f = m.follower
          · subst hf
            rw [Function.update_self]
            omega
          · rw [Function.update_of_ne hf]
        · rw [Function.update_of_ne hl]
    · exact absurd hok' hok

end Partition

end Jetpack.Raft
