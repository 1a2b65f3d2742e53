import Jetpack.Recovery.Witnesses

/-! What becomes of fast-committed writes: the pull replies of a majority name every pending one, the
coordinator dispatches those it can, and it finishes when every dispatch was answered. -/

namespace Jetpack.Recovery

open Transition

variable {n : Nat}

namespace System

def ackedPending (s : System n) (v : Fin n) : Bool :=
  s.pending.any fun w => w.acks.contains v

/-- The coordinator takes over a higher epoch, and its pool is empty then. -/
def dropsAcked (s : System n) (i : Fin n) (maxJepoch : Epoch) : Bool :=
  (s.server i).jepoch < maxJepoch && s.ackedPending i

/-- The set about to be resubmitted has the pending writes that the coordinator recovered itself, and
their commands are at hand. -/
def resubmitsRecovered (s : System n) (i : Fin n) (w : RoundTwo n) : Bool :=
  let r := storeMissed (s.server i) w
  s.pending.all fun f =>
    !w.ids.contains (f.keys.key, f.keys.cmdId) ||
      (((r.recSet.recSet w.proposeSid).getD []).contains (f.keys.key, f.keys.cmdId) &&
        (r.cmdAtHand w.proposeSid (f.keys.key, f.keys.cmdId)).toOption == some (some f.cmd))

/-- The step loses no fast-committed write: acknowledgements are counted while they stand, no pool is
emptied of a pending write, a coordinator has what it resubmits, and the leader takes it. -/
def keepsWrites (s : System n) : Event n → Bool
  | .fastCommit k =>
    s.attempts[k]?.all fun a =>
      (extractPoolKeys a.cmd).toOption.join.all fun keys =>
        !keys.isWrite || inLog s.log keys ||
          a.acks.all fun v => (s.server v).commandPool.holds keys a.cmd
  | .deliver v k =>
    match s.calls[k]? with
    | some (.finishRecovery _ oepoch) => !((s.server v).oepoch ≤ oepoch && s.ackedPending v)
    | _ => true
  | .deliverDispatch k accepted =>
    match s.calls[k]? with
    | some (.dispatch round cmd) =>
      accepted || s.fastCommitted.all fun w => !sameCommand w.keys ⟨cmd, some round⟩
    | _ => true
  | .roundOneDone i =>
    match s.stage i with
    | .one w => w.pull.yes || !s.dropsAcked i w.pull.maxJepoch
    | _ => true
  | .roundTwoDone i =>
    match s.stage i with
    | .two w =>
      match w.accept with
      | none => !s.dropsAcked i w.prepare.maxJepoch
      | some e => if e.yes then s.resubmitsRecovered i w else !s.dropsAcked i e.maxJepoch
    | _ => true
  | _ => true

end System

def KeepsWrites (s : System n) (e : Event n) : Prop := s.keepsWrites e = true

instance (s : System n) (e : Event n) : Decidable (KeepsWrites s e) :=
  inferInstanceAs (Decidable (s.keepsWrites e = true))

/-- The write was fast-committed and not in the log when the recovery began. -/
def Owed (s : System n) (round : Round n) (w : FastCommit n) : Prop :=
  ∃ ws, (round, ws) ∈ s.begun ∧ w ∈ ws

def Resubmitted (s : System n) (round : Round n) (w : FastCommit n) : Prop :=
  ∃ log, (round, log) ∈ s.resubmits ∧
    (System.inLog log w.keys = true ∨
      ∃ e ∈ s.log, e.source = some round ∧ System.sameCommand w.keys e = true)

def Call.round : Call n → Round n
  | .pullRecovery round _ _ | .prepare round _ _ _ | .recordCmd round _ _ _ _ _
  | .accept round _ _ _ _ | .commit round _ _ _ | .dispatch round _ | .finishRecovery round _ => round

def CallOk (s : System n) (c : Call n) : Prop :=
  c.round.2 ≤ s.runs c.round.1 ∧
    ∀ oepoch, c = .finishRecovery c.round oepoch → ∀ w, Owed s c.round w → Resubmitted s c.round w

def Dispatched (s : System n) (round : Round n) (w : FastCommit n) (k : Nat) : Prop :=
  ∃ cmd, s.calls[k]? = some (.dispatch round cmd) ∧
    System.sameCommand w.keys ⟨cmd, some round⟩ = true

/-- A pull reply names the owed writes its site acknowledged, and an answered dispatch is in the
log. -/
def ReplyBody (s : System n) : Reply n → Prop
  | .pullRecovery round r =>
    r.ok = true → ((r.batch.getD []).map Prod.fst).Nodup ∧
      ∀ w, Owed s round w → r.site ∈ w.acks → System.inLog s.log w.keys = true ∨
        (w.keys.key, w.keys.cmdId) ∈ r.batch.getD []
  | .dispatch round k =>
    k < s.calls.length ∧ ∀ w, Owed s round w → Dispatched s round w k →
      ∃ e ∈ s.log, e.source = some round ∧ System.sameCommand w.keys e = true
  | _ => True

def ReplyOk (s : System n) (r : Reply n) : Prop :=
  r.round.2 ≤ s.runs r.round.1 ∧ ReplyBody s r

/-- What the coordinator's stage says of the writes its run owes. -/
def StageOk (s : System n) (round : Round n) : Stage n → Prop
  | .one w =>
    w.pull = JetpackPullRecoveryQuorumEvent.feed { nTotal := n, quorum := n / 2 + 1 }
        w.pullFed.reverse ∧
      (w.pullFed.map PullReply.site).Nodup ∧ ∀ r ∈ w.pullFed, .pullRecovery round r ∈ s.replies
  | .two w => ∀ f, Owed s round f →
      (f.keys.key, f.keys.cmdId) ∈ w.ids ∨ System.inLog s.log f.keys = true
  | .resubmit calls fed =>
    (∃ log, (round, log) ∈ s.resubmits ∧ ∀ f, Owed s round f →
      System.inLog log f.keys = true ∨ ∃ k ∈ calls, Dispatched s round f k) ∧
    fed.Nodup ∧ fed ⊆ calls ∧ ∀ k ∈ fed, .dispatch round k ∈ s.replies
  | _ => True

def BegunOk (s : System n) (x : Round n × List (FastCommit n)) : Prop :=
  x.1.2 ≤ s.runs x.1.1 ∧ ∀ w ∈ x.2, w ∈ s.fastCommitted ∧ w.keys.isWrite = true

structure Kept (s : System n) : Prop where
  clients : Clients s
  retains : ∀ v, Retains s v (s.server v).commandPool
  begun : ∀ x ∈ s.begun, BegunOk s x
  call : ∀ c ∈ s.calls, CallOk s c
  reply : ∀ r ∈ s.replies, ReplyOk s r
  stage : ∀ i, StageOk s (s.round i) (s.stage i)

theorem kept_init (j o : Epoch) : Kept (System.init j o : System n) where
  clients :=
    { agree := fun _ h => by cases h
      attempt := fun _ h => by cases h
      fast := fun _ h => by cases h }
  retains v := ⟨JetpackCommandPool.wellFormed_empty, fun _ h => by cases h⟩
  begun _ h := by cases h
  call _ h := by cases h
  reply _ h := by cases h
  stage _ := trivial

/-- Nothing that the stages and replies speak about is taken back, and no recovery that began owes
more. -/
structure Grown (s s' : System n) : Prop where
  log : s.log ⊆ s'.log
  calls : s.calls <+: s'.calls
  replies : s.replies ⊆ s'.replies
  resubmits : s.resubmits ⊆ s'.resubmits
  fastCommitted : s.fastCommitted ⊆ s'.fastCommitted
  runs : ∀ i, s.runs i ≤ s'.runs i
  owed : ∀ round w, round.2 ≤ s.runs round.1 → Owed s' round w → Owed s round w

section Growing

variable {s s' : System n} {round : Round n} {w : FastCommit n}

theorem Grown.resubmitted (h : Grown s s') (hw : Resubmitted s round w) : Resubmitted s' round w := by
  obtain ⟨log, hlog, hw⟩ := hw
  refine ⟨log, h.resubmits hlog, hw.imp_right ?_⟩
  rintro ⟨e, he, hsource, hsame⟩
  exact ⟨e, h.log he, hsource, hsame⟩

theorem Grown.dispatched (h : Grown s s') {k : Nat} (hk : k < s.calls.length) :
    Dispatched s' round w k ↔ Dispatched s round w k := by
  obtain ⟨more, hmore⟩ := h.calls
  unfold Dispatched
  rw [← hmore, List.getElem?_append_left hk]

theorem Dispatched.lt {k : Nat} (h : Dispatched s round w k) : k < s.calls.length := by
  obtain ⟨cmd, hcmd, -⟩ := h
  exact (List.getElem?_eq_some_iff.mp hcmd).1

theorem Grown.callOk (h : Grown s s') {c : Call n} (hc : CallOk s c) : CallOk s' c := by
  refine ⟨le_trans hc.1 (h.runs _), fun oepoch heq w hw => ?_⟩
  exact h.resubmitted (hc.2 oepoch heq w (h.owed _ w hc.1 hw))

theorem Grown.replyOk (h : Grown s s') {r : Reply n} (hr : ReplyOk s r) : ReplyOk s' r := by
  obtain ⟨hround, hbody⟩ := hr
  refine ⟨le_trans hround (h.runs _), ?_⟩
  cases r with
  | pullRecovery round r =>
    intro hok
    obtain ⟨hnodup, hnames⟩ := hbody hok
    refine ⟨hnodup, fun w hw hsite => ?_⟩
    exact (hnames w (h.owed round w hround hw) hsite).imp_left (inLog_mono h.log)
  | dispatch round k =>
    obtain ⟨hk, hlog⟩ := hbody
    refine ⟨lt_of_lt_of_le hk h.calls.length_le, fun w hw hdispatched => ?_⟩
    obtain ⟨e, he, hsource⟩ :=
      hlog w (h.owed round w hround hw) ((h.dispatched hk).mp hdispatched)
    exact ⟨e, h.log he, hsource⟩
  | prepare round r => trivial
  | recordCmd round site batch => trivial
  | accept round r => trivial
  | finishRecovery round site => trivial

theorem Grown.stageOk (h : Grown s s') (hround : round.2 ≤ s.runs round.1) {st : Stage n}
    (hst : StageOk s round st) : StageOk s' round st := by
  cases st with
  | idle => trivial
  | one w => exact ⟨hst.1, hst.2.1, fun r hr => h.replies (hst.2.2 r hr)⟩
  | two w => exact fun f hf => (hst f (h.owed round f hround hf)).imp_right (inLog_mono h.log)
  | resubmit calls fed =>
    obtain ⟨⟨log, hlog, howed⟩, hnodup, hsub, hfed⟩ := hst
    refine ⟨⟨log, h.resubmits hlog, fun f hf => ?_⟩, hnodup, hsub, fun k hk => h.replies (hfed k hk)⟩
    rcases howed f (h.owed round f hround hf) with hin | ⟨k, hk, hdispatched⟩
    · exact .inl hin
    · exact .inr ⟨k, hk, (h.dispatched hdispatched.lt).mpr hdispatched⟩
  | finish e fed => trivial

theorem Kept.advance (hs : Kept s) (hg : Grown s s') (hclients : Clients s')
    (hretains : ∀ v, Retains s' v (s'.server v).commandPool)
    (hbegun : ∀ x ∈ s'.begun, x ∈ s.begun ∨ BegunOk s' x)
    (hcall : ∀ c ∈ s'.calls, c ∈ s.calls ∨ CallOk s' c)
    (hreply : ∀ r ∈ s'.replies, r ∈ s.replies ∨ ReplyOk s' r)
    (hstage : ∀ i, (s'.stage i = s.stage i ∧ s'.runs i = s.runs i) ∨
      StageOk s' (s'.round i) (s'.stage i)) : Kept s' where
  clients := hclients
  retains := hretains
  begun x hx := by
    rcases hbegun x hx with hold | hnew
    · obtain ⟨hround, howed⟩ := hs.begun x hold
      refine ⟨le_trans hround (hg.runs _), fun w hw => ?_⟩
      exact ⟨hg.fastCommitted (howed w hw).1, (howed w hw).2⟩
    · exact hnew
  call c hc := (hcall c hc).elim (fun hold => hg.callOk (hs.call c hold)) id
  reply r hr := (hreply r hr).elim (fun hold => hg.replyOk (hs.reply r hold)) id
  stage i := by
    rcases hstage i with ⟨hsame, hruns⟩ | hnew
    · have hround : s'.round i = s.round i := by
        unfold System.round
        rw [hruns]
      rw [hsame, hround]
      exact hg.stageOk (le_refl _) (hs.stage i)
    · exact hnew

theorem Kept.serve (hs : Kept s) (answers : List (Reply n)) (hclients : Clients s')
    (hretains : ∀ v, Retains s' v (s'.server v).commandPool) (hlog : s.log ⊆ s'.log)
    (hfast : s.fastCommitted ⊆ s'.fastCommitted) (hcalls : s'.calls = s.calls)
    (hreplies : s'.replies = s.replies ++ answers) (hanswers : ∀ r ∈ answers, ReplyOk s' r)
    (hresubmits : s'.resubmits = s.resubmits) (hbegun : s'.begun = s.begun)
    (hruns : s'.runs = s.runs) (hstage : s'.stage = s.stage) : Kept s' := by
  have hg : Grown s s' :=
    { log := hlog
      calls := hcalls ▸ List.prefix_refl _
      replies := hreplies ▸ List.subset_append_left _ _
      resubmits := hresubmits ▸ List.Subset.refl _
      fastCommitted := hfast
      runs := fun i => hruns ▸ le_refl _
      owed := fun round w _ hw => by
        unfold Owed at hw ⊢
        rwa [hbegun] at hw }
  refine hs.advance hg hclients hretains (fun x hx => .inl (hbegun ▸ hx)) (fun c hc => .inl (hcalls ▸ hc))
    (fun r hr => ?_) (fun i => .inl ⟨by rw [hstage], by rw [hruns]⟩)
  rw [hreplies] at hr
  exact (List.mem_append.mp hr).imp_right (hanswers r)

theorem retains_update (hs : Kept s) {v : Fin n} {r : TxLogServer} (h : Retains s v r.commandPool)
    (u : Fin n) : Retains s u (Function.update s.server v r u).commandPool := by
  by_cases huv : u = v
  · subst huv
    simpa using h
  · simpa [huv] using hs.retains u

theorem Kept.owed_mem (hs : Kept s) (h : Owed s round w) :
    w ∈ s.fastCommitted ∧ w.keys.isWrite = true := by
  obtain ⟨ws, hws, hw⟩ := h
  exact (hs.begun _ hws).2 w hw

/-- An owed write that the log does not have is pending. -/
theorem Kept.owed_pending (hs : Kept s) (h : Owed s round w) :
    System.inLog s.log w.keys = true ∨ w ∈ s.pending := by
  obtain ⟨hmem, hwrite⟩ := hs.owed_mem h
  cases hin : System.inLog s.log w.keys with
  | true => exact .inl rfl
  | false => exact .inr (mem_pending.mpr ⟨hmem, hwrite, hin⟩)

end Growing

section Steps

variable {s s' : System n}

theorem Kept.issue {cmd : VecPieceData} (hs : Kept s) (h : s.issue cmd = some s') : Kept s' := by
  have hclients := hs.clients.issue h
  unfold System.issue at h
  split at h
  · cases h
    exact hs.serve [] hclients hs.retains (List.Subset.refl _) (List.Subset.refl _) rfl (by simp)
      (by simp) rfl rfl rfl rfl
  · cases h

theorem onRuleSpeculativeExecute_pool {r r' : TxLogServer} {paused skip ok lead : Bool}
    {cmd : Marshallable} (h : r.onRuleSpeculativeExecute paused skip cmd = .ok (r', ok, lead)) :
    r'.commandPool = r.commandPool ∨
      ∃ b, r.commandPool.pushBack r.jetpackStatus cmd = .ok (b, r'.commandPool) := by
  unfold TxLogServer.onRuleSpeculativeExecute at h
  split at h
  · cases h
    exact .inl rfl
  · split at h
    · cases h
      exact .inl rfl
    · obtain ⟨⟨b, pool⟩, hpush, h⟩ := Except.bind_eq_ok h
      cases h
      exact .inr ⟨_, hpush⟩

theorem Kept.speculate {v : Fin n} {k : Nat} {paused skip : Bool} (hs : Kept s)
    (h : s.speculate v k paused skip = some s') : Kept s' := by
  obtain ⟨a, ha, h⟩ := Option.bind_eq_some_iff.mp h
  obtain ⟨⟨r, ok, lead⟩, hr, h⟩ := Option.bind_eq_some_iff.mp h
  cases h
  have hissued := (hs.clients.attempt a (List.mem_of_getElem? ha)).issued
  have hpool : Retains s v r.commandPool := by
    rcases onRuleSpeculativeExecute_pool (Except.toOption_eq_some hr) with hsame | ⟨b, hpush⟩
    · exact hsame ▸ hs.retains v
    · exact (hs.retains v).pushBack hs.clients (hs.clients.agree a.cmd hissued) hpush
  exact hs.serve [] (hs.clients.same rfl rfl rfl) (retains_update hs hpool) (List.Subset.refl _)
    (List.Subset.refl _) rfl (by simp [System.setServer]) (by simp) rfl rfl rfl rfl

theorem Kept.feedSpec {k : Nat} (hs : Kept s) (h : s.feedSpec k = some s') : Kept s' := by
  have hclients := hs.clients.feedSpec h
  obtain ⟨r, -, h⟩ := Option.bind_eq_some_iff.mp h
  obtain ⟨a, -, h⟩ := Option.bind_eq_some_iff.mp h
  split at h
  · cases h
  · cases h
    exact hs.serve [] hclients hs.retains (List.Subset.refl _) (List.Subset.refl _) rfl (by simp)
      (by simp) rfl rfl rfl rfl

/-- The write a client counts is held by the replicas it counts. -/
theorem Kept.fastCommit {k : Nat} (hs : Kept s) (hok : s.keepsWrites (.fastCommit k) = true)
    (h : s.fastCommit k = some s') : Kept s' := by
  have hclients := hs.clients.fastCommit h
  obtain ⟨a, keys, ha, hkeys, -, rfl⟩ := fastCommit_eq_some h
  have hheld : keys.isWrite = true → System.inLog s.log keys = false →
      ∀ v ∈ a.acks, (s.server v).commandPool.holds keys a.cmd = true := by
    intro hwrite hout v hv
    have hjoin : (extractPoolKeys a.cmd).toOption.join = some keys := by
      rw [hkeys]
      rfl
    simp only [System.keepsWrites, ha, hjoin, Option.all_some, hwrite, hout, Bool.not_true,
      Bool.false_or, List.all_eq_true] at hok
    exact hok v hv
  refine hs.serve [] hclients (fun v => ⟨(hs.retains v).1, fun w hw hv => ?_⟩) (List.Subset.refl _)
    (List.subset_append_left _ _) rfl (by simp) (by simp) rfl rfl rfl rfl
  obtain ⟨hmem, hwrite, hout⟩ := mem_pending.mp hw
  rcases List.mem_append.mp hmem with hold | hnew
  · exact (hs.retains v).2 w (mem_pending.mpr ⟨hold, hwrite, hout⟩) hv
  · obtain rfl := List.mem_singleton.mp hnew
    exact JetpackCommandPool.Holds.of_holds hkeys (hheld hwrite hout v hv)

theorem Kept.placeHolder {v : Fin n} {cmd : Marshallable} (hs : Kept s)
    (h : s.placeHolder v cmd = some s') : Kept s' := by
  unfold System.placeHolder at h
  split at h
  · next hids =>
    have hagree := agreesWith_of_idsAgree hids
    obtain ⟨r, hr, h⟩ := Option.bind_eq_some_iff.mp h
    cases h
    obtain ⟨⟨b, pool⟩, hpush, hr⟩ := Except.bind_eq_ok (Except.toOption_eq_some hr)
    cases hr
    have hpool : Retains s v pool := (hs.retains v).pushBack hs.clients hagree hpush
    have hsub : s.issued ⊆ s.issued ++ [cmd] := List.subset_append_left _ _
    refine hs.serve [] ⟨hagree.append hs.clients.agree, ?_, ?_⟩ (retains_update hs hpool)
      (List.Subset.refl _) (List.Subset.refl _) rfl (by simp [System.setServer]) (by simp) rfl rfl rfl rfl
    · exact fun a ha => (hs.clients.attempt a ha).mono hsub
    · exact fun w hw => (hs.clients.fast w hw).mono hsub
  · cases h

theorem Kept.original {cmd : TpcCommitCommand} (hs : Kept s) :
    Kept { s with log := s.log ++ [⟨cmd, none⟩] } := by
  refine hs.serve [] (hs.clients.same rfl rfl rfl) (fun v => (hs.retains v).anti ?_)
    (List.subset_append_left _ _) (List.Subset.refl _) rfl (by simp) (by simp) rfl rfl rfl rfl
  exact pending_anti rfl (List.subset_append_left _ _)

theorem Kept.apply {v : Fin n} (hs : Kept s) (h : s.apply v = some s') : Kept s' := by
  obtain ⟨e, he, h⟩ := Option.bind_eq_some_iff.mp h
  obtain ⟨r, hr, h⟩ := Option.bind_eq_some_iff.mp h
  cases h
  obtain ⟨⟨k, pool⟩, hremove, hr⟩ := Except.bind_eq_ok (Except.toOption_eq_some hr)
  cases hr
  have hpool : Retains s v pool := (hs.retains v).remove (List.mem_of_getElem? he) hremove
  exact hs.serve [] (hs.clients.same rfl rfl rfl) (retains_update hs hpool) (List.Subset.refl _)
    (List.Subset.refl _) rfl (by simp [System.setServer]) (by simp) rfl rfl rfl rfl

theorem Kept.crash {v : Fin n} (hs : Kept s) (h : s.crash v = some s') : Kept s' := by
  dsimp only [System.crash] at h
  split at h
  · cases h
    exact hs.serve [] (hs.clients.same rfl rfl rfl) hs.retains (List.Subset.refl _)
      (List.Subset.refl _) rfl (by simp) (by simp) rfl rfl rfl rfl
  · cases h

theorem Kept.startRecovery {i : Fin n} (hs : Kept s) (h : s.startRecovery i = some s') : Kept s' := by
  unfold System.startRecovery at h
  split at h
  · cases h
    have hruns : ∀ k, s.runs k ≤ Function.update s.runs i (s.runs i + 1) k := by
      intro k
      by_cases hki : k = i
      · subst hki
        simp
      · simp [hki]
    have hlast : Function.update s.runs i (s.runs i + 1) i = s.runs i + 1 := by simp
    refine hs.advance ⟨List.Subset.refl _, List.prefix_append _ _, List.Subset.refl _,
      List.Subset.refl _, List.Subset.refl _, hruns, ?_⟩ (hs.clients.same rfl rfl rfl)
      (retains_update hs ((hs.retains i).congr rfl)) ?_ ?_ (fun r hr => .inl hr) ?_
    · rintro round w hround ⟨ws, hws, hw⟩
      rcases List.mem_append.mp hws with hold | hnew
      · exact ⟨ws, hold, hw⟩
      · simp only [List.mem_singleton, Prod.mk.injEq] at hnew
        rw [hnew.1] at hround
        exact absurd hround (by simp)
    · intro x hx
      refine (List.mem_append.mp hx).imp_right fun hnew => ?_
      obtain rfl := List.mem_singleton.mp hnew
      refine ⟨le_of_eq hlast.symm, fun w hw => ?_⟩
      obtain ⟨hmem, hwrite, -⟩ := mem_pending.mp hw
      exact ⟨hmem, hwrite⟩
    · intro c hc
      refine (List.mem_append.mp hc).imp_right fun hnew => ?_
      simp only [List.mem_cons, List.not_mem_nil, or_false] at hnew
      rcases hnew with rfl | rfl
      · exact ⟨le_of_eq hlast.symm, fun _ heq => by cases heq⟩
      · exact ⟨le_of_eq hlast.symm, fun _ heq => by cases heq⟩
    · intro k
      by_cases hki : k = i
      · subst hki
        right
        simp only [Function.update_self]
        exact ⟨rfl, List.nodup_nil, fun r hr => by cases hr⟩
      · exact .inl ⟨by simp [hki], by simp [hki]⟩
  · cases h

theorem onJetpackPullRecovery_batch {r r' : TxLogServer} {jepoch oepoch jr or : Epoch} {ok : Bool}
    {batch : List (Key × CmdId)}
    (h : r.onJetpackPullRecovery jepoch oepoch = .ok (r', ok, jr, or, batch)) :
    r'.commandPool = r.commandPool ∧ (ok = true → r.commandPool.recoveryBatch = .ok batch) := by
  unfold TxLogServer.onJetpackPullRecovery at h
  dsimp only at h
  split at h
  · obtain ⟨b, hb, h⟩ := Except.bind_eq_ok h
    cases h
    exact ⟨rfl, fun _ => hb⟩
  · cases h
    exact ⟨rfl, fun hok => by cases hok⟩

/-- A replica that answers a pull names the pending writes it acknowledged. -/
theorem Kept.pull_names (hs : Kept s) {v : Fin n} {round : Round n} {batch : List (Key × CmdId)}
    (hbatch : (s.server v).commandPool.recoveryBatch = .ok batch) {w : FastCommit n}
    (hw : Owed s round w) (hv : v ∈ w.acks) :
    System.inLog s.log w.keys = true ∨ (w.keys.key, w.keys.cmdId) ∈ batch := by
  refine (hs.owed_pending hw).imp_right fun hpending => ?_
  have hok := hs.clients.fast w (hs.owed_mem hw).1
  have hholds := (hs.retains v).2 w hpending hv
  obtain ⟨vec, hvec⟩ := hok.vec
  have hkeys := hok.keys
  rw [hvec] at hkeys hholds
  exact hholds.reported hkeys hbatch

theorem Retains.of_not_ackedPending {v : Fin n} (h : s.ackedPending v = false) :
    Retains s v {} := by
  refine .empty fun w hw hv => ?_
  have hany : s.ackedPending v = true := List.any_eq_true.mpr ⟨w, hw, by simpa using hv⟩
  rw [h] at hany
  cases hany

theorem Kept.deliver {v : Fin n} {call : Call n} (hs : Kept s) (hmem : call ∈ s.calls)
    (hok : ∀ round oepoch, call = .finishRecovery round oepoch → (s.server v).oepoch ≤ oepoch →
      s.ackedPending v = false)
    (h : s.deliver v call = some s') : Kept s' := by
  have hround := (hs.call call hmem).1
  have hclients : ∀ {t : System n}, t.issued = s.issued → t.attempts = s.attempts →
      t.fastCommitted = s.fastCommitted → Clients t := hs.clients.same
  cases call with
  | pullRecovery round jepoch oepoch =>
    obtain ⟨⟨r, ok, jr, or, batch⟩, hr, h⟩ := Option.bind_eq_some_iff.mp h
    cases h
    obtain ⟨hpool, hbatch⟩ := onJetpackPullRecovery_batch (Except.toOption_eq_some hr)
    refine hs.serve _ (hclients rfl rfl rfl) (retains_update hs (hpool ▸ hs.retains v))
      (List.Subset.refl _) (List.Subset.refl _) rfl rfl ?_ rfl rfl rfl rfl
    intro reply hreply
    obtain rfl := List.mem_singleton.mp hreply
    refine ⟨hround, fun hyes => ⟨JetpackCommandPool.recoveryBatch_nodup (hbatch hyes), ?_⟩⟩
    exact fun w hw hv => hs.pull_names (hbatch hyes) hw hv
  | prepare round jepoch oepoch ballot =>
    cases h
    refine hs.serve _ (hclients rfl rfl rfl) (retains_update hs ((hs.retains v).congr rfl))
      (List.Subset.refl _) (List.Subset.refl _) rfl rfl ?_ rfl rfl rfl rfl
    intro reply hreply
    obtain rfl := List.mem_singleton.mp hreply
    exact ⟨hround, trivial⟩
  | recordCmd round jepoch oepoch sid ids missing =>
    cases h
    have hpool : ((s.server v).onJetpackRecordCmd jepoch oepoch sid ids missing).1.commandPool
        = (s.server v).commandPool := by
      unfold TxLogServer.onJetpackRecordCmd
      split <;> rfl
    refine hs.serve _ (hclients rfl rfl rfl) (retains_update hs (hpool ▸ hs.retains v))
      (List.Subset.refl _) (List.Subset.refl _) rfl rfl ?_ rfl rfl rfl rfl
    intro reply hreply
    obtain rfl := List.mem_singleton.mp hreply
    exact ⟨hround, trivial⟩
  | accept round jepoch oepoch ballot sid =>
    cases h
    have hpool : ((s.server v).onJetpackAccept jepoch oepoch ballot sid).1.commandPool.candidates
        = (s.server v).commandPool.candidates := by
      unfold TxLogServer.onJetpackAccept
      dsimp only
      split <;> rfl
    refine hs.serve _ (hclients rfl rfl rfl) (retains_update hs ((hs.retains v).congr hpool))
      (List.Subset.refl _) (List.Subset.refl _) rfl rfl ?_ rfl rfl rfl rfl
    intro reply hreply
    obtain rfl := List.mem_singleton.mp hreply
    exact ⟨hround, trivial⟩
  | commit round jepoch oepoch sid =>
    cases h
    have hpool : ((s.server v).onJetpackCommit jepoch oepoch sid).commandPool.candidates
        = (s.server v).commandPool.candidates := by
      unfold TxLogServer.onJetpackCommit
      split <;> rfl
    exact hs.serve [] (hclients rfl rfl rfl) (retains_update hs ((hs.retains v).congr hpool))
      (List.Subset.refl _) (List.Subset.refl _) rfl (by simp [System.setServer]) (by simp) rfl rfl rfl rfl
  | dispatch round cmd => cases h
  | finishRecovery round oepoch =>
    cases h
    have hpool : Retains s v ((s.server v).onJetpackFinishRecovery oepoch).commandPool := by
      unfold TxLogServer.onJetpackFinishRecovery
      split
      · next hle => exact .of_not_ackedPending (hok round oepoch rfl hle)
      · exact hs.retains v
    refine hs.serve _ (hclients rfl rfl rfl) (retains_update hs hpool)
      (List.Subset.refl _) (List.Subset.refl _) rfl rfl ?_ rfl rfl rfl rfl
    intro reply hreply
    obtain rfl := List.mem_singleton.mp hreply
    exact ⟨hround, trivial⟩

/-- A dispatch of a fast-committed write is accepted, so the answered write is in the log. -/
theorem Kept.deliverDispatch {k : Nat} {accepted : Bool} (hs : Kept s)
    (hok : s.keepsWrites (.deliverDispatch k accepted) = true)
    (h : s.deliverDispatch k accepted = some s') : Kept s' := by
  unfold System.deliverDispatch at h
  split at h
  · next round cmd hcall =>
    cases h
    have hround := (hs.call _ (List.mem_of_getElem? hcall)).1
    have hk : k < s.calls.length := (List.getElem?_eq_some_iff.mp hcall).1
    have hlog : s.log ⊆ if accepted then s.log ++ [⟨cmd, some round⟩] else s.log := by
      split
      · exact List.subset_append_left _ _
      · exact List.Subset.refl _
    refine hs.serve _ (hs.clients.same rfl rfl rfl)
      (fun v => (hs.retains v).anti (pending_anti rfl hlog)) hlog (List.Subset.refl _) rfl rfl ?_
      rfl rfl rfl rfl
    intro reply hreply
    obtain rfl := List.mem_singleton.mp hreply
    refine ⟨hround, hk, ?_⟩
    rintro w hw ⟨cmd', hcall', hsame⟩
    have hcmd : cmd' = cmd := by
      have heq := hcall'.symm.trans hcall
      cases heq
      rfl
    subst hcmd
    cases accepted with
    | true => exact ⟨⟨cmd', some round⟩, by simp, rfl, hsame⟩
    | false =>
      simp only [System.keepsWrites, hcall, Bool.false_or, List.all_eq_true, Bool.not_eq_true'] at hok
      have hmem : w ∈ s.fastCommitted := (hs.owed_mem hw).1
      rw [hok w hmem] at hsame
      cases hsame
  · cases h

theorem Grown.of_stage {i : Fin n} {st : Stage n} : Grown s (s.setStage i st) :=
  ⟨List.Subset.refl _, List.prefix_refl _, List.Subset.refl _, List.Subset.refl _,
    List.Subset.refl _, fun _ => le_refl _, fun _ _ _ hw => hw⟩

theorem Kept.setStage {i : Fin n} {st : Stage n} (hs : Kept s) (hst : StageOk s (s.round i) st) :
    Kept (s.setStage i st) := by
  refine hs.advance .of_stage (hs.clients.same rfl rfl rfl) hs.retains (fun _ hx => .inl hx)
    (fun _ hc => .inl hc) (fun _ hr => .inl hr) (fun k => ?_)
  by_cases hki : k = i
  · subst hki
    right
    simp only [System.setStage, Function.update_self]
    exact Grown.of_stage.stageOk (le_refl _) hst
  · exact .inl ⟨by simp [System.setStage, hki], rfl⟩

theorem Kept.recordError {v : Fin n} {call : Call n} (hs : Kept s)
    (h : s.recordError v call = some s') : Kept s' := by
  unfold System.recordError at h
  split at h
  · next round _ _ _ _ _ =>
    split at h
    · next w htwo =>
      split at h
      · cases h
        have hst := hs.stage round.1
        rw [htwo] at hst
        exact hs.setStage hst
      · cases h
    · cases h
  · cases h

theorem feedStage_ok {round : Round n} {st st' : Stage n} {reply : Reply n}
    (hst : StageOk s round st) (hmem : reply ∈ s.replies) (hround : reply.round = round)
    (h : feedStage st reply = some st') : StageOk s round st' := by
  unfold feedStage at h
  split at h
  · next w round' r =>
    split at h
    · cases h
    · next hnew =>
      cases h
      obtain ⟨hpull, hnodup, hfed⟩ := hst
      refine ⟨?_, ?_, ?_⟩
      · simp only [RoundOne.feedPull, List.reverse_cons, JetpackPullRecoveryQuorumEvent.feed_append,
          ← hpull]
        rfl
      · exact List.nodup_cons.mpr ⟨by simpa using hnew, hnodup⟩
      · intro x hx
        rcases List.mem_cons.mp hx with rfl | hx
        · exact hround ▸ hmem
        · exact hfed x hx
  · split at h
    · cases h
    · cases h
      exact hst
  · split at h
    · cases h
    · cases h
      exact hst
  · split at h
    · cases h
    · cases h
      exact hst
  · split at h
    · cases h
    · split at h
      · cases h
      · cases h
        exact hst
  · next calls fed round' k =>
    split at h
    · next hnew =>
      cases h
      simp only [Bool.and_eq_true, Bool.not_eq_true', List.contains_eq_mem, decide_eq_true_eq,
        decide_eq_false_iff_not] at hnew
      obtain ⟨howed, hnodup, hsub, hfed⟩ := hst
      refine ⟨howed, List.nodup_cons.mpr ⟨hnew.2, hnodup⟩, List.cons_subset.mpr ⟨hnew.1, hsub⟩, ?_⟩
      intro x hx
      rcases List.mem_cons.mp hx with rfl | hx
      · exact hround ▸ hmem
      · exact hfed x hx
    · cases h
  · split at h
    · cases h
    · cases h
      trivial
  · cases h

theorem Kept.feed {k : Nat} (hs : Kept s) (h : s.feed k = some s') : Kept s' := by
  obtain ⟨reply, hreply, h⟩ := Option.bind_eq_some_iff.mp h
  split at h
  · next hround =>
    obtain ⟨st, hst, h⟩ := Option.bind_eq_some_iff.mp h
    cases h
    exact hs.setStage
      (feedStage_ok (hs.stage _) (List.mem_of_getElem? hreply) hround.symm hst)
  · cases h

/-- The replies of a majority name an owed write often enough, unless it reached the log meanwhile. -/
theorem Kept.recovered (hodd : n % 2 = 1) (hs : Kept s) {i : Fin n} {w : RoundOne n}
    (hone : s.stage i = .one w) (hyes : w.pull.yes = true) {f : FastCommit n}
    (hf : Owed s (s.round i) f) :
    (f.keys.key, f.keys.cmdId) ∈ w.pull.getRecoveredKeyIds ∨ System.inLog s.log f.keys = true := by
  have hst := hs.stage i
  rw [hone] at hst
  obtain ⟨hpull, hnodup, hfed⟩ := hst
  cases hin : System.inLog s.log f.keys with
  | true => exact .inr rfl
  | false =>
    left
    have hok := hs.clients.fast f (hs.owed_mem hf).1
    have hsuper : ruleSuperMajority n ≤ f.acks.toFinset.card := by
      rw [List.toFinset_card_of_nodup hok.nodup]
      exact hok.super
    have hreply : ∀ r ∈ w.pullFed.reverse, r.ok = true →
        ((r.batch.getD []).map Prod.fst).Nodup ∧
          (r.site ∈ f.acks.toFinset → (f.keys.key, f.keys.cmdId) ∈ r.batch.getD []) := by
      intro r hr hrok
      obtain ⟨hbatch, hnames⟩ := (hs.reply _ (hfed r (List.mem_reverse.mp hr))).2 hrok
      refine ⟨hbatch, fun hsite => ?_⟩
      rcases hnames f hf (List.mem_toFinset.mp hsite) with hlog | hmem
      · rw [hin] at hlog
        cases hlog
      · exact hmem
    have hquorum : n / 2 + 1 ≤ (w.pullFed.reverse.filter PullReply.ok).length := by
      rw [hpull, QuorumEvent.yes, decide_eq_true_eq] at hyes
      obtain ⟨hq, hvotes⟩ := JetpackPullRecoveryQuorumEvent.feed_votes
        { nTotal := n, quorum := n / 2 + 1 } w.pullFed.reverse
      rw [hq, hvotes] at hyes
      simpa using hyes
    have hsites : ((w.pullFed.reverse.filter PullReply.ok).map PullReply.site).Nodup := by
      refine ((List.filter_sublist).map PullReply.site).nodup ?_
      rw [List.map_reverse]
      exact List.nodup_reverse.mpr hnodup
    rw [hpull]
    exact (superMajority_reply_recovered hodd (extractPoolKeys_cmdId_ne hok.keys) hsuper hsites
      (fun r hr hrok => (hreply r hr hrok).1) (fun r hr hrok => (hreply r hr hrok).2) hquorum).1

theorem adoptEpochs_pool (r : TxLogServer) (mj mo : Epoch) :
    (r.adoptEpochs mj mo).commandPool = if r.jepoch < mj then {} else r.commandPool := by
  unfold TxLogServer.adoptEpochs
  dsimp only
  by_cases hlt : r.jepoch < mj
  · rw [if_pos hlt, if_pos hlt]
    split <;> rfl
  · rw [if_neg hlt, if_neg hlt]
    split <;> rfl

theorem adoptEpochs_retains (hs : Kept s) {i : Fin n} {r : TxLogServer} {mj mo : Epoch}
    (hj : r.jepoch = (s.server i).jepoch) (hpool : r.commandPool = (s.server i).commandPool)
    (hdrop : s.dropsAcked i mj = false) : Retains s i (r.adoptEpochs mj mo).commandPool := by
  rw [adoptEpochs_pool, hj, hpool]
  split
  · next hlt => exact .of_not_ackedPending (by simpa [System.dropsAcked, hlt] using hdrop)
  · exact hs.retains i

theorem callOk_of_round {c : Call n} {i : Fin n} (hround : c.round = s.round i)
    (hfinish : ∀ oepoch, c ≠ .finishRecovery c.round oepoch) : CallOk s c := by
  refine ⟨?_, fun oepoch heq => absurd heq (hfinish oepoch)⟩
  rw [hround]
  exact le_refl _

theorem Kept.coordinate {i : Fin n} {r : TxLogServer} {st : Stage n} (hs : Kept s)
    (calls : List (Call n)) (resubmits : List (Round n × List (LogEntry n)))
    (hserver : s'.server = Function.update s.server i r)
    (hstage : s'.stage = Function.update s.stage i st) (hpool : Retains s i r.commandPool)
    (hst : StageOk s' (s'.round i) st)
    (hcalls : s'.calls = s.calls ++ calls) (hcall : ∀ c ∈ calls, CallOk s' c)
    (hresubmits : s'.resubmits = s.resubmits ++ resubmits) (hreplies : s'.replies = s.replies)
    (hlog : s'.log = s.log) (hbegun : s'.begun = s.begun) (hruns : s'.runs = s.runs)
    (hissued : s'.issued = s.issued) (hattempts : s'.attempts = s.attempts)
    (hfast : s'.fastCommitted = s.fastCommitted) : Kept s' := by
  have hg : Grown s s' :=
    { log := hlog ▸ List.Subset.refl _
      calls := hcalls ▸ List.prefix_append _ _
      replies := hreplies ▸ List.Subset.refl _
      resubmits := hresubmits ▸ List.subset_append_left _ _
      fastCommitted := hfast ▸ List.Subset.refl _
      runs := fun k => hruns ▸ le_refl _
      owed := fun round w _ hw => by
        unfold Owed at hw ⊢
        rwa [hbegun] at hw }
  refine hs.advance hg (hs.clients.same hissued hattempts hfast) (fun v => ?_)
    (fun x hx => .inl (hbegun ▸ hx)) (fun c hc => ?_) (fun x hx => .inl (hreplies ▸ hx)) (fun k => ?_)
  · rw [hserver]
    exact (retains_update hs hpool v).anti (pending_anti hfast (hlog ▸ List.Subset.refl _))
  · rw [hcalls] at hc
    exact (List.mem_append.mp hc).imp_right (hcall c)
  · by_cases hki : k = i
    · subst hki
      right
      rw [hstage, Function.update_self]
      exact hst
    · exact .inl ⟨by rw [hstage, Function.update_of_ne hki], by rw [hruns]⟩

theorem Kept.roundOneDone {i : Fin n} (hodd : n % 2 = 1) (hs : Kept s)
    (hok : s.keepsWrites (.roundOneDone i) = true) (h : s.roundOneDone i = some s') : Kept s' := by
  unfold System.roundOneDone at h
  dsimp only at h
  split at h
  · next w hone =>
    split at h
    · split at h
      · next hyes =>
        have howed : ∀ f, Owed s (s.round i) f →
            (f.keys.key, f.keys.cmdId) ∈ w.pull.getRecoveredKeyIds ∨
              System.inLog s.log f.keys = true := fun f hf => hs.recovered hodd hone hyes hf
        split at h
        · cases h
          refine hs.coordinate _ [] rfl rfl ((hs.retains i).congr rfl) howed rfl ?_
            (List.append_nil _).symm rfl rfl rfl rfl rfl rfl rfl
          intro c hc
          simp only [List.mem_cons, List.not_mem_nil, or_false] at hc
          rcases hc with rfl | rfl
          · exact callOk_of_round (i := i) rfl (fun _ heq => by cases heq)
          · exact callOk_of_round (i := i) rfl (fun _ heq => by cases heq)
        · cases h
          refine hs.coordinate _ [] rfl rfl ((hs.retains i).congr rfl) howed rfl ?_
            (List.append_nil _).symm rfl rfl rfl rfl rfl rfl rfl
          intro c hc
          obtain rfl := List.mem_singleton.mp hc
          exact callOk_of_round (i := i) rfl (fun _ heq => by cases heq)
      · next hno =>
        cases h
        have hdrop : s.dropsAcked i w.pull.maxJepoch = false := by
          simpa [System.keepsWrites, hone, hno] using hok
        exact hs.coordinate [] [] rfl rfl (adoptEpochs_retains hs rfl rfl hdrop) trivial
          (List.append_nil _).symm (by simp) (List.append_nil _).symm rfl rfl rfl rfl rfl rfl rfl
    · cases h
  · cases h

theorem mem_cmdsToDispatch {r : TxLogServer} {sid : Int} {es : List (Key × CmdId)}
    {e : Key × CmdId} {cmd : Marshallable} {c : TpcCommitCommand} {cmds : List TpcCommitCommand}
    (he : e ∈ es) (hcmd : r.cmdAtHand sid e = .ok (some cmd))
    (hc : TxLogServer.asTpcCommit cmd = some c) (h : r.cmdsToDispatch sid es = .ok cmds) :
    c ∈ cmds := by
  induction es generalizing cmds with
  | nil => cases he
  | cons e' es ih =>
    obtain ⟨o, ho, h⟩ := Except.bind_eq_ok h
    obtain ⟨rest, hrest, h⟩ := Except.bind_eq_ok h
    cases h
    rcases List.mem_cons.mp he with rfl | he
    · rw [hcmd] at ho
      cases ho
      simp [hc]
    · exact List.mem_append_right _ (ih he hrest)

theorem Kept.mem_jetpackResubmit (hs : Kept s) {i : Fin n} {w : RoundTwo n}
    (htwo : s.stage i = .two w) (hok : s.resubmitsRecovered i w = true)
    {cmds : List TpcCommitCommand}
    (hcmds : (System.storeMissed (s.server i) w).jetpackResubmit w.proposeSid = .ok cmds)
    {f : FastCommit n} (hf : Owed s (s.round i) f) :
    System.inLog s.log f.keys = true ∨ ∃ v, f.cmd = .vecPiece v ∧ { cmd := v } ∈ cmds := by
  have hst := hs.stage i
  rw [htwo] at hst
  refine (hs.owed_pending hf).imp_right fun hpending => ?_
  have hids : (f.keys.key, f.keys.cmdId) ∈ w.ids := by
    refine (hst f hf).resolve_right fun hin => ?_
    rw [(mem_pending.mp hpending).2.2] at hin
    cases hin
  have hall := List.all_eq_true.mp hok f hpending
  simp only [List.contains_eq_mem, hids, decide_true, Bool.not_true, Bool.false_or,
    Bool.and_eq_true, decide_eq_true_eq, beq_iff_eq] at hall
  obtain ⟨v, hv⟩ := (hs.clients.fast f (hs.owed_mem hf).1).vec
  have hhand := Except.toOption_eq_some hall.2
  rw [hv] at hhand
  exact ⟨v, hv, mem_cmdsToDispatch hall.1 hhand rfl hcmds⟩

theorem exists_dispatch_index {α β : Type} (calls : List β) (commit : β) (g : α → β) {cmds : List α}
    {c : α} (hc : c ∈ cmds) :
    ∃ k ∈ List.range' (calls.length + 1) cmds.length,
      (calls ++ commit :: cmds.map g)[k]? = some (g c) := by
  obtain ⟨m, hm, rfl⟩ := List.getElem_of_mem hc
  refine ⟨calls.length + 1 + m, List.mem_range'_1.mpr ⟨by omega, by omega⟩, ?_⟩
  have hindex : calls.length + 1 + m - calls.length = m + 1 := by omega
  rw [List.getElem?_append_right (by omega), hindex, List.getElem?_cons_succ]
  simp [hm]

theorem sameCommand_recovered {f : FastCommit n} {v : VecPieceData} {round : Option (Round n)}
    (hkeys : extractPoolKeys f.cmd = .ok (some f.keys)) (hv : f.cmd = .vecPiece v) :
    System.sameCommand f.keys
      ⟨{ cmd := { v with isRecoveryCommand := true } }, round⟩ = true := by
  have hextract : extractPoolKeys (.tpcCommit { cmd := { v with isRecoveryCommand := true } })
      = .ok (some f.keys) := by
    rw [← hkeys, hv]
    rfl
  simp [System.sameCommand, hextract]

theorem storeMissed_pool (r : TxLogServer) (w : RoundTwo n) :
    (System.storeMissed r w).commandPool = r.commandPool := by
  unfold System.storeMissed
  dsimp only
  split <;> rfl

/-- The coordinator dispatches the writes it owes, or finishes at once because the log has them. -/
theorem Kept.jetpackCommit {i : Fin n} {w : RoundTwo n} (hs : Kept s) (htwo : s.stage i = .two w)
    (hok : s.resubmitsRecovered i w = true)
    (h : (s.setServer i (System.storeMissed (s.server i) w)).jetpackCommit i w.proposeSid = some s') :
    Kept s' := by
  obtain ⟨cmds, hcmds, h⟩ := Option.bind_eq_some_iff.mp h
  have hserver : (s.setServer i (System.storeMissed (s.server i) w)).server i
      = System.storeMissed (s.server i) w := by simp [System.setServer]
  have hresubmit := Except.toOption_eq_some hcmds
  rw [hserver] at hresubmit
  have hpool : Retains s i (System.storeMissed (s.server i) w).commandPool :=
    storeMissed_pool (s.server i) w ▸ hs.retains i
  have howed := fun f hf => hs.mem_jetpackResubmit htwo hok hresubmit (f := f) hf
  split at h
  · next hempty =>
    cases h
    have hnil : cmds = [] := List.isEmpty_iff.mp hempty
    subst hnil
    refine hs.coordinate _ _ rfl rfl hpool trivial (List.append_assoc _ _ _) ?_ rfl rfl rfl rfl rfl
      rfl rfl rfl
    intro c hc
    simp only [List.map_nil, List.cons_append, List.nil_append, List.mem_cons, List.not_mem_nil,
      or_false] at hc
    rcases hc with rfl | rfl
    · exact callOk_of_round (i := i) rfl (fun _ heq => by cases heq)
    · refine ⟨le_refl _, fun _ _ f hf => ⟨s.log, List.mem_append_right _ List.mem_cons_self, .inl ?_⟩⟩
      rcases howed f hf with hin | ⟨_, -, hmem⟩
      · exact hin
      · cases hmem
  · cases h
    refine hs.coordinate _ _ rfl rfl hpool ?_ rfl ?_ rfl rfl rfl rfl rfl rfl rfl rfl
    · refine ⟨⟨s.log, List.mem_append_right _ List.mem_cons_self, fun f hf => ?_⟩, List.nodup_nil,
        List.nil_subset _, fun k hk => by cases hk⟩
      refine (howed f hf).imp_right ?_
      rintro ⟨v, hv, hmem⟩
      obtain ⟨k, hk, hcall⟩ := exists_dispatch_index s.calls
        (Call.commit (s.round i) (System.storeMissed (s.server i) w).jepoch
          (System.storeMissed (s.server i) w).oepoch w.proposeSid)
        (fun c => Call.dispatch (s.round i)
          { c with cmd := { c.cmd with isRecoveryCommand := true } }) hmem
      rw [← hserver] at hcall
      have hmem : f ∈ s.fastCommitted := (hs.owed_mem hf).1
      have hkeys := (hs.clients.fast f hmem).keys
      exact ⟨k, hk, _, hcall, sameCommand_recovered hkeys hv⟩
    · intro c hc
      rcases List.mem_cons.mp hc with rfl | hc
      · exact callOk_of_round (i := i) rfl (fun _ heq => by cases heq)
      · obtain ⟨d, -, rfl⟩ := List.mem_map.mp hc
        exact callOk_of_round (i := i) rfl (fun _ heq => by cases heq)

theorem Kept.roundTwoDone {i : Fin n} (hs : Kept s)
    (hok : s.keepsWrites (.roundTwoDone i) = true) (h : s.roundTwoDone i = some s') : Kept s' := by
  unfold System.roundTwoDone at h
  dsimp only at h
  split at h
  · next w htwo =>
    have hfail : ∀ (mj mo : Epoch) (b : Int), s.dropsAcked i mj = false →
        Kept ((s.setServer i (System.failRound (System.storeMissed (s.server i) w) mj mo b)).setStage
          i .idle) := by
      intro mj mo b hdrop
      have hpool : Retains s i
          ((System.storeMissed (s.server i) w).adoptEpochs mj mo).commandPool :=
        adoptEpochs_retains hs (storeMissed_jepoch (s.server i) w)
          (storeMissed_pool (s.server i) w) hdrop
      exact hs.coordinate [] [] rfl rfl (hpool.congr rfl) trivial (List.append_nil _).symm (by simp)
        (List.append_nil _).symm rfl rfl rfl rfl rfl rfl rfl
    split at h
    · split at h
      · next hnone =>
        cases h
        exact hfail _ _ _ (by simpa [System.keepsWrites, htwo, hnone] using hok)
      · next e he =>
        split at h
        · next hyes =>
          exact hs.jetpackCommit htwo (by simpa [System.keepsWrites, htwo, he, hyes] using hok) h
        · next hno =>
          cases h
          exact hfail _ _ _ (by simpa [System.keepsWrites, htwo, he, hno] using hok)
    · cases h
  · cases h

theorem Kept.resubmitDone {i : Fin n} (hs : Kept s) (h : s.resubmitDone i = some s') : Kept s' := by
  unfold System.resubmitDone at h
  split at h
  · next calls fed hstage =>
    split at h
    · next hlength =>
      cases h
      have hst := hs.stage i
      rw [hstage] at hst
      obtain ⟨⟨log, hlog, howed⟩, hnodup, hsub, hfed⟩ := hst
      have hperm : fed.Perm calls := (hnodup.subperm hsub).perm_of_length_le hlength
      have hdone : ∀ f, Owed s (s.round i) f → Resubmitted s (s.round i) f := by
        intro f hf
        refine ⟨log, hlog, (howed f hf).imp_right ?_⟩
        rintro ⟨k, hk, hdispatched⟩
        have hreply := hs.reply _ (hfed k (hperm.mem_iff.mpr hk))
        exact hreply.2.2 f hf hdispatched
      refine hs.coordinate (r := s.server i) _ [] (Function.update_eq_self _ _).symm rfl
        (hs.retains i) trivial rfl ?_ (List.append_nil _).symm rfl rfl rfl rfl rfl rfl rfl
      intro c hc
      obtain rfl := List.mem_singleton.mp hc
      exact ⟨le_refl _, fun _ _ f hf => hdone f hf⟩
    · cases h
  · cases h

theorem Kept.finishDone {i : Fin n} (hs : Kept s) (h : s.finishDone i = some s') : Kept s' := by
  unfold System.finishDone at h
  split at h
  · split at h
    · cases h
      exact hs.setStage trivial
    · cases h
  · cases h

theorem Kept.step {e : Event n} (hodd : n % 2 = 1) (hs : Kept s) (hok : KeepsWrites s e)
    (h : s.step e = some s') : Kept s' := by
  cases e with
  | issue cmd => exact hs.issue h
  | speculate v k paused skip => exact hs.speculate (System.live_eq_some h)
  | feedSpec k => exact hs.feedSpec h
  | fastCommit k => exact hs.fastCommit hok h
  | placeHolder v cmd => exact hs.placeHolder (System.live_eq_some h)
  | original cmd =>
    cases h
    exact hs.original
  | apply v => exact hs.apply (System.live_eq_some h)
  | setLeader v b =>
    cases h
    exact hs.serve [] (hs.clients.same rfl rfl rfl) (retains_update hs ((hs.retains v).congr rfl))
      (List.Subset.refl _) (List.Subset.refl _) rfl (by simp [System.setServer]) (by simp) rfl rfl
      rfl rfl
  | crash v => exact hs.crash h
  | startRecovery i => exact hs.startRecovery (System.live_eq_some h)
  | deliver v k =>
    obtain ⟨call, hcall, h⟩ := Option.bind_eq_some_iff.mp (System.live_eq_some h)
    refine hs.deliver (List.mem_of_getElem? hcall) (fun round oepoch heq hle => ?_) h
    subst heq
    simpa [KeepsWrites, System.keepsWrites, hcall, hle] using hok
  | deliverDispatch k accepted => exact hs.deliverDispatch hok h
  | recordError v k =>
    obtain ⟨call, -, h⟩ := Option.bind_eq_some_iff.mp h
    exact hs.recordError h
  | feed k => exact hs.feed h
  | roundOneDone i => exact hs.roundOneDone hodd hok (System.live_eq_some h)
  | roundTwoDone i => exact hs.roundTwoDone hok (System.live_eq_some h)
  | resubmitDone i => exact hs.resubmitDone (System.live_eq_some h)
  | finishDone i => exact hs.finishDone (System.live_eq_some h)

end Steps

theorem kept_of_reachable {j o : Epoch} {s : System n} (hodd : n % 2 = 1)
    (h : ReachableWhere System.step KeepsWrites (System.init j o) s) : Kept s :=
  h.invariant (I := Kept) (fun _ _ _ hs hok he => hs.step hodd hok he) (kept_init j o)

/-- A recovery that broadcast `FinishRecovery` resubmitted every write fast-committed before it began,
in every run whose steps lose no such write. -/
theorem fastCommits_survive {j o : Epoch} {s : System n} (hodd : n % 2 = 1)
    (h : ReachableWhere System.step KeepsWrites (System.init j o) s) {round : Round n}
    {oepoch : Epoch} (hdone : .finishRecovery round oepoch ∈ s.calls) {w : FastCommit n}
    (howed : Owed s round w) : Resubmitted s round w :=
  ((kept_of_reachable hodd h).call _ hdone).2 oepoch rfl w howed

/-- All replicas acknowledge a write of key 7, then `a` recovers it with the help of `b` and the leader
answers the dispatch. -/
def recoverOneWrite (a b c : Fin n) (accepted : Bool) : List (Event n) :=
  let write : TxPieceData :=
    { type := rwBenchmarkWTxn, clientId := 1, cmdIdInClient := 1, input := [(0, .i32 7), (1, .i32 0)] }
  [.setLeader a true, .issue { spVecPieceData := [write] },
   .speculate a 0 false false, .speculate b 0 false false, .speculate c 0 false false,
   .feedSpec 0, .feedSpec 1, .feedSpec 2, .fastCommit 0,
   .startRecovery a, .deliver a 0, .deliver b 0, .deliver a 1, .deliver b 1,
   .feed 0, .feed 1, .feed 2, .feed 3, .roundOneDone a,
   .deliver a 2, .deliver b 2, .deliver a 3, .deliver b 3,
   .feed 4, .feed 5, .feed 6, .feed 7, .roundTwoDone a,
   .deliverDispatch 5 accepted, .feed 8, .resubmitDone a]

/-- The run of `a` finished and owes a write. -/
def System.finishedOwing (s : System n) (a : Fin n) : Bool :=
  s.calls.contains (.finishRecovery (a, 1) 0) && s.begun.any fun x => x.1 == (a, 1) && !x.2.isEmpty

theorem owed_of_finishedOwing {s : System n} {a : Fin n} (h : s.finishedOwing a = true) :
    Call.finishRecovery (a, 1) 0 ∈ s.calls ∧ ∃ w, Owed s (a, 1) w := by
  simp only [System.finishedOwing, Bool.and_eq_true, List.contains_eq_mem, decide_eq_true_eq,
    List.any_eq_true, beq_iff_eq, Bool.not_eq_true', List.isEmpty_eq_false_iff] at h
  obtain ⟨hcall, ⟨round, ws⟩, hmem, rfl, hws⟩ := h
  exact ⟨hcall, ws.head hws, ws, hmem, List.head_mem hws⟩

theorem fastCommits_survive_accepted :
    ∃ s : System 3, ReachableWhere System.step KeepsWrites (System.init 0 0) s ∧
      .finishRecovery (0, 1) 0 ∈ s.calls ∧ ∃ w, Owed s (0, 1) w ∧ Resubmitted s (0, 1) w := by
  have hrun : (runWhere System.step KeepsWrites (System.init 0 0)
      (recoverOneWrite (n := 3) 0 1 2 true)).any (fun s => s.finishedOwing 0) = true := by
    decide +kernel
  obtain ⟨s, hreach, hend⟩ := exists_reachableWhere hrun
  obtain ⟨hdone, w, howed⟩ := owed_of_finishedOwing hend
  exact ⟨s, hreach, hdone, w, howed, fastCommits_survive (by decide) hreach hdone howed⟩

/-- The leader turned the dispatch down, and the recovery finished without the write. -/
theorem fastCommit_lost :
    ¬ ∀ s : System 3, Reachable System.step (System.init 0 0) s →
      ∀ (round : Round 3) (oepoch : Epoch) (w : FastCommit 3),
        .finishRecovery round oepoch ∈ s.calls → Owed s round w → Resubmitted s round w := by
  intro hsurvive
  have hrun : (runWhere System.step (fun _ _ => True) (System.init 0 0)
      (recoverOneWrite (n := 3) 0 1 2 false)).any (fun s => s.finishedOwing 0 && s.log.isEmpty &&
        s.resubmits.all fun x => x.2.isEmpty) = true := by decide +kernel
  obtain ⟨s, hreach, hend⟩ := exists_reachableWhere hrun
  simp only [Bool.and_eq_true, List.isEmpty_iff, List.all_eq_true] at hend
  obtain ⟨⟨hend, hlog⟩, hresubmits⟩ := hend
  obtain ⟨hdone, w, howed⟩ := owed_of_finishedOwing hend
  obtain ⟨log, hmem, hin | ⟨e, he, -⟩⟩ := hsurvive s hreach _ _ w hdone howed
  · have hempty : log = [] := hresubmits _ hmem
    rw [hempty] at hin
    cases hin
  · rw [hlog] at he
    cases he

end Jetpack.Recovery
