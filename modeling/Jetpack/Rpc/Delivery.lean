import Jetpack.Rpc.Exchange

/-! What a client and a server can rely on: every answer comes to its own request, no check fails and
nothing gets lost. -/

namespace Jetpack.Rpc

open LittleEndian SparseInt Transition

namespace Session

variable {stale : Nat → Byte} {s : Session}

theorem Filed.answered {i : Nat} {fu : Future} (hf : s.Filed i fu) (hready : fu.ready = true) :
    ∃ a ∈ s.answers.take s.taken, a.xid = (i : Int) := by
  by_contra hnone
  have hwaits := (hf.waits fun a ha hxid => hnone ⟨a, ha, hxid⟩).1
  rw [hready] at hwaits
  cases hwaits

/-- Call `i` and its future have the xid `i`. The requests are served in the order of the calls, once each
and as they were sent. A request has at most one answer, and a future that is ready has the answer to its
own request, which its callback saw once; another future saw nothing but that its time was over. -/
structure Matched (s : Session) : Prop where
  xids : ∀ (i : Nat) (c : Call), s.calls[i]? = some c → c.xid = (i : Int)
  futures : s.client.futures.length = s.calls.length
  filed : ∀ (i : Nat) (fu : Future), s.client.futures[i]? = some fu → fu.xid = (i : Int)
  served : List.Forall₂ Call.ServedAs (s.calls.take s.server.served.length) s.server.served
  once : (s.answers.map Answer.xid).Nodup
  ready : ∀ (i : Nat) (fu : Future), s.client.futures[i]? = some fu → fu.ready = true →
    ∃ a ∈ s.answers, a.xid = (i : Int) ∧ fu.errorCode = a.errorCode ∧
      fu.reply.peek s.client.heap fu.reply.contentSize = some a.payload ∧
      fu.calls = if fu.callback then [a.errorCode] else []
  waiting : ∀ (i : Nat) (fu : Future), s.client.futures[i]? = some fu → fu.ready = false →
    ∀ e ∈ fu.calls, e = ETIMEDOUT

theorem Inv.matched (h : s.Inv stale) : s.Matched where
  xids := h.xids
  futures := h.futures
  filed i fu hfu := (h.filed i fu hfu).xid
  served := h.answered.served
  once := h.answered.once
  ready i fu hfu hready := by
    have hf := h.filed i fu hfu
    obtain ⟨a, ha, hxid⟩ := hf.answered hready
    have hhas := hf.has a ha hxid
    obtain ⟨as, r, -, hcontent⟩ := hhas.reply
    refine ⟨a, List.mem_of_mem_take ha, hxid, hhas.code hready, ?_, ?_⟩
    · rw [r.peek, r.size, List.take_length, hcontent]
    · rw [hf.sane.ready hready, hhas.code hready]
  waiting i fu hfu hwaits e he := by
    have hsane := (h.filed i fu hfu).sane
    cases hout : fu.timedOut with
    | true => exact (hsane.timedOut hout).2 e he
    | false =>
      rw [hsane.waiting hwaits hout] at he
      exact absurd he List.not_mem_nil

/-- Every answer comes to its own request. -/
theorem replies_match {heap outHeap serverHeap serverOutHeap : Heap}
    (h : ReachableWhere (Session.step stale) (Allowed stale)
      (connected heap outHeap serverHeap serverOutHeap) s) : s.Matched :=
  (inv_of_reachable h).matched

/-- Two calls, the first of which is answered after the second. The streams bring the packets in pieces. -/
def twoRequests : List SessionEvent :=
  let handlers : Handlers := fun rpcId =>
    some fun _ args => if rpcId = 7 then none else some (0, args)
  [.request 7 true [1], .request 8 true [2, 3], .clientWrite 12, .serverRead 12, .serve handlers,
    .clientWrite 9, .serverRead 9, .serve handlers, .answer 0 [5], .serverWrite 20, .clientRead 9,
    .readReply true, .readReply true, .clientRead 11, .readReply false]

theorem replies_match_two : ∃ s : Session,
    ReachableWhere (Session.step fun _ => 0) (Allowed fun _ => 0)
      (connected ServerConnection.noHeap ServerConnection.noHeap ServerConnection.noHeap
        ServerConnection.noHeap) s ∧
    s.client.futures.map Future.calls = [[0], [0]] ∧ s.answers.map Answer.xid = [1, 0] ∧
    s.Matched := by
  have hrun : (runWhere (Session.step fun _ => 0) (Allowed fun _ => 0)
      (connected ServerConnection.noHeap ServerConnection.noHeap ServerConnection.noHeap
        ServerConnection.noHeap) twoRequests).any (fun s =>
      decide (s.client.futures.map Future.calls = [[0], [0]] ∧ s.answers.map Answer.xid = [1, 0])) =
        true := by
    decide +kernel
  obtain ⟨s, hreach, hchecks⟩ := exists_reachableWhere hrun
  obtain ⟨hcalls, hxids⟩ := of_decide_eq_true hchecks
  exact ⟨s, hreach, hcalls, hxids, replies_match hreach⟩

/-- In every state that a session can reach, no check of the client or of the server fails at what comes
next. -/
theorem no_check_fails {heap outHeap serverHeap serverOutHeap : Heap}
    (h : ReachableWhere (Session.step stale) (Allowed stale)
      (connected heap outHeap serverHeap serverOutHeap) s) {e : SessionEvent} (hready : s.Ready e) :
    ∃ t, s.step stale e = some t := by
  obtain ⟨t, ht, -⟩ := (inv_of_reachable h).step hready
  exact ⟨t, ht⟩

theorem no_check_fails_two : ∃ s : Session,
    ReachableWhere (Session.step fun _ => 0) (Allowed fun _ => 0)
      (connected ServerConnection.noHeap ServerConnection.noHeap ServerConnection.noHeap
        ServerConnection.noHeap) s ∧
    s.Deferred 0 ∧ ∃ t, s.step (fun _ => 0) (.answer 0 [5]) = some t := by
  have hrun : (runWhere (Session.step fun _ => 0) (Allowed fun _ => 0)
      (connected ServerConnection.noHeap ServerConnection.noHeap ServerConnection.noHeap
        ServerConnection.noHeap) (twoRequests.take 8)).any (fun s => decide (s.Deferred 0)) = true := by
    decide +kernel
  obtain ⟨s, hreach, hchecks⟩ := exists_reachableWhere hrun
  have hdeferred : s.Deferred 0 := of_decide_eq_true hchecks
  exact ⟨s, hreach, hdeferred, no_check_fails hreach (e := .answer 0 [5]) hdeferred⟩

def Quiet (s : Session) : Prop :=
  (s.client.out_.contentSize = 0 ∧ s.toServer = [] ∧ s.server.in_.contentSize = 0) ∧ s.queue = [] ∧
    s.server.out_.contentSize = 0 ∧ s.toClient = [] ∧ s.client.in_.contentSize = 0

instance (s : Session) : Decidable s.Quiet := inferInstanceAs (Decidable ((_ ∧ _ ∧ _) ∧ _ ∧ _ ∧ _ ∧ _))

theorem flatMap_frame_eq_nil {bodies : List (List Byte)} (h : bodies.flatMap frame = []) :
    bodies = [] := by
  cases bodies with
  | nil => rfl
  | cons body bodies =>
    have hlen := congrArg List.length h
    rw [List.flatMap_cons, frame] at hlen
    simp only [List.length_append, length_toBytes, List.length_nil] at hlen
    omega

/-- Nothing gets lost: when no byte is on its way every call was served, and every answer has come to the
future of its call. -/
theorem nothing_lost {heap outHeap serverHeap serverOutHeap : Heap}
    (h : ReachableWhere (Session.step stale) (Allowed stale)
      (connected heap outHeap serverHeap serverOutHeap) s) (hquiet : s.Quiet) :
    (∀ (i : Nat) (c : Call), s.calls[i]? = some c → c.xid = (i : Int)) ∧
      List.Forall₂ Call.ServedAs s.calls s.server.served ∧
      ∀ a ∈ s.answers, ∃ (i : Nat) (fu : Future), a.xid = (i : Int) ∧
        s.client.futures[i]? = some fu ∧ (fu.ready = true ∨ fu.timedOut = true) ∧
        fu.reply.peek s.client.heap fu.reply.contentSize = some a.payload := by
  have hinv := inv_of_reachable h
  obtain ⟨⟨hclientOut, htoServer, hserverIn⟩, hqueue, hserverOut, htoClient, hclientIn⟩ := hquiet
  obtain ⟨out, left, -, hout, hin, hle, -, hbytes⟩ := hinv.asked
  obtain ⟨out', left', hsends, hin', htaken, hback⟩ := hinv.returned
  have hout' : s.server.out_.Contains s.server.outHeap out' := hsends.out
  have hempty : ∀ bytes : List Byte, bytes.length = 0 → bytes = [] :=
    fun bytes hlen => List.length_eq_zero_iff.mp hlen
  rw [hempty left (hin.size.symm.trans hserverIn), htoServer, hqueue,
    hempty out (hout.size.symm.trans hclientOut)] at hbytes
  rw [hempty left' (hin'.size.symm.trans hclientIn), htoClient,
    hempty out' (hout'.size.symm.trans hserverOut)] at hback
  have hcalls := List.drop_eq_nil_iff.mp (List.map_eq_nil_iff.mp (flatMap_frame_eq_nil hbytes.symm))
  have hanswers := List.drop_eq_nil_iff.mp (List.map_eq_nil_iff.mp (flatMap_frame_eq_nil hback.symm))
  rw [List.length_nil, Nat.add_zero] at hcalls
  refine ⟨hinv.xids, ?_, ?_⟩
  · have hserved := hinv.answered.served
    rw [List.take_of_length_le hcalls] at hserved
    exact hserved
  · intro a ha
    obtain ⟨i, hi, hxid⟩ := hinv.answered.asked a ha
    have hlen := hinv.futures
    obtain ⟨fu, hfu⟩ : ∃ fu, s.client.futures[i]? = some fu :=
      ⟨_, List.getElem?_eq_getElem (by omega)⟩
    have htake : a ∈ s.answers.take s.taken := by
      rw [List.take_of_length_le hanswers]
      exact ha
    have hhas := (hinv.filed i fu hfu).has a htake hxid
    obtain ⟨as, r, -, hcontent⟩ := hhas.reply
    refine ⟨i, fu, hxid, hfu, hhas.done, ?_⟩
    rw [r.peek, r.size, List.take_length, hcontent]

theorem nothing_lost_two : ∃ s : Session,
    ReachableWhere (Session.step fun _ => 0) (Allowed fun _ => 0)
      (connected ServerConnection.noHeap ServerConnection.noHeap ServerConnection.noHeap
        ServerConnection.noHeap) s ∧
    s.Quiet ∧ s.calls.length = 2 ∧ (∀ (i : Nat) (c : Call), s.calls[i]? = some c → c.xid = (i : Int)) ∧
    List.Forall₂ Call.ServedAs s.calls s.server.served ∧
    ∀ a ∈ s.answers, ∃ (i : Nat) (fu : Future), a.xid = (i : Int) ∧
      s.client.futures[i]? = some fu ∧ (fu.ready = true ∨ fu.timedOut = true) ∧
      fu.reply.peek s.client.heap fu.reply.contentSize = some a.payload := by
  have hrun : (runWhere (Session.step fun _ => 0) (Allowed fun _ => 0)
      (connected ServerConnection.noHeap ServerConnection.noHeap ServerConnection.noHeap
        ServerConnection.noHeap) twoRequests).any (fun s =>
      decide (s.Quiet ∧ s.calls.length = 2)) = true := by
    decide +kernel
  obtain ⟨s, hreach, hchecks⟩ := exists_reachableWhere hrun
  obtain ⟨hquiet, hlen⟩ := of_decide_eq_true hchecks
  exact ⟨s, hreach, hquiet, hlen, nothing_lost hreach hquiet⟩

/-! `handle_read` and `handle_read_two` are these steps, one after the other. -/

/-- A pass changes nothing, or it takes an answer and leaves less to read. -/
theorem Inv.pass (h : s.Inv stale) (skips : Bool) :
    s.client.readReply skips stale = some none ∨
      ∃ c, s.client.readReply skips stale = some (some c) ∧
        s.step stale (.readReply skips) = some { s with client := c, taken := s.taken + 1 } ∧
        Inv stale { s with client := c, taken := s.taken + 1 } ∧
        c.in_.contentSize < s.client.in_.contentSize := by
  obtain ⟨t, ht, hnext⟩ := h.readReply skips
  cases hread : s.client.readReply skips stale with
  | none =>
    simp only [Session.step, hread, Option.bind_eq_bind, Option.bind_none] at ht
    cases ht
  | some r =>
    cases r with
    | none => exact .inl rfl
    | some c =>
      right
      have hstep : s.step stale (.readReply skips) = some { s with client := c, taken := s.taken + 1 } := by
        simp only [Session.step, hread]
        rfl
      obtain rfl := Option.some.inj (ht.symm.trans hstep)
      have hinv := hnext h.inRange
      refine ⟨c, rfl, hstep, hinv, ?_⟩
      obtain ⟨out, left, hsends, hin, -, hback⟩ := h.returned
      obtain ⟨out', left', hsends', hin', htaken', hback'⟩ := hinv.returned
      have hout : s.server.out_.Contains s.server.outHeap out := hsends.out
      have hout' : s.server.out_.Contains s.server.outHeap out' := hsends'.out
      have hsame := hout.size.symm.trans hout'.size
      have hlt : s.taken < s.answers.length := htaken'
      have hfirst := List.drop_eq_getElem_cons hlt
      rw [hfirst, List.map_cons, List.flatMap_cons] at hback
      have hlen := congrArg List.length hback
      have hlen' := congrArg List.length hback'
      rw [frame] at hlen
      simp only [List.length_append, length_toBytes] at hlen hlen'
      have hsize := hin.size
      have hsize' : c.in_.contentSize = left'.length := hin'.size
      omega

theorem allowed_readReply {t : Session} (h : s.InRange) {skips : Bool}
    (hstep : s.step stale (.readReply skips) = some t) (hcalls : t.calls = s.calls)
    (hanswers : t.answers = s.answers) : Allowed stale s (.readReply skips) := by
  refine ⟨trivial, fun u hu => ?_⟩
  obtain rfl := Option.some.inj (hstep.symm.trans hu)
  rw [InRange, hcalls, hanswers]
  exact h

theorem readReplies_steps (h : s.Inv stale) {fuel : Nat} (hfuel : s.client.in_.contentSize < fuel) :
    ∃ t, s.client.readReplies stale fuel = .ok t.client ∧
      ReachableWhere (Session.step stale) (Allowed stale) s t ∧ t.toClient = s.toClient := by
  induction fuel generalizing s with
  | zero => omega
  | succ fuel ih =>
    rcases h.pass false with hnone | ⟨c, hread, hstep, hinv, hless⟩
    · refine ⟨s, ?_, .refl, rfl⟩
      rw [Client.readReplies, hnone]
      rfl
    · obtain ⟨t, hloop, hreach, hsame⟩ := ih hinv (by
        show c.in_.contentSize < fuel
        omega)
      refine ⟨t, ?_, .head ⟨_, allowed_readReply h.inRange hstep rfl rfl, hstep⟩ hreach, hsame⟩
      rw [Client.readReplies, hread]
      exact hloop

/-- `handle_read` ends, and what it does is a read and passes of the loop. -/
theorem handleRead_steps (h : s.Inv stale) (k : Nat) :
    ∃ t, s.client.handleRead stale (s.toClient.take k) = .ok t.client ∧
      ReachableWhere (Session.step stale) (Allowed stale) s t ∧ t.toClient = s.toClient.drop k := by
  obtain ⟨t, ht, hnext⟩ := h.clientRead k
  have hopen : (!s.client.connected) = false := by rw [h.opened, Bool.not_true]
  cases hread : s.client.handleReadOne (s.toClient.take k) with
  | none =>
    simp only [Session.step, hread, Option.bind_eq_bind, Option.bind_none] at ht
    cases ht
  | some c =>
    have hstep : s.step stale (.clientRead k) =
        some { s with client := c, toClient := s.toClient.drop k } := by
      simp only [Session.step, hread]
      rfl
    obtain rfl := Option.some.inj (ht.symm.trans hstep)
    have hinv := hnext h.inRange
    have hfirst : StepWhere (Session.step stale) (Allowed stale) s
        { s with client := c, toClient := s.toClient.drop k } := by
      refine ⟨.clientRead k, ⟨trivial, fun u hu => ?_⟩, hstep⟩
      obtain rfl := Option.some.inj (hstep.symm.trans hu)
      exact h.inRange
    have hrun : s.client.handleRead stale (s.toClient.take k) =
        if (s.toClient.take k).length % 2 ^ 32 = 0 then .ok c
        else c.readReplies stale (c.in_.contentSize + 1) := by
      unfold Client.handleRead
      rw [hopen, hread]
      rfl
    rw [hrun]
    by_cases hsilent : (s.toClient.take k).length % 2 ^ 32 = 0
    · exact ⟨_, if_pos hsilent, .single hfirst, rfl⟩
    · obtain ⟨t, hloop, hreach, hsame⟩ := readReplies_steps hinv (Nat.lt_succ_self _)
      refine ⟨t, ?_, .head hfirst hreach, hsame⟩
      rw [if_neg hsilent]
      exact hloop

theorem readSome_steps (h : s.Inv stale) (iters : Nat) :
    ∃ t done, s.client.readSome stale iters = some (done, t.client) ∧
      ReachableWhere (Session.step stale) (Allowed stale) s t ∧ t.toClient = s.toClient := by
  induction iters generalizing s with
  | zero => exact ⟨s, false, rfl, .refl, rfl⟩
  | succ iters ih =>
    rcases h.pass true with hnone | ⟨c, hread, hstep, hinv, -⟩
    · refine ⟨s, true, ?_, .refl, rfl⟩
      rw [Client.readSome, hnone]
      rfl
    · obtain ⟨t, done, hloop, hreach, hsame⟩ := ih hinv
      refine ⟨t, done, ?_, .head ⟨_, allowed_readReply h.inRange hstep rfl rfl, hstep⟩ hreach, hsame⟩
      rw [Client.readSome, hread]
      exact hloop

theorem handleReadTwo_steps (h : s.Inv stale) (client : Bool) :
    ∃ t done, s.client.handleReadTwo client stale = some (done, t.client) ∧
      ReachableWhere (Session.step stale) (Allowed stale) s t ∧ t.toClient = s.toClient := by
  have hopen : (!s.client.connected) = false := by rw [h.opened, Bool.not_true]
  unfold Client.handleReadTwo
  rw [hopen]
  exact readSome_steps h _

end Session

end Jetpack.Rpc
