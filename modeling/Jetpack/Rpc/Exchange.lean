import Jetpack.Rpc.Session

/-! Every answer of the server completes the future of its own request, and no other. -/

namespace Jetpack.Rpc

open LittleEndian SparseInt Transition

namespace Future

/-- A future that is ready saw its callback run once, with its error code. Before that the callback runs
only when the time of a waiting thread is over. -/
structure Sane (fu : Future) : Prop where
  timedOut : fu.timedOut = true → fu.ready = false ∧ ∀ e ∈ fu.calls, e = ETIMEDOUT
  ready : fu.ready = true → fu.calls = if fu.callback then [fu.errorCode] else []
  waiting : fu.ready = false → fu.timedOut = false → fu.calls = []

/-- The answer has come: the future is ready with it, unless a thread gave up before. -/
structure Has (h : Heap) (in_ : Marshal) (fu : Future) (a : Answer) : Prop where
  done : fu.ready = true ∨ fu.timedOut = true
  code : fu.ready = true → fu.errorCode = a.errorCode
  reply : Marshal.Slice h in_ fu.reply a.payload

variable {fu : Future}

theorem Sane.complete (hs : fu.Sane) (hwaits : fu.ready = false) (errorCode : Int) (reply : Marshal) :
    ∃ next, { fu with errorCode, reply }.notifyReady = next ∧ next.Sane ∧ next.xid = fu.xid ∧
      next.reply = reply ∧ (next.ready = true ∨ next.timedOut = true) ∧
      (next.ready = true → next.errorCode = errorCode) := by
  obtain ⟨xid, callback, code, old, ready, timedOut, calls⟩ := fu
  obtain ⟨hout, -, hwaiting⟩ := hs
  dsimp only at hwaits hout hwaiting
  subst hwaits
  refine ⟨_, rfl, ⟨?_, ?_, ?_⟩, ?_, ?_, ?_, ?_⟩
  all_goals
    cases timedOut <;> cases callback <;> simp_all [notifyReady, runCallback]
  all_goals exact hout

theorem Sane.timedWait (hs : fu.Sane) : fu.timedWait.Sane ∧ fu.timedWait.xid = fu.xid ∧
    fu.timedWait.reply = fu.reply ∧ fu.timedWait.ready = fu.ready ∧
    (fu.ready = true → fu.timedWait = fu) ∧ (fu.ready = false → fu.timedWait.timedOut = true) := by
  obtain ⟨xid, callback, code, reply, ready, timedOut, calls⟩ := fu
  obtain ⟨hout, hready, hwaiting⟩ := hs
  dsimp only at hout hready hwaiting
  refine ⟨⟨?_, ?_, ?_⟩, ?_, ?_, ?_, ?_, ?_⟩
  all_goals
    cases ready <;> cases timedOut <;> cases callback <;> simp_all [Future.timedWait, runCallback]
  · exact hout
  · exact fun e he => he.elim (hout e) id

end Future

/-! The requests that the server reads. -/

/-- What is recorded when a request is served. The arguments are not looked at without a handler. -/
def Call.ServedAs (c : Call) (served : Served) : Prop :=
  served = .called c.xid c.rpcId c.args ∨ served = .noHandler c.xid c.rpcId

theorem Call.Fits.xid {c : Call} (hc : c.Fits) (stale : Nat → Byte) :
    HasXid c.body ∧ xidOf stale c.body = c.xid ∧ argsOf c.body = toBytes 4 c.rpcId ++ c.args := by
  obtain ⟨⟨hpos, hlt⟩, -, -⟩ := hc
  have hkept : ¬ LosesByte c.xid := by
    rintro ⟨-, -, hlarge⟩
    omega
  have hback : ∀ rest, LoadsBack loadI64 dumpI64 c.xid rest := fun rest =>
    loadsBack_i64 (by omega) (by omega) hkept rest
  obtain ⟨hsize, hmark, -⟩ := hback []
  obtain ⟨b, bs, hdump⟩ := List.exists_cons_of_ne_nil (dumpI64_ne_nil c.xid)
  have hb : bufSize b = valSize c.xid := by
    rw [hdump, List.head?_cons, Option.map_some, Option.some.injEq] at hmark
    exact hmark
  have hbody : c.body = dumpI64 c.xid ++ (toBytes 4 c.rpcId ++ c.args) := by
    rw [Call.body, List.append_assoc]
  have hfirst : c.body.getD 0 0 = b := by
    rw [hbody, hdump]
    rfl
  refine ⟨⟨b, ?_, ?_⟩, ?_, ?_⟩
  · rw [hbody, hdump]
    rfl
  · rw [hbody, hb, List.length_append, hsize]
    omega
  · have hload : xidOf stale c.body = (loadI64 (c.body.take (bufSize (c.body.getD 0 0)) ++
        (List.range' (bufSize (c.body.getD 0 0)) (9 - bufSize (c.body.getD 0 0))).map
          stale)).getD 0 := rfl
    rw [hload, hfirst, hb, hbody, List.take_left' hsize, (hback _).2.2]
    rfl
  · rw [argsOf, hfirst, hb, hbody, List.drop_left' hsize]

theorem respond_body {c : Call} (hc : c.Fits) (handlers : Handlers) (stale : Nat → Byte) :
    ∃ served, c.ServedAs served ∧ respond handlers stale c.body =
      (served, ((answerTo handlers served).map fun a => frame a.body).getD []) ∧
      ∀ a, answerTo handlers served = some a → a.xid = c.xid := by
  obtain ⟨-, hxid, hargs⟩ := hc.xid stale
  obtain ⟨-, ⟨hlo, hhi⟩, -⟩ := hc
  have hlong : ¬ (toBytes 4 c.rpcId ++ c.args).length < 4 := by
    rw [List.length_append, length_toBytes]
    omega
  have hid : ofSigned 4 ((toBytes 4 c.rpcId ++ c.args).take 4) = c.rpcId := by
    rw [List.take_left' (length_toBytes 4 _)]
    exact ofSigned_toBytes (by omega) (by omega)
  have hdrop : (toBytes 4 c.rpcId ++ c.args).drop 4 = c.args := List.drop_left' (length_toBytes 4 _)
  unfold respond
  simp only [hxid, hargs, if_neg hlong, hid, hdrop]
  cases hhandler : handlers c.rpcId with
  | none =>
    refine ⟨_, .inr rfl, rfl, ?_⟩
    rintro a ⟨⟩
    rfl
  | some handler =>
    refine ⟨_, .inl rfl, ?_, ?_⟩
    · cases hanswer : handler c.xid c.args with
      | none => simp [answerTo, hhandler, hanswer]
      | some sent =>
        simp [answerTo, hhandler, hanswer, replyBytes_eq, Answer.body]
    · intro a ha
      cases hanswer : handler c.xid c.args with
      | none => simp [answerTo, hhandler, hanswer] at ha
      | some sent =>
        simp only [answerTo, hhandler, hanswer, Option.bind_eq_bind, Option.bind_some] at ha
        rw [← Option.some.inj ha]

namespace ServerConnection

theorem extract_spec {c : ServerConnection} {left block rest : List Byte} {calls : List Call}
    (hopen : c.connected = true) (hin : c.in_.Contains c.heap left) (hfits : ∀ x ∈ calls, x.Fits)
    (hbytes : left ++ (block ++ rest) = (calls.map Call.body).flatMap frame) (stale : Nat → Byte) :
    ∃ h in' reqs left', c.extract stale block = .ok ({ c with heap := h, in_ := in' }, reqs) ∧
      in'.Contains h left' ∧ reqs.length ≤ calls.length ∧
      List.Forall₂ (Request.Carries h stale) reqs ((calls.take reqs.length).map Call.body) ∧
      left' ++ rest = ((calls.drop reqs.length).map Call.body).flatMap frame := by
  obtain ⟨as, k, hleft⟩ := hin
  obtain ⟨h₁, m₁, new, hread, k₁, hbytes₁, -⟩ := k.readFromFd block
  rw [hleft] at hbytes₁
  rw [← List.append_assoc] at hbytes
  have hnot : (!c.connected) = false := by rw [hopen, Bool.not_true]
  have hstep : c.extract stale block =
      if block.length % 2 ^ 32 = 0 then .ok ({ c with heap := h₁, in_ := m₁ }, [])
      else (extractLoop stale (m₁.contentSize + 1) h₁ m₁ [] >>= fun r =>
        .ok ({ c with heap := r.1, in_ := r.2.1 }, r.2.2)) := by
    unfold extract
    rw [hread, hnot]
    rfl
  rw [hstep]
  by_cases hsilent : block.length % 2 ^ 32 = 0
  · exact ⟨h₁, m₁, [], left ++ block, if_pos hsilent, ⟨as ++ new, k₁, hbytes₁⟩, Nat.zero_le _, .nil, hbytes⟩
  · have hok : ∀ body ∈ calls.map Call.body, body.length < 2 ^ 31 := by
      intro body hbody
      obtain ⟨x, hx, rfl⟩ := List.mem_map.mp hbody
      exact (hfits x hx).2.2
    obtain ⟨hfront, hrest⟩ := packets_encodes.frames hok hbytes
    have htake := List.prefix_iff_eq_take.mp hfront
    have hwraps : ¬ Wraps (packets.frames (left ++ block)).2 := by
      rw [← List.map_drop] at hrest
      refine not_wraps (fun body hbody => hok body ?_) hrest
      rw [List.map_drop] at hbody
      exact List.mem_of_mem_drop hbody
    have hsound : Sound (left ++ block) := by
      refine ⟨fun body hbody => ?_, hwraps⟩
      obtain ⟨x, hx, rfl⟩ := List.mem_map.mp (hfront.subset hbody)
      exact ((hfits x hx).xid stale).1
    have hfuel : (as ++ new).length < m₁.contentSize + 1 := by
      rw [k₁.reads.size]
      omega
    rcases extractLoop_spec k₁ stale hfuel [] with ⟨hbad, -⟩ |
      ⟨-, m₂, as₂, reqs, hloop, k₂, hleft₂, hall⟩
    · rw [hbytes₁] at hbad
      exact absurd hsound hbad
    · rw [hbytes₁] at hleft₂ hall
      have hlen := hall.length_eq
      have hle := hfront.length_le
      rw [List.length_map] at hle
      refine ⟨h₁, m₂, reqs, _, ?_, ⟨as₂, k₂, hleft₂⟩, by omega, ?_, ?_⟩
      · rw [if_neg hsilent, hloop]
        rfl
      · rw [List.map_take, hlen, ← htake]
        exact hall
      · rw [List.map_drop, hlen]
        exact hrest

end ServerConnection

/-! What holds in every state of a session. -/

theorem lookup_filter_ne {l : List (Int × Nat)} {x y : Int} (hne : y ≠ x) :
    (l.filter fun p => p.1 ≠ x).lookup y = l.lookup y := by
  induction l with
  | nil => rfl
  | cons p l ih =>
    by_cases hp : p.1 = x
    · have hother : (y == p.1) = false := by
        rw [beq_eq_false_iff_ne, hp]
        exact hne
      rw [List.filter_cons_of_neg (by simpa using hp), ih, List.lookup_cons, hother]
    · rw [List.filter_cons_of_pos (by simpa using hp), List.lookup_cons, List.lookup_cons, ih]

theorem lookup_filter_self (l : List (Int × Nat)) (x : Int) :
    (l.filter fun p => p.1 ≠ x).lookup x = none := by
  induction l with
  | nil => rfl
  | cons p l ih =>
    by_cases hp : p.1 = x
    · rw [List.filter_cons_of_neg (by simpa using hp), ih]
    · have hother : (x == p.1) = false := by
        rw [beq_eq_false_iff_ne]
        exact Ne.symm hp
      rw [List.filter_cons_of_pos (by simpa using hp), List.lookup_cons, hother, ih]

theorem getElem?_concat {α : Type} {l : List α} {x y : α} {i : Nat} (h : (l ++ [x])[i]? = some y) :
    l[i]? = some y ∨ i = l.length ∧ y = x := by
  rcases Nat.lt_or_ge i l.length with hlt | hge
  · rw [List.getElem?_append_left hlt] at h
    exact .inl h
  · rw [List.getElem?_append_right hge] at h
    obtain ⟨hzero, hx⟩ := List.getElem?_eq_some_iff.mp h
    rw [List.length_singleton] at hzero
    refine .inr ⟨by omega, ?_⟩
    rw [← hx, List.getElem_singleton]

namespace Session

variable {stale : Nat → Byte} {s : Session}

/-- The requests are in the stream in their order, after those that the server has taken off it. -/
def Asked (stale : Nat → Byte) (s : Session) : Prop :=
  ∃ out left, s.client.out_.writeCnt = 0 ∧ s.client.out_.Contains s.client.outHeap out ∧
    s.server.in_.Contains s.server.heap left ∧
    s.server.served.length + s.queue.length ≤ s.calls.length ∧
    List.Forall₂ (Request.Carries s.server.heap stale) s.queue
      (((s.calls.drop s.server.served.length).take s.queue.length).map Call.body) ∧
    left ++ (s.toServer ++ out) =
      ((s.calls.drop (s.server.served.length + s.queue.length)).map Call.body).flatMap frame

/-- Every answer is to a request that was served, and there is one at most. -/
structure Answered (s : Session) : Prop where
  once : (s.answers.map Answer.xid).Nodup
  asked : ∀ a ∈ s.answers, ∃ i < s.server.served.length, a.xid = (i : Int)
  served : List.Forall₂ Call.ServedAs (s.calls.take s.server.served.length) s.server.served

/-- The answers are in the stream in their order, after those that the client has taken. -/
def Returned (s : Session) : Prop :=
  ∃ out left, s.server.Sends out ∧ s.client.in_.Contains s.client.heap left ∧
    s.taken ≤ s.answers.length ∧
    left ++ (s.toClient ++ out) = ((s.answers.drop s.taken).map Answer.body).flatMap frame

/-- A future has its answer when the client took it, and waits before that. -/
structure Filed (s : Session) (i : Nat) (fu : Future) : Prop where
  xid : fu.xid = (i : Int)
  sane : fu.Sane
  has : ∀ a ∈ s.answers.take s.taken, a.xid = (i : Int) → fu.Has s.client.heap s.client.in_ a
  waits : (∀ a ∈ s.answers.take s.taken, a.xid ≠ (i : Int)) →
    fu.ready = false ∧ fu.reply = {} ∧ s.client.pendingFu.lookup (i : Int) = some i

structure Inv (stale : Nat → Byte) (s : Session) : Prop where
  inRange : s.InRange
  opened : s.client.connected = true
  xids : ∀ (i : Nat) (c : Call), s.calls[i]? = some c → c.xid = (i : Int)
  counter : s.client.xidCounter = (s.calls.length : Int)
  futures : s.client.futures.length = s.calls.length
  asked : s.Asked stale
  answered : s.Answered
  returned : s.Returned
  filed : ∀ (i : Nat) (fu : Future), s.client.futures[i]? = some fu → s.Filed i fu

theorem Inv.taken_le (h : s.Inv stale) : s.taken ≤ s.answers.length := by
  obtain ⟨_, _, -, -, hle, -⟩ := h.returned
  exact hle

theorem Inv.served_le (h : s.Inv stale) :
    s.server.served.length + s.queue.length ≤ s.calls.length := by
  obtain ⟨_, _, -, -, -, hle, -⟩ := h.asked
  exact hle

theorem Inv.request (h : s.Inv stale) (rpcId : Int) (callback : Bool) (args : List Byte) :
    ∃ t, s.step stale (.request rpcId callback args) = some t ∧ (t.InRange → t.Inv stale) := by
  obtain ⟨out, left, hcnt, hout, hin, hle, hall, hbytes⟩ := h.asked
  obtain ⟨heap, out', hreq, hout', hcnt'⟩ :=
    Client.request_spec h.opened hout hcnt rpcId callback args
  have hstep : s.step stale (.request rpcId callback args) = some { s with
      client := { s.client with
        outHeap := heap
        out_ := out'
        xidCounter := s.client.xidCounter + 1
        pendingFu := (s.client.pendingFu.filter fun p => p.1 ≠ s.client.xidCounter) ++
          [(s.client.xidCounter, s.client.futures.length)]
        futures := s.client.futures ++ [{ xid := s.client.xidCounter, callback }] }
      calls := s.calls ++ [⟨s.client.xidCounter, rpcId, args⟩] } := by
    simp only [step, hreq]
    rfl
  refine ⟨_, hstep, fun hrange => ⟨hrange, h.opened, ?_, ?_, ?_, ?_, ?_, h.returned, ?_⟩⟩
  · intro i c hc
    rcases getElem?_concat hc with hold | ⟨rfl, rfl⟩
    · exact h.xids i c hold
    · exact h.counter
  · show s.client.xidCounter + 1 = ((s.calls ++ [_]).length : Int)
    rw [List.length_append, List.length_singleton, h.counter]
    push_cast
    rfl
  · show (s.client.futures ++ [_]).length = (s.calls ++ [_]).length
    simp only [List.length_append, List.length_singleton, h.futures]
  · refine ⟨_, left, hcnt', hout', hin, ?_, ?_, ?_⟩
    · show s.server.served.length + s.queue.length ≤ (s.calls ++ [_]).length
      rw [List.length_append]
      omega
    · show List.Forall₂ _ s.queue ((((s.calls ++ [_]).drop s.server.served.length).take
        s.queue.length).map Call.body)
      rw [List.drop_append_of_le_length (by omega),
        List.take_append_of_le_length (by rw [List.length_drop]; omega)]
      exact hall
    · show left ++ (s.toServer ++ (out ++ frame _)) = (((s.calls ++ [_]).drop
        (s.server.served.length + s.queue.length)).map _).flatMap frame
      rw [List.drop_append_of_le_length hle, List.map_append, List.flatMap_append, ← hbytes]
      simp [Call.body]
  · refine ⟨h.answered.once, h.answered.asked, ?_⟩
    show List.Forall₂ _ ((s.calls ++ [_]).take s.server.served.length) _
    rw [List.take_append_of_le_length (by omega)]
    exact h.answered.served
  · intro i fu hfu
    rcases getElem?_concat hfu with hold | ⟨rfl, rfl⟩
    · have hf := h.filed i fu hold
      have hlt := (List.getElem?_eq_some_iff.mp hold).1
      have hne : (i : Int) ≠ s.client.xidCounter := by
        rw [h.counter, ← h.futures]
        omega
      refine ⟨hf.xid, hf.sane, hf.has, fun hnone => ?_⟩
      obtain ⟨hready, hreply, hlookup⟩ := hf.waits hnone
      refine ⟨hready, hreply, ?_⟩
      show ((s.client.pendingFu.filter fun p : Int × Nat => p.1 ≠ s.client.xidCounter) ++ [_]).lookup _ = _
      rw [List.lookup_append, lookup_filter_ne hne, hlookup]
      rfl
    · have hnew : (s.client.futures.length : Int) = s.client.xidCounter := by
        rw [h.counter, h.futures]
      refine ⟨hnew.symm, ⟨fun hout => ?_, fun hready => ?_, fun _ _ => rfl⟩, fun a ha hxid => ?_,
        fun _ => ⟨rfl, rfl, ?_⟩⟩
      · cases hout
      · cases hready
      · obtain ⟨i, hi, hax⟩ := h.answered.asked a (List.mem_of_mem_take ha)
        rw [hax, h.futures] at hxid
        omega
      · show ((s.client.pendingFu.filter fun p : Int × Nat => p.1 ≠ s.client.xidCounter) ++ [_]).lookup _ = _
        rw [hnew, List.lookup_append, lookup_filter_self]
        simp

theorem Inv.clientWrite (h : s.Inv stale) (k : Nat) :
    ∃ t, s.step stale (.clientWrite k) = some t ∧ (t.InRange → t.Inv stale) := by
  obtain ⟨out, left, hcnt, hout, hin, hle, hall, hbytes⟩ := h.asked
  obtain ⟨out', hwrite, hout', hcnt'⟩ := hout.writeToFd k
  have hnot : (!s.client.connected) = false := by rw [h.opened, Bool.not_true]
  have hstep : s.step stale (.clientWrite k) = some { s with
      client := { s.client with out_ := out' }, toServer := s.toServer ++ out.take k } := by
    simp only [step, Client.handleWrite, hnot, Bool.false_eq_true, if_false, hwrite]
    rfl
  refine ⟨_, hstep, fun hrange => ⟨hrange, h.opened, h.xids, h.counter, h.futures, ?_,
    ⟨h.answered.once, h.answered.asked, h.answered.served⟩, h.returned, fun i fu hfu => ?_⟩⟩
  · refine ⟨out.drop k, left, hcnt'.trans hcnt, hout', hin, hle, hall, ?_⟩
    show left ++ ((s.toServer ++ out.take k) ++ out.drop k) = _
    rw [List.append_assoc, List.take_append_drop]
    exact hbytes
  · have hf := h.filed i fu hfu
    exact ⟨hf.xid, hf.sane, hf.has, hf.waits⟩

theorem Inv.serverRead (h : s.Inv stale) (k : Nat) :
    ∃ t, s.step stale (.serverRead k) = some t ∧ (t.InRange → t.Inv stale) := by
  by_cases hqueue : s.queue = []
  · obtain ⟨out, left, hcnt, hout, hin, hle, -, hbytes⟩ := h.asked
    obtain ⟨serverOut, clientLeft, hsends, hclient, htaken, hback⟩ := h.returned
    rw [hqueue, List.length_nil, Nat.add_zero] at hle hbytes
    have hstream : left ++ (s.toServer.take k ++ (s.toServer.drop k ++ out)) =
        ((s.calls.drop s.server.served.length).map Call.body).flatMap frame := by
      rw [← hbytes, ← List.append_assoc (s.toServer.take k), List.take_append_drop]
    obtain ⟨heap, in', reqs, left', hextract, hin', hlen, hall, hrest⟩ :=
      ServerConnection.extract_spec hsends.connected hin
        (fun x hx => h.inRange.1 x (List.mem_of_mem_drop hx)) hstream stale
    have hstep : s.step stale (.serverRead k) = some { s with
        server := { s.server with heap, in_ := in' }
        queue := reqs
        toServer := s.toServer.drop k } := by
      simp only [step, hqueue, hextract, ne_eq, not_true_eq_false, if_false]
      rfl
    rw [List.length_drop] at hlen
    refine ⟨_, hstep, fun hrange => ⟨hrange, h.opened, h.xids, h.counter, h.futures, ?_,
      ⟨h.answered.once, h.answered.asked, h.answered.served⟩, ?_, fun i fu hfu => ?_⟩⟩
    · refine ⟨out, left', hcnt, hout, hin', ?_, hall, ?_⟩
      · show s.server.served.length + reqs.length ≤ s.calls.length
        omega
      · show left' ++ (s.toServer.drop k ++ out) =
          ((s.calls.drop (s.server.served.length + reqs.length)).map Call.body).flatMap frame
        rw [hrest, List.drop_drop]
    · exact ⟨serverOut, clientLeft, ⟨hsends.connected, hsends.counted, hsends.out⟩, hclient, htaken,
        hback⟩
    · have hf := h.filed i fu hfu
      exact ⟨hf.xid, hf.sane, hf.has, hf.waits⟩
  · have hstep : s.step stale (.serverRead k) = some s := by
      simp only [step, ne_eq, hqueue, not_false_eq_true, if_true]
    exact ⟨s, hstep, fun _ => h⟩

theorem Returned.append (h : s.Returned) {server : ServerConnection} {queue : List Request}
    {new : List Answer}
    (hsends : ∀ out, s.server.Sends out → server.Sends (out ++ (new.map Answer.body).flatMap frame)) :
    Returned { s with server, queue, answers := s.answers ++ new } := by
  obtain ⟨out, left, hs, hclient, htaken, hback⟩ := h
  refine ⟨_, left, hsends out hs, hclient, ?_, ?_⟩
  · show s.taken ≤ (s.answers ++ new).length
    rw [List.length_append]
    omega
  · show left ++ (s.toClient ++ (out ++ _)) =
      (((s.answers ++ new).drop s.taken).map Answer.body).flatMap frame
    rw [List.drop_append_of_le_length htaken, List.map_append, List.flatMap_append, ← hback]
    simp only [List.append_assoc]

theorem Filed.append {i : Nat} {fu : Future} (hf : s.Filed i fu) (htaken : s.taken ≤ s.answers.length)
    (server : ServerConnection) (queue : List Request) (new : List Answer) :
    Filed { s with server, queue, answers := s.answers ++ new } i fu := by
  have hsame : (s.answers ++ new).take s.taken = s.answers.take s.taken :=
    List.take_append_of_le_length htaken
  refine ⟨hf.xid, hf.sane, fun a ha => hf.has a ?_, fun hnone => hf.waits fun a ha => hnone a ?_⟩
  · rw [← hsame]
    exact ha
  · show a ∈ (s.answers ++ new).take s.taken
    rw [hsame]
    exact ha

theorem nodup_concat {answers : List Answer} (h : (answers.map Answer.xid).Nodup) {a : Answer}
    (hfirst : a.xid ∉ answers.map Answer.xid) : ((answers ++ [a]).map Answer.xid).Nodup := by
  rw [List.map_append, List.nodup_append]
  refine ⟨h, List.nodup_singleton _, fun x hx y hy hxy => hfirst ?_⟩
  obtain rfl : y = a.xid := List.mem_singleton.mp hy
  exact hxy ▸ hx

theorem Inv.serve (h : s.Inv stale) (handlers : Handlers) :
    ∃ t, s.step stale (.serve handlers) = some t ∧ (t.InRange → t.Inv stale) := by
  cases hqueue : s.queue with
  | nil =>
    have hstep : s.step stale (.serve handlers) = some s := by
      simp only [step, hqueue]
    exact ⟨s, hstep, fun _ => h⟩
  | cons req queue =>
    obtain ⟨out, left, hcnt, hout, hin, hle, hall, hbytes⟩ := h.asked
    obtain ⟨serverOut, clientLeft, hsends, -, -, -⟩ := h.returned
    rw [hqueue, List.length_cons] at hle hbytes hall
    have hlt : s.server.served.length < s.calls.length := by omega
    have hdrop := List.drop_eq_getElem_cons hlt
    obtain ⟨c, hc⟩ : ∃ c, c = s.calls[s.server.served.length] := ⟨_, rfl⟩
    rw [← hc] at hdrop
    have hget : s.calls[s.server.served.length]? = some c := by
      rw [hc]
      exact List.getElem?_eq_getElem hlt
    have hxid := h.xids _ c hget
    rw [hdrop, List.take_succ_cons, List.map_cons] at hall
    cases hall with
    | cons hreq hrest =>
      have hfits := h.inRange.1 c (List.mem_of_getElem? hget)
      obtain ⟨served, hserved, hrespond, hanswer⟩ := respond_body hfits handlers stale
      obtain ⟨server, hserve, -, hservedAll, hheap, hin'⟩ :=
        @ServerConnection.serve_spec handlers stale s.server serverOut c.body hsends req hreq
      rw [hrespond] at hservedAll
      have hnew : (server.served.drop s.server.served.length).filterMap (answerTo handlers) =
          (answerTo handlers served).toList := by
        rw [hservedAll, List.drop_left]
        show [served].filterMap (answerTo handlers) = (answerTo handlers served).toList
        cases hans : answerTo handlers served with
        | none => simp [hans]
        | some a => simp [hans]
      have hstep : s.step stale (.serve handlers) = some { s with
          server
          queue
          answers := s.answers ++ (answerTo handlers served).toList } := by
        simp only [step, hqueue, hserve, ← hnew]
        rfl
      have hlen : server.served.length = s.server.served.length + 1 := by
        rw [hservedAll, List.length_append, List.length_singleton]
      refine ⟨_, hstep, fun hrange => ⟨hrange, h.opened, h.xids, h.counter, h.futures, ?_, ?_, ?_,
        fun i fu hfu => (h.filed i fu hfu).append h.taken_le _ _ _⟩⟩
      · refine ⟨out, left, hcnt, hout, ?_, ?_, ?_, ?_⟩
        · show server.in_.Contains server.heap left
          rw [hheap, hin']
          exact hin
        · show server.served.length + queue.length ≤ s.calls.length
          omega
        · show List.Forall₂ (Request.Carries server.heap stale) queue
            (((s.calls.drop server.served.length).take queue.length).map Call.body)
          rw [hlen, hheap]
          exact hrest
        · show left ++ (s.toServer ++ out) =
            ((s.calls.drop (server.served.length + queue.length)).map Call.body).flatMap frame
          rw [hbytes, hlen, Nat.add_assoc, Nat.add_comm 1]
      · refine ⟨?_, ?_, ?_⟩
        · show ((s.answers ++ (answerTo handlers served).toList).map Answer.xid).Nodup
          cases hans : answerTo handlers served with
          | none => simpa using h.answered.once
          | some a =>
            refine nodup_concat h.answered.once fun hmem => ?_
            obtain ⟨b, hb, hab⟩ := List.mem_map.mp hmem
            obtain ⟨i, hi, hbi⟩ := h.answered.asked b hb
            rw [hanswer a hans, hxid, hbi] at hab
            omega
        · show ∀ a ∈ s.answers ++ (answerTo handlers served).toList, ∃ i < server.served.length,
            a.xid = (i : Int)
          intro a ha
          rw [hlen]
          rcases List.mem_append.mp ha with ha | ha
          · obtain ⟨i, hi, hax⟩ := h.answered.asked a ha
            exact ⟨i, by omega, hax⟩
          · refine ⟨s.server.served.length, Nat.lt_succ_self _, ?_⟩
            rw [hanswer a (Option.mem_toList.mp ha), hxid]
        · show List.Forall₂ Call.ServedAs (s.calls.take server.served.length) server.served
          rw [hlen, hservedAll, List.take_add_one, hget]
          exact List.rel_append h.answered.served (.cons hserved .nil)
      · refine h.returned.append fun out' hout' => ?_
        obtain ⟨server', hserve', hsends', -⟩ :=
          @ServerConnection.serve_spec handlers stale s.server out' c.body hout' req hreq
        obtain rfl := Option.some.inj (hserve.symm.trans hserve')
        rw [hrespond] at hsends'
        cases hans : answerTo handlers served with
        | none =>
          rw [hans] at hsends'
          exact hsends'
        | some a =>
          rw [hans] at hsends'
          simpa using hsends'

/-- A handler is only called for a request that was made, under the number of that request. -/
theorem Inv.exists_served (h : s.Inv stale) {xid : Int}
    (hcalled : some xid ∈ s.server.served.map Served.calledXid) :
    ∃ i < s.server.served.length, xid = (i : Int) := by
  obtain ⟨served, hmem, hxid⟩ := List.mem_map.mp hcalled
  obtain ⟨i, hi, hget⟩ := List.getElem_of_mem hmem
  have hi' : i < (s.calls.take s.server.served.length).length := by
    rw [h.answered.served.length_eq]
    exact hi
  have hcall : (s.calls.take s.server.served.length)[i].xid = (i : Int) := by
    apply h.xids
    rw [List.getElem_take]
    exact List.getElem?_eq_getElem _
  have hrel := h.answered.served.get hi' hi
  simp only [List.get_eq_getElem, hget] at hrel
  refine ⟨i, hi, ?_⟩
  rw [← hcall]
  rcases hrel with rfl | rfl
  · exact (Option.some.inj hxid).symm
  · cases hxid

theorem Inv.answer (h : s.Inv stale) {xid : Int} (hdeferred : s.Deferred xid)
    (payload : List Byte) :
    ∃ t, s.step stale (.answer xid payload) = some t ∧ (t.InRange → t.Inv stale) := by
  obtain ⟨out, left, hcnt, hout, hin, hle, hall, hbytes⟩ := h.asked
  obtain ⟨serverOut, clientLeft, hsends, -, -, -⟩ := h.returned
  obtain ⟨server, hreply, -, hsame⟩ := ServerConnection.reply_spec hsends xid 0 payload
  have hstep : s.step stale (.answer xid payload) = some { s with
      server
      answers := s.answers ++ [⟨xid, 0, payload⟩] } := by
    simp only [step, hreply]
    rfl
  have hserved : server.served = s.server.served := by rw [hsame]
  have hheap : server.heap = s.server.heap := by rw [hsame]
  have hin' : server.in_ = s.server.in_ := by rw [hsame]
  obtain ⟨hcalled, hfirst⟩ := hdeferred
  refine ⟨_, hstep, fun hrange => ⟨hrange, h.opened, h.xids, h.counter, h.futures, ?_, ?_, ?_,
    fun i fu hfu => (h.filed i fu hfu).append h.taken_le _ _ _⟩⟩
  · refine ⟨out, left, hcnt, hout, ?_, ?_, ?_, ?_⟩
    · show server.in_.Contains server.heap left
      rw [hheap, hin']
      exact hin
    · show server.served.length + s.queue.length ≤ s.calls.length
      rw [hserved]
      exact hle
    · show List.Forall₂ (Request.Carries server.heap stale) s.queue
        (((s.calls.drop server.served.length).take s.queue.length).map Call.body)
      rw [hserved, hheap]
      exact hall
    · show left ++ (s.toServer ++ out) =
        ((s.calls.drop (server.served.length + s.queue.length)).map Call.body).flatMap frame
      rw [hserved]
      exact hbytes
  · refine ⟨?_, ?_, ?_⟩
    · exact nodup_concat h.answered.once hfirst
    · show ∀ a ∈ s.answers ++ [(⟨xid, 0, payload⟩ : Answer)], ∃ i < server.served.length, a.xid = (i : Int)
      intro a ha
      rw [hserved]
      rcases List.mem_append.mp ha with ha | ha
      · exact h.answered.asked a ha
      · rw [List.mem_singleton.mp ha]
        exact h.exists_served hcalled
    · show List.Forall₂ Call.ServedAs (s.calls.take server.served.length) server.served
      rw [hserved]
      exact h.answered.served
  · refine h.returned.append fun out' hout' => ?_
    obtain ⟨server', hreply', hsends', -⟩ := ServerConnection.reply_spec hout' xid 0 payload
    obtain rfl := Option.some.inj (hreply.symm.trans hreply')
    simpa [replyBytes_eq, Answer.body] using hsends'

theorem Inv.serverWrite (h : s.Inv stale) (k : Nat) :
    ∃ t, s.step stale (.serverWrite k) = some t ∧ (t.InRange → t.Inv stale) := by
  obtain ⟨out, left, hsends, hclient, htaken, hback⟩ := h.returned
  have hout : s.server.out_.Contains s.server.outHeap out := hsends.out
  obtain ⟨out', hwrite, hout', hcnt'⟩ := hout.writeToFd k
  have hnot : (!s.server.connected) = false := by rw [hsends.connected, Bool.not_true]
  have hstep : s.step stale (.serverWrite k) = some { s with
      server := { s.server with out_ := out' }, toClient := s.toClient ++ out.take k } := by
    simp only [step, ServerConnection.handleWrite, hnot, Bool.false_eq_true, if_false, hwrite]
    rfl
  refine ⟨_, hstep, fun hrange => ⟨hrange, h.opened, h.xids, h.counter, h.futures, h.asked,
    ⟨h.answered.once, h.answered.asked, h.answered.served⟩, ?_, fun i fu hfu => ?_⟩⟩
  · refine ⟨out.drop k, left, ⟨hsends.connected, hcnt'.trans hsends.counted, hout'⟩, hclient,
      htaken, ?_⟩
    show left ++ ((s.toClient ++ out.take k) ++ out.drop k) = _
    rw [List.append_assoc, List.take_append_drop]
    exact hback
  · have hf := h.filed i fu hfu
    exact ⟨hf.xid, hf.sane, hf.has, hf.waits⟩

theorem Inv.clientRead (h : s.Inv stale) (k : Nat) :
    ∃ t, s.step stale (.clientRead k) = some t ∧ (t.InRange → t.Inv stale) := by
  obtain ⟨out, left, hsends, hclient, htaken, hback⟩ := h.returned
  obtain ⟨heap, in', hread, hin', hslices⟩ := hclient.readFromFd (s.toClient.take k)
  have hnot : (!s.client.connected) = false := by rw [h.opened, Bool.not_true]
  have hstep : s.step stale (.clientRead k) = some { s with
      client := { s.client with heap, in_ := in' }, toClient := s.toClient.drop k } := by
    simp only [step, Client.handleReadOne, hnot, Bool.false_eq_true, if_false, hread]
    rfl
  refine ⟨_, hstep, fun hrange => ⟨hrange, h.opened, h.xids, h.counter, h.futures, h.asked,
    ⟨h.answered.once, h.answered.asked, h.answered.served⟩, ?_, fun i fu hfu => ?_⟩⟩
  · refine ⟨out, _, hsends, hin', htaken, ?_⟩
    show (left ++ s.toClient.take k) ++ (s.toClient.drop k ++ out) = _
    rw [List.append_assoc, ← List.append_assoc (s.toClient.take k), List.take_append_drop]
    exact hback
  · have hf := h.filed i fu hfu
    refine ⟨hf.xid, hf.sane, fun a ha hxid => ?_, hf.waits⟩
    have hhas := hf.has a ha hxid
    exact ⟨hhas.done, hhas.code, hslices _ _ hhas.reply⟩

theorem Inv.readReply (h : s.Inv stale) (skips : Bool) :
    ∃ t, s.step stale (.readReply skips) = some t ∧ (t.InRange → t.Inv stale) := by
  obtain ⟨out, left, hsends, hclient, htaken, hback⟩ := h.returned
  have hok : ∀ body ∈ (s.answers.drop s.taken).map Answer.body, body.length < 2 ^ 31 := by
    intro body hbody
    obtain ⟨a, ha, rfl⟩ := List.mem_map.mp hbody
    exact (h.inRange.2 a (List.mem_of_mem_drop ha)).2.2
  rcases packets_encodes.next hok hback with hnone | ⟨body, bodies, left', hcons, -, hrest⟩
  · have hread := Client.readReply_incomplete hclient hnone (not_wraps hok hback) skips stale
    have hstep : s.step stale (.readReply skips) = some s := by
      simp only [step, hread]
      rfl
    exact ⟨s, hstep, fun _ => h⟩
  · -- the next answer is complete
    cases hdrop : s.answers.drop s.taken with
    | nil =>
      rw [hdrop] at hcons
      cases hcons
    | cons a more =>
      rw [hdrop, List.map_cons] at hcons
      obtain ⟨rfl, rfl⟩ := List.cons.inj hcons
      have hleft : left = frame a.body ++ left' := by
        rw [hdrop, List.map_cons, List.flatMap_cons, ← hrest, ← List.append_assoc (frame a.body)]
          at hback
        exact List.append_cancel_right hback
      have hlt : s.taken < s.answers.length := by
        have hlen := congrArg List.length hdrop
        rw [List.length_drop, List.length_cons] at hlen
        omega
      have hget : s.answers[s.taken]? = some a := by
        have hfirst := congrArg List.head? hdrop
        rw [List.head?_drop] at hfirst
        exact hfirst
      have hmem := List.mem_of_getElem? hget
      have htake : s.answers.take (s.taken + 1) = s.answers.take s.taken ++ [a] := by
        rw [List.take_add_one, hget]
        rfl
      have hfresh : ∀ b ∈ s.answers.take s.taken, b.xid ≠ a.xid := by
        intro b hb hxid
        have honce := h.answered.once
        rw [← List.take_append_drop s.taken s.answers, hdrop, List.map_append,
          List.nodup_append] at honce
        exact honce.2.2 _ (List.mem_map_of_mem hb) _ (List.mem_map_of_mem List.mem_cons_self) hxid
      obtain ⟨i, hi, hxid⟩ := h.answered.asked a hmem
      have hserved := h.served_le
      have hlength := h.futures
      obtain ⟨fu, hfu⟩ : ∃ fu, s.client.futures[i]? = some fu :=
        ⟨_, List.getElem?_eq_getElem (by omega)⟩
      have hf := h.filed i fu hfu
      obtain ⟨hready, hempty, hlookup⟩ := hf.waits fun b hb hb' => hfresh b hb (hb'.trans hxid.symm)
      rw [hleft] at hclient
      rw [← hxid] at hlookup
      obtain ⟨in', reply, hread, hin', hslice, hslices⟩ := Client.readReply_spec hclient
        (h.inRange.2 a hmem) hlookup hfu (hf.xid.trans hxid.symm) hempty skips stale
      obtain ⟨next, hnext, hsane, hnextXid, hnextReply, hdone, hcode⟩ :=
        hf.sane.complete hready a.errorCode reply
      rw [hnext] at hread
      have hstep : s.step stale (.readReply skips) = some { s with
          client := { s.client with
            in_ := in'
            pendingFu := s.client.pendingFu.filter fun p => p.1 ≠ a.xid
            futures := s.client.futures.set i next }
          taken := s.taken + 1 } := by
        simp only [step, hread]
        rfl
      refine ⟨_, hstep, fun hrange => ⟨hrange, h.opened, h.xids, h.counter, ?_, h.asked,
        ⟨h.answered.once, h.answered.asked, h.answered.served⟩, ?_, fun j fu' hfu' => ?_⟩⟩
      · show (s.client.futures.set i next).length = s.calls.length
        rw [List.length_set]
        exact h.futures
      · refine ⟨out, left', hsends, hin', hlt, ?_⟩
        show left' ++ (s.toClient ++ out) =
          ((s.answers.drop (s.taken + 1)).map Answer.body).flatMap frame
        rw [hrest, ← List.drop_drop, hdrop]
        rfl
      · have hfu' : (s.client.futures.set i next)[j]? = some fu' := hfu'
        by_cases hij : i = j
        · subst hij
          rw [List.getElem?_set_self (by omega)] at hfu'
          obtain rfl := Option.some.inj hfu'
          refine ⟨hnextXid.trans hf.xid, hsane, fun b hb hbxid => ?_, fun hnone => ?_⟩
          · have hb : b ∈ s.answers.take s.taken ++ [a] := htake ▸ hb
            rcases List.mem_append.mp hb with hb | hb
            · exact absurd (hbxid.trans hxid.symm) (hfresh b hb)
            · obtain rfl := List.mem_singleton.mp hb
              refine ⟨hdone, hcode, ?_⟩
              rw [hnextReply]
              exact hslice
          · refine absurd hxid (hnone a ?_)
            show a ∈ s.answers.take (s.taken + 1)
            rw [htake]
            exact List.mem_append_right _ (List.mem_singleton.mpr rfl)
        · rw [List.getElem?_set_ne hij] at hfu'
          have hf' := h.filed j fu' hfu'
          have hother : (j : Int) ≠ a.xid := by
            rw [hxid]
            omega
          refine ⟨hf'.xid, hf'.sane, fun b hb hbxid => ?_, fun hnone => ?_⟩
          · have hb : b ∈ s.answers.take s.taken ++ [a] := htake ▸ hb
            rcases List.mem_append.mp hb with hb | hb
            · have hhas := hf'.has b hb hbxid
              exact ⟨hhas.done, hhas.code, hslices _ _ hhas.reply⟩
            · obtain rfl := List.mem_singleton.mp hb
              exact absurd hbxid.symm hother
          · have hbefore : ∀ b ∈ s.answers.take s.taken, b.xid ≠ (j : Int) := by
              intro b hb
              refine hnone b ?_
              show b ∈ s.answers.take (s.taken + 1)
              rw [htake]
              exact List.mem_append_left _ hb
            obtain ⟨hready', hempty', hlookup'⟩ := hf'.waits hbefore
            refine ⟨hready', hempty', ?_⟩
            show (s.client.pendingFu.filter fun p : Int × Nat => p.1 ≠ a.xid).lookup _ = _
            rw [lookup_filter_ne hother]
            exact hlookup'

theorem Inv.timedWait (h : s.Inv stale) (i : Nat) :
    ∃ t, s.step stale (.timedWait i) = some t ∧ (t.InRange → t.Inv stale) := by
  refine ⟨_, rfl, fun hrange => ⟨hrange, h.opened, h.xids, h.counter, ?_, h.asked,
    ⟨h.answered.once, h.answered.asked, h.answered.served⟩, h.returned, fun j fu hfu => ?_⟩⟩
  · show (s.client.futures.modify i Future.timedWait).length = s.calls.length
    rw [List.length_modify]
    exact h.futures
  · have hfu : (s.client.futures.modify i Future.timedWait)[j]? = some fu := hfu
    rw [List.getElem?_modify] at hfu
    obtain ⟨old, hold, rfl⟩ := Option.map_eq_some_iff.mp hfu
    have hf := h.filed j old hold
    by_cases hij : i = j
    · rw [if_pos hij]
      obtain ⟨hsane, hxid, hreply, hready, hsame, hgave⟩ := hf.sane.timedWait
      refine ⟨hxid.trans hf.xid, hsane, fun a ha haxid => ?_, fun hnone => ?_⟩
      · have hhas := hf.has a ha haxid
        refine ⟨?_, fun hnow => ?_, ?_⟩
        · cases hold' : old.ready with
          | true => exact .inl (hready.trans hold')
          | false => exact .inr (hgave hold')
        · have hbefore := hready.symm.trans hnow
          rw [hsame hbefore]
          exact hhas.code hbefore
        · rw [hreply]
          exact hhas.reply
      · obtain ⟨hwaits, hempty, hlookup⟩ := hf.waits hnone
        exact ⟨hready.trans hwaits, hreply.trans hempty, hlookup⟩
    · rw [if_neg hij]
      exact ⟨hf.xid, hf.sane, hf.has, hf.waits⟩

theorem Inv.step (h : s.Inv stale) {e : SessionEvent} (hready : s.Ready e) :
    ∃ t, s.step stale e = some t ∧ (t.InRange → t.Inv stale) := by
  cases e with
  | request rpcId callback args => exact h.request rpcId callback args
  | clientWrite k => exact h.clientWrite k
  | serverRead k => exact h.serverRead k
  | serve handlers => exact h.serve handlers
  | answer xid payload => exact h.answer hready payload
  | serverWrite k => exact h.serverWrite k
  | clientRead k => exact h.clientRead k
  | readReply skips => exact h.readReply skips
  | timedWait i => exact h.timedWait i

theorem inv_connected (stale : Nat → Byte) (heap outHeap serverHeap serverOutHeap : Heap) :
    (connected heap outHeap serverHeap serverOutHeap).Inv stale where
  inRange := ⟨fun c hc => absurd hc List.not_mem_nil, fun a ha => absurd ha List.not_mem_nil⟩
  opened := rfl
  xids i c hc := by cases hc
  counter := rfl
  futures := rfl
  asked := ⟨[], [], rfl, Marshal.Contains.empty _, Marshal.Contains.empty _, Nat.le_refl _, .nil, rfl⟩
  answered := ⟨List.nodup_nil, fun a ha => absurd ha List.not_mem_nil, .nil⟩
  returned := ⟨[], [], ⟨rfl, rfl, Marshal.Contains.empty _⟩, Marshal.Contains.empty _, Nat.le_refl _,
    rfl⟩
  filed i fu hfu := by cases hfu

theorem inv_of_reachable {heap outHeap serverHeap serverOutHeap : Heap}
    (h : ReachableWhere (Session.step stale) (Allowed stale)
      (connected heap outHeap serverHeap serverOutHeap) s) : s.Inv stale := by
  refine ReachableWhere.invariant (fun s e t hs hallowed hstep => ?_) h
    (inv_connected stale heap outHeap serverHeap serverOutHeap)
  obtain ⟨t', ht', hnext⟩ := hs.step hallowed.1
  obtain rfl := Option.some.inj (hstep.symm.trans ht')
  exact hnext (hallowed.2 t hstep)

end Session

end Jetpack.Rpc
