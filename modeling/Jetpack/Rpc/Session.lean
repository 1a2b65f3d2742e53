import Jetpack.Library.Transition
import Jetpack.Rpc.Replies

/-! A client, a server and the two streams of bytes between them. A read of the client and the passes of
its loop are steps of their own, since callbacks run in between; so are the requests that one read of the
server serves. -/

namespace Jetpack.Rpc

open LittleEndian SparseInt

structure Call where
  xid : Int
  rpcId : Int
  args : List Byte
  deriving Repr, DecidableEq

def Call.body (c : Call) : List Byte := dumpI64 c.xid ++ toBytes 4 c.rpcId ++ c.args

def Call.Fits (c : Call) : Prop :=
  (0 ≤ c.xid ∧ c.xid < 2 ^ 48) ∧ (-2 ^ 31 ≤ c.rpcId ∧ c.rpcId < 2 ^ 31) ∧ c.body.length < 2 ^ 31

instance (c : Call) : Decidable c.Fits := inferInstanceAs (Decidable ((_ ∧ _) ∧ (_ ∧ _) ∧ _))

def answerTo (handlers : Handlers) : Served → Option Answer
  | .noRpcId xid => some ⟨xid, EINVAL, []⟩
  | .noHandler xid _ => some ⟨xid, ENOENT, []⟩
  | .called xid rpcId args => do
    let handler ← handlers rpcId
    let (errorCode, payload) ← handler xid args
    return ⟨xid, errorCode, payload⟩

def Served.calledXid : Served → Option Int
  | .called xid _ _ => some xid
  | _ => none

namespace ServerConnection

/-- `handle_read` up to the complete requests. -/
def extract (stale : Nat → Byte) (c : ServerConnection) (block : List Byte) :
    Except Fault (ServerConnection × List Request) := do
  if !c.connected then return (c, [])
  else
    let (h, in_) ← verify (c.in_.readFromFd c.heap block)
    if block.length % 2 ^ 32 = 0 then return ({ c with heap := h, in_ := in_ }, [])
    else
      let (h, in_, reqs) ← extractLoop stale (in_.contentSize + 1) h in_ []
      return ({ c with heap := h, in_ := in_ }, reqs)

theorem handleRead_eq (handlers : Handlers) (stale : Nat → Byte) (c : ServerConnection)
    (block : List Byte) : c.handleRead handlers stale block =
      (c.extract stale block >>= fun r => verify (r.1.serveAll handlers r.2)) := by
  unfold handleRead extract
  cases c.connected with
  | false => rfl
  | true =>
    cases c.in_.readFromFd c.heap block with
    | none => rfl
    | some r =>
      by_cases hsilent : block.length % 2 ^ 32 = 0
      · simp only [verify, hsilent]
        rfl
      · have hread : ¬ block.length % 4294967296 = 0 := hsilent
        cases hloop : extractLoop stale (r.2.contentSize + 1) r.1 r.2 [] with
        | error e => simp [verify, hread, hloop, bind, Except.bind]
        | ok t => simp [verify, hread, hloop, bind, Except.bind, pure, Except.pure]

def handleWrite (c : ServerConnection) (k : Nat) : Option (List Byte × ServerConnection) :=
  if !c.connected then some ([], c)
  else do
    let (bytes, out) ← c.out_.writeToFd c.outHeap k
    return (bytes, { c with out_ := out })

end ServerConnection

/-- `queue` has the complete requests that `handle_read` has still to serve. The calls and the answers are
recorded in their order, and how many answers the client took. -/
structure Session where
  client : Client
  server : ServerConnection
  queue : List Request := []
  toServer : List Byte := []
  toClient : List Byte := []
  calls : List Call := []
  answers : List Answer := []
  taken : Nat := 0

/-- The sockets take and bring as many bytes as an event says. Each request is served with the handlers as
they are then. -/
inductive SessionEvent
  | request (rpcId : Int) (callback : Bool) (args : List Byte)
  | clientWrite (k : Nat)
  | serverRead (k : Nat)
  | serve (handlers : Handlers)
  | answer (xid : Int) (payload : List Byte)
  | serverWrite (k : Nat)
  | clientRead (k : Nat)
  | readReply (skips : Bool)
  | timedWait (i : Nat)

namespace Session

def step (stale : Nat → Byte) (s : Session) : SessionEvent → Option Session
  | .request rpcId callback args => do
    let client ← s.client.request rpcId callback args
    return { s with client, calls := s.calls ++ [⟨s.client.xidCounter, rpcId, args⟩] }
  | .clientWrite k => do
    let (bytes, client) ← s.client.handleWrite k
    return { s with client, toServer := s.toServer ++ bytes }
  | .serverRead k =>
    if s.queue ≠ [] then some s
    else do
      let (server, queue) ← (s.server.extract stale (s.toServer.take k)).toOption
      return { s with server, queue, toServer := s.toServer.drop k }
  | .serve handlers =>
    match s.queue with
    | [] => some s
    | req :: queue => do
      let server ← s.server.serve handlers req
      let answers := (server.served.drop s.server.served.length).filterMap (answerTo handlers)
      return { s with server, queue, answers := s.answers ++ answers }
  | .answer xid payload => do
    let server ← s.server.reply xid 0 payload
    return { s with server, answers := s.answers ++ [⟨xid, 0, payload⟩] }
  | .serverWrite k => do
    let (bytes, server) ← s.server.handleWrite k
    return { s with server, toClient := s.toClient ++ bytes }
  | .clientRead k => do
    let client ← s.client.handleReadOne (s.toClient.take k)
    return { s with client, toClient := s.toClient.drop k }
  | .readReply skips => do
    match ← s.client.readReply skips stale with
    | none => return s
    | some client => return { s with client, taken := s.taken + 1 }
  | .timedWait i => some { s with client := s.client.timedWait i }

/-- A request that was handed to its handler and has no answer yet. -/
def Deferred (s : Session) (xid : Int) : Prop :=
  some xid ∈ s.server.served.map Served.calledXid ∧ xid ∉ s.answers.map Answer.xid

instance (s : Session) (xid : Int) : Decidable (s.Deferred xid) :=
  inferInstanceAs (Decidable (_ ∧ _))

def Ready (s : Session) : SessionEvent → Prop
  | .answer xid _ => s.Deferred xid
  | _ => True

instance (s : Session) (e : SessionEvent) : Decidable (s.Ready e) :=
  match e with
  | .answer xid _ => inferInstanceAs (Decidable (s.Deferred xid))
  | .request .. | .clientWrite _ | .serverRead _ | .serve _ | .serverWrite _ | .clientRead _
  | .readReply _ | .timedWait _ => inferInstanceAs (Decidable True)

/-- The numbers of the calls and of the answers are in the range of their types. -/
def InRange (s : Session) : Prop := (∀ c ∈ s.calls, c.Fits) ∧ ∀ a ∈ s.answers, a.Fits

instance (s : Session) : Decidable s.InRange := inferInstanceAs (Decidable (_ ∧ _))

def Allowed (stale : Nat → Byte) (s : Session) (e : SessionEvent) : Prop :=
  s.Ready e ∧ ∀ t ∈ s.step stale e, t.InRange

instance (stale : Nat → Byte) (s : Session) (e : SessionEvent) : Decidable (Allowed stale s e) :=
  inferInstanceAs (Decidable (_ ∧ _))

def connected (heap outHeap serverHeap serverOutHeap : Heap) : Session :=
  { client := { heap, outHeap }
    server := ServerConnection.accepted serverHeap serverOutHeap }

end Session

end Jetpack.Rpc
