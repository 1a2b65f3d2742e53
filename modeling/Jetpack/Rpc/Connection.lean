import Jetpack.Library.Framing
import Jetpack.Rpc.SparseInt

/-! The server side of a connection. What a read brings is cut into packets, and each packet is
answered or handed to the handler of its id. -/

namespace Jetpack.Rpc

open LittleEndian SparseInt

/-- A check that failed, or a loop that took more steps than it was allowed. -/
inductive Fault
  | check
  | steps
  deriving Repr, DecidableEq

def verify {α : Type} : Option α → Except Fault α
  | some a => .ok a
  | none => .error .check

def sizeT (v : Int) : Nat := (v % 2 ^ 64).toNat

namespace Marshal

/-- The last chunk, a new one where there is no room in it. -/
def withRoom (h : Heap) (cs : List Chunk) : Option (Heap × List Chunk) :=
  match cs.getLast? with
  | none => some ((newChunk h []).1, [(newChunk h []).2])
  | some tail => do
    if ← tail.fullyWritten h then
      return ((newChunk h []).1, cs ++ [(newChunk h []).2])
    else return (h, cs)

/-- The loop of `read_from_fd` for the bytes `p` that its reads bring. Each read fills the last chunk
as far as the bytes go, and the last one brings nothing. -/
def fdLoop (h : Heap) (cs : List Chunk) : Nat → List Byte → Option (Heap × List Chunk)
  | 0, _ => none
  | fuel + 1, p => do
    let (h, cs) ← withRoom h cs
    if p = [] then return (h, cs)
    else
      let tail ← cs.getLast?
      let (n, h, tail) ← tail.write h p
      fdLoop h (cs.dropLast ++ [tail]) fuel (p.drop n)

def readFromFd (h : Heap) (m : Marshal) (p : List Byte) : Option (Heap × Marshal) := do
  m.headAsserted h
  let (h, chunks) ← fdLoop h m.chunks (p.length + 1) p
  let m : Marshal :=
    { chunks
      writeCnt := m.writeCnt + BitVec.ofNat 32 p.length
      contentSize := m.contentSize + p.length }
  let _ ← m.contentSizeChecked h
  m.headAsserted h
  return (h, m)

/-- `operator>>` for `v64`. The integer is loaded from a buffer of nine bytes on the stack, `stale`
where nothing was read into it. -/
def readV64 (stale : Nat → Byte) (h : Heap) (m : Marshal) : Option (Int × Marshal) := do
  let peeked ← m.peek h 1
  let byte0 ← peeked[0]?
  let bsize := bufSize byte0
  let (buf, m) ← m.read h bsize
  if buf.length ≠ bsize then none
  else
    let val ← loadI64 (buf ++ (List.range' bsize (9 - bsize)).map stale)
    return (val, m)

def readI32 (h : Heap) (m : Marshal) : Option (Int × Marshal) := do
  let (bytes, m) ← m.read h 4
  if bytes.length ≠ 4 then none else return (ofSigned 4 bytes, m)

end Marshal

structure Request where
  m : Marshal
  xid : Int
  deriving Repr, DecidableEq

inductive Served
  | noRpcId (xid : Int)
  | noHandler (xid rpcId : Int)
  | called (xid rpcId : Int) (args : List Byte)
  deriving Repr, DecidableEq

/-- The handlers by rpc id. What a handler returns, from the xid and the bytes that it is given, is
the error code and the bytes of the reply that it sends at once, if it sends one. -/
abbrev Handlers := Int → Option (Int → List Byte → Option (Int × List Byte))

def EINVAL : Int := 22

def ENOENT : Int := 2

/-- The buffers of `in_` and of the requests, and those of `out_`, are numbered separately. -/
structure ServerConnection where
  heap : Heap
  in_ : Marshal := {}
  outHeap : Heap
  out_ : Marshal := {}
  connected : Bool := true
  served : List Served := []

namespace ServerConnection

def beginReply (c : ServerConnection) (xid errorCode : Int) :
    Option (ServerConnection × List Addr) :=
  if !c.connected then none
  else do
    let (bmark, h, out) ← c.out_.setBookmark c.outHeap 4
    let (h, out) ← out.write h (dumpI64 xid)
    let (h, out) ← out.write h (dumpI32 errorCode)
    return ({ c with outHeap := h, out_ := out }, bmark)

def endReply (c : ServerConnection) (bmark : List Addr) : Option ServerConnection :=
  if !c.connected then none
  else
    let (replySize, out) := c.out_.getAndResetWriteCnt
    some { c with
      outHeap := c.outHeap.writeBookmark bmark (toBytes 4 replySize.toInt)
      out_ := out }

/-- `operator<<` of the connection for all that a handler writes. -/
def put (c : ServerConnection) (payload : List Byte) : Option ServerConnection :=
  if payload = [] then some c
  else do
    let (h, out) ← c.out_.write c.outHeap payload
    return { c with outHeap := h, out_ := out }

def reply (c : ServerConnection) (xid errorCode : Int) (payload : List Byte) :
    Option ServerConnection := do
  let (c, bmark) ← c.beginReply xid errorCode
  let c ← c.put payload
  c.endReply bmark

def serve (handlers : Handlers) (c : ServerConnection) (req : Request) :
    Option ServerConnection := do
  let available ← req.m.contentSizeChecked c.heap
  if available < 4 then
    -- rpc id not provided
    let c ← c.reply req.xid EINVAL []
    return { c with served := c.served ++ [.noRpcId req.xid] }
  else
    let (rpcId, m) ← req.m.readI32 c.heap
    match handlers rpcId with
    | some handler =>
      if !c.connected then none
      else
        let args ← m.peek c.heap m.contentSize
        let c := { c with served := c.served ++ [.called req.xid rpcId args] }
        match handler req.xid args with
        | some (errorCode, payload) => c.reply req.xid errorCode payload
        | none => return c
    | none =>
      let c ← c.reply req.xid ENOENT []
      return { c with served := c.served ++ [.noHandler req.xid rpcId] }

def serveAll (handlers : Handlers) (c : ServerConnection) : List Request → Option ServerConnection
  | [] => some c
  | req :: reqs => do
    let c ← c.serve handlers req
    c.serveAll handlers reqs

/-- One pass of the extraction loop: `none` inside when the packet is not complete. -/
def extractOne (stale : Nat → Byte) (h : Heap) (in_ : Marshal) :
    Option (Option (Request × Heap × Marshal)) := do
  let peeked ← in_.peek h 4
  let available ← in_.contentSizeChecked h
  if peeked.length = 4 ∧ (sizeT (ofSigned 4 peeked) + 4) % 2 ^ 64 ≤ available then
    -- consume the packet size
    let (packetSize, in_) ← in_.readI32 h
    let (h, m, in_) ← Marshal.readFromMarshal h {} in_ (sizeT packetSize)
    let (xid, m) ← m.readV64 stale h
    return some ({ m, xid }, h, in_)
  else return none

def extractLoop (stale : Nat → Byte) :
    Nat → Heap → Marshal → List Request → Except Fault (Heap × Marshal × List Request)
  | 0, _, _, _ => .error .steps
  | fuel + 1, h, in_, reqs => do
    match ← verify (extractOne stale h in_) with
    | none => return (h, in_, reqs)
    | some (req, h, in_) => extractLoop stale fuel h in_ (reqs ++ [req])

/-- `handle_read` when the socket has the bytes `block`. Their number is kept in an `int`, and nothing
is done when that is 0. -/
def handleRead (handlers : Handlers) (stale : Nat → Byte) (c : ServerConnection)
    (block : List Byte) : Except Fault ServerConnection := do
  if !c.connected then return c
  else
    let (h, in_) ← verify (c.in_.readFromFd c.heap block)
    let c := { c with heap := h, in_ := in_ }
    if block.length % 2 ^ 32 = 0 then return c
    else
      let (h, in_, reqs) ← extractLoop stale (in_.contentSize + 1) h in_ []
      verify ({ c with heap := h, in_ := in_ }.serveAll handlers reqs)

def run (handlers : Handlers) (stale : Nat → Byte) (c : ServerConnection) :
    List (List Byte) → Except Fault ServerConnection
  | [] => .ok c
  | block :: blocks => do
    let c ← c.handleRead handlers stale block
    c.run handlers stale blocks

end ServerConnection

/-! What the bytes of a stream say. -/

def packetSize (bs : List Byte) : Int := ofSigned 4 (bs.take 4)

def nextPacket (bs : List Byte) : Option (List Byte × List Byte) :=
  if 4 + sizeT (packetSize bs) ≤ bs.length then
    some ((bs.drop 4).take (sizeT (packetSize bs)), (bs.drop 4).drop (sizeT (packetSize bs)))
  else none

/-- The bytes of the xid, the first of which says how many there are, are all in the packet. -/
def HasXid (body : List Byte) : Prop := ∃ b ∈ body.head?, bufSize b ≤ body.length

instance (body : List Byte) : Decidable (HasXid body) :=
  inferInstanceAs (Decidable (∃ b ∈ body.head?, bufSize b ≤ body.length))

/-- The size says more bytes than there are, but its sum with 4 wraps around to fewer. -/
def Wraps (bs : List Byte) : Prop :=
  4 ≤ bs.length ∧ (sizeT (packetSize bs) + 4) % 2 ^ 64 ≤ bs.length ∧
    bs.length < 4 + sizeT (packetSize bs)

instance (bs : List Byte) : Decidable (Wraps bs) :=
  inferInstanceAs (Decidable (_ ∧ _ ∧ _))

end Jetpack.Rpc
