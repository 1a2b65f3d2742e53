import Jetpack.Rpc.Extraction

/-! The client side of a connection. Each request takes the next xid, and waits in `pending_fu_` for
the reply with that xid. -/

namespace Jetpack.Rpc

open LittleEndian SparseInt

def ETIMEDOUT : Int := 110

namespace Marshal

/-- One `operator<<` after another. Nothing is written for no bytes. -/
def writeAll (h : Heap) (m : Marshal) : List (List Byte) → Option (Heap × Marshal)
  | [] => some (h, m)
  | p :: ps =>
    if p = [] then m.writeAll h ps
    else do
      let (h, m) ← m.write h p
      m.writeAll h ps

/-- The loop of `write_to_fd` when the socket has room for `k` bytes. A chunk that is not fully read is
the last one, or the socket is full. -/
def fdOutLoop (h : Heap) : List Chunk → Nat → Option (List Byte × List Chunk)
  | [], _ => some ([], [])
  | c :: cs, k => do
    let (bytes, c') ← c.read h k
    if ← c'.fullyRead h then
      if bytes = [] then return ([], cs)
      else
        let (rest, left) ← fdOutLoop h cs (k - bytes.length)
        return (bytes ++ rest, left)
    else return (bytes, c' :: cs)

def writeToFd (h : Heap) (m : Marshal) (k : Nat) : Option (List Byte × Marshal) := do
  let available ← m.contentSizeChecked h
  if available = 0 then return ([], m)
  else
    let (bytes, chunks) ← fdOutLoop h m.chunks k
    if m.contentSize < bytes.length then none
    else
      let m' := { m with chunks, contentSize := m.contentSize - bytes.length }
      let _ ← m'.contentSizeChecked h
      return (bytes, m')

end Marshal

/-- `callback` says whether there is one, and `calls` has the error code that each run of it sees. -/
structure Future where
  xid : Int
  callback : Bool
  errorCode : Int := 0
  reply : Marshal := {}
  ready : Bool := false
  timedOut : Bool := false
  calls : List Int := []
  deriving Repr, DecidableEq

namespace Future

def runCallback (fu : Future) : Future :=
  if fu.callback then { fu with calls := fu.calls ++ [fu.errorCode] } else fu

def notifyReady (fu : Future) : Future :=
  let fu := if fu.timedOut then fu else { fu with ready := true }
  if fu.ready then fu.runCallback else fu

def timedWait (fu : Future) : Future :=
  let fu := if fu.ready then fu else { fu with timedOut := true }
  if fu.timedOut then { fu with errorCode := ETIMEDOUT }.runCallback else fu

end Future

/-- The buffers of `in_` and of the replies, and those of `out_`, are numbered separately. A pointer to a
future is its position in `futures`. -/
structure Client where
  heap : Heap
  in_ : Marshal := {}
  outHeap : Heap
  out_ : Marshal := {}
  connected : Bool := true
  xidCounter : Int := 0
  pendingFu : List (Int × Nat) := []
  futures : List Future := []

namespace Client

def beginRequest (c : Client) (rpcId : Int) (callback : Bool) : Option (Client × List Addr) := do
  let fu : Future := { xid := c.xidCounter, callback }
  let pendingFu := (c.pendingFu.filter fun p => p.1 ≠ fu.xid) ++ [(fu.xid, c.futures.length)]
  let (bmark, h, out) ← c.out_.setBookmark c.outHeap 4
  let (h, out) ← out.writeAll h [dumpI64 fu.xid, toBytes 4 rpcId]
  return ({ c with
    outHeap := h
    out_ := out
    xidCounter := c.xidCounter + 1
    pendingFu
    futures := c.futures ++ [fu] }, bmark)

def put (c : Client) (args : List Byte) : Option Client := do
  let (h, out) ← c.out_.writeAll c.outHeap [args]
  return { c with outHeap := h, out_ := out }

def endRequest (c : Client) (bmark : List Addr) : Client :=
  let (requestSize, out) := c.out_.getAndResetWriteCnt
  { c with
    outHeap := c.outHeap.writeBookmark bmark (toBytes 4 requestSize.toInt)
    out_ := out }

/-- A request. Without a connection `begin_request` gives a null pointer, and nothing is written. -/
def request (c : Client) (rpcId : Int) (callback : Bool) (args : List Byte) : Option Client :=
  if !c.connected then some c
  else do
    let (c, bmark) ← c.beginRequest rpcId callback
    let c ← c.put args
    return c.endRequest bmark

def handleWrite (c : Client) (k : Nat) : Option (List Byte × Client) :=
  if !c.connected then some ([], c)
  else do
    let (bytes, out) ← c.out_.writeToFd c.outHeap k
    return (bytes, { c with out_ := out })

def handleReadOne (c : Client) (block : List Byte) : Option Client :=
  if !c.connected then some c
  else do
    let (heap, in_) ← c.in_.readFromFd c.heap block
    return { c with heap, in_ }

/-- `packet_size - v_reply_xid.val_size() - v_error_code.val_size()`, in `size_t`. -/
def replySize (packetSize xid errorCode : Int) : Nat :=
  (sizeT packetSize + 2 ^ 64 - valSize xid - valSize errorCode) % 2 ^ 64

/-- One pass of the loop of `handle_read`, or of `handle_read_two` which `skips` a reply that no future
waits for: `none` inside when the packet is not complete. -/
def readReply (skips : Bool) (stale : Nat → Byte) (c : Client) : Option (Option Client) := do
  let peeked ← c.in_.peek c.heap 4
  let available ← c.in_.contentSizeChecked c.heap
  if peeked.length = 4 ∧ (sizeT (ofSigned 4 peeked) + 4) % 2 ^ 64 ≤ available then
    -- consume the packet size
    let (packetSize, in_) ← c.in_.readI32 c.heap
    let (xid, in_) ← in_.readV64 stale c.heap
    let (errorCode, in_) ← in_.readSparse 5 loadI32 c.heap
    let n := replySize packetSize xid errorCode
    match c.pendingFu.lookup xid with
    | some i =>
      let fu ← c.futures[i]?
      if fu.xid ≠ xid then none
      else
        let (heap, reply, in_) ← fu.reply.readFromMarshal c.heap in_ n
        return some { c with
          heap
          in_
          pendingFu := c.pendingFu.filter fun p => p.1 ≠ xid
          futures := c.futures.set i { fu with errorCode, reply }.notifyReady }
    | none =>
      if skips then
        let (heap, _, in_) ← Marshal.readFromMarshal c.heap {} in_ n
        return some { c with heap, in_ }
      else return some { c with in_ }
  else return none

def readReplies (stale : Nat → Byte) : Nat → Client → Except Fault Client
  | 0, _ => .error .steps
  | fuel + 1, c => do
    match ← verify (c.readReply false stale) with
    | none => return c
    | some c => readReplies stale fuel c

/-- The number of bytes is kept in an `int`. -/
def handleRead (stale : Nat → Byte) (c : Client) (block : List Byte) : Except Fault Client := do
  if !c.connected then return c
  else
    let c ← verify (c.handleReadOne block)
    if block.length % 2 ^ 32 = 0 then return c
    else readReplies stale (c.in_.contentSize + 1) c

/-- The loop of `handle_read_two`, which says whether it is done. -/
def readSome (stale : Nat → Byte) : Nat → Client → Option (Bool × Client)
  | 0, c => some (false, c)
  | iters + 1, c => do
    match ← c.readReply true stale with
    | none => return (true, c)
    | some c => readSome stale iters c

/-- A client that was connected with `client` set takes as many packets as an `int` counts. -/
def handleReadTwo (client : Bool) (stale : Nat → Byte) (c : Client) : Option (Bool × Client) :=
  if !c.connected then some (false, c)
  else c.readSome stale (if client then 2 ^ 31 - 1 else 5)

def timedWait (c : Client) (i : Nat) : Client :=
  { c with futures := c.futures.modify i Future.timedWait }

end Client

end Jetpack.Rpc
