import Mathlib

/-! The byte queue of the RPC layer. A marshal is a list of chunks, each a window into a buffer; a
slice that is chopped off shares the buffers of the marshal it comes from. `none` stands for an
assertion that does not hold, and for the use of a null pointer or of a freed buffer. -/

namespace Jetpack.Rpc

abbrev Byte := BitVec 8

abbrev Addr := Nat × Nat

/-- The buffers by number. What a new buffer holds is whatever `ptr` gives. -/
structure Heap where
  next : Nat
  size : Nat → Nat
  ptr : Addr → Byte

def minSize : Nat := 8192

namespace Heap

def alloc (h : Heap) (n : Nat) : Heap :=
  { h with
    next := h.next + 1
    size := Function.update h.size h.next (max n minSize) }

def store (h : Heap) (data offset : Nat) (p : List Byte) : Heap :=
  { h with ptr := fun a =>
      if a.1 = data ∧ offset ≤ a.2 ∧ a.2 < offset + p.length then p.getD (a.2 - offset) 0
      else h.ptr a }

def load (h : Heap) (data offset n : Nat) : List Byte :=
  (List.range' offset n).map fun o => h.ptr (data, o)

/-- `write_bookmark`: one byte to each address. -/
def writeBookmark (h : Heap) : List Addr → List Byte → Heap
  | a :: as, b :: p => writeBookmark { h with ptr := Function.update h.ptr a b } as p
  | _, _ => h

end Heap

structure Chunk where
  data : Nat
  readIdx : Nat
  writeIdx : Nat
  deriving Repr, DecidableEq

namespace Chunk

/-- The assertion that every member function makes. -/
def asserted (h : Heap) (c : Chunk) : Option Chunk :=
  if c.writeIdx ≤ h.size c.data ∧ c.readIdx ≤ c.writeIdx then some c else none

def contentSize (h : Heap) (c : Chunk) : Option Nat := do
  let c ← c.asserted h
  return c.writeIdx - c.readIdx

def fullyWritten (h : Heap) (c : Chunk) : Option Bool := do
  let c ← c.asserted h
  return c.writeIdx == h.size c.data

def fullyRead (h : Heap) (c : Chunk) : Option Bool := do
  let c ← c.asserted h
  return c.readIdx == h.size c.data

def setBookmark (h : Heap) (c : Chunk) : Option (Addr × Chunk) := do
  let c ← c.asserted h
  let c' ← asserted h { c with writeIdx := c.writeIdx + 1 }
  return ((c.data, c.writeIdx), c')

def write (h : Heap) (c : Chunk) (p : List Byte) : Option (Nat × Heap × Chunk) := do
  let c ← c.asserted h
  let nWrite := min p.length (h.size c.data - c.writeIdx)
  let h' := h.store c.data c.writeIdx (p.take nWrite)
  let c' ← asserted h' { c with writeIdx := c.writeIdx + nWrite }
  return (nWrite, h', c')

def read (h : Heap) (c : Chunk) (n : Nat) : Option (List Byte × Chunk) := do
  let c ← c.asserted h
  let nRead := min n (c.writeIdx - c.readIdx)
  let c' ← asserted h { c with readIdx := c.readIdx + nRead }
  return (h.load c.data c.readIdx nRead, c')

def peek (h : Heap) (c : Chunk) (n : Nat) : Option (List Byte) := do
  let c ← c.asserted h
  return h.load c.data c.readIdx (min n (c.writeIdx - c.readIdx))

def discard (h : Heap) (c : Chunk) (n : Nat) : Option (Nat × Chunk) := do
  let c ← c.asserted h
  let nDiscard := min n (c.writeIdx - c.readIdx)
  let c' ← asserted h { c with readIdx := c.readIdx + nDiscard }
  return (nDiscard, c')

end Chunk

/-- The chunks from `head_` to `tail_`. `writeCnt` is a 32-bit counter. -/
structure Marshal where
  chunks : List Chunk := []
  writeCnt : BitVec 32 := 0
  contentSize : Nat := 0
  deriving Repr, DecidableEq

def newChunk (h : Heap) (p : List Byte) : Heap × Chunk :=
  ((h.alloc p.length).store h.next 0 p, ⟨h.next, 0, p.length⟩)

def contentSizeSlow (h : Heap) : List Chunk → Option Nat
  | [] => some 0
  | c :: cs => do
    let n ← c.contentSize h
    let rest ← contentSizeSlow h cs
    return n + rest

def writeChunks (h : Heap) (cs : List Chunk) (p : List Byte) : Option (Heap × List Chunk) :=
  match cs.getLast? with
  | none => some ((newChunk h p).1, [(newChunk h p).2])
  | some tail => do
    if ← tail.fullyWritten h then
      return ((newChunk h p).1, cs ++ [(newChunk h p).2])
    else
      let (nWrite, h', tail') ← tail.write h p
      if nWrite = 0 then none
      else if nWrite < p.length then
        let (h'', c) := newChunk h' (p.drop nWrite)
        return (h'', cs.dropLast ++ [tail', c])
      else return (h', cs.dropLast ++ [tail'])

/-- The loop of `read`. It stops at a chunk that is not fully read: then either enough was read or
the chunk has nothing more. -/
def readLoop (h : Heap) : List Chunk → Nat → Option (List Byte × List Chunk)
  | [], _ => some ([], [])
  | c :: cs, n =>
    if n = 0 then some ([], c :: cs)
    else do
      let size ← c.contentSize h
      if size = 0 then return ([], c :: cs)
      else
        let (bytes, c') ← c.read h n
        if ← c'.fullyRead h then
          let (rest, left) ← readLoop h cs (n - bytes.length)
          return (bytes ++ rest, left)
        else return (bytes, c' :: cs)

def peekLoop (h : Heap) : List Chunk → Nat → Option (List Byte)
  | [], _ => some []
  | c :: cs, n =>
    if n = 0 then some []
    else do
      let bytes ← c.peek h n
      if bytes = [] then return []
      else
        let rest ← peekLoop h cs (n - bytes.length)
        return bytes ++ rest

/-- The loop of `read_from_marshal` that copies pointers: the chunks that are shared, and those that
the other marshal keeps. -/
def shareLoop (h : Heap) : List Chunk → Nat → Option (List Chunk × List Chunk)
  | cs, 0 => some ([], cs)
  | [], _ + 1 => none
  | c :: cs, n + 1 => do
    let size ← c.contentSize h
    let chnk := if size > n + 1 then { c with writeIdx := c.writeIdx - (size - (n + 1)) } else c
    let cnt ← chnk.contentSize h
    if cnt = 0 then none
    else
      let (discarded, c') ← c.discard h cnt
      if discarded ≠ cnt then none
      else if ← c'.fullyRead h then
        let (shared, left) ← shareLoop h cs (n + 1 - cnt)
        return (chnk :: shared, left)
      else if cnt = n + 1 then return ([chnk], c' :: cs)
      else none

def bookmarkLoop (h : Heap) (cs : List Chunk) : Nat → Option (List Addr × Heap × List Chunk)
  | 0 => some ([], h, cs)
  | n + 1 =>
    match cs.getLast? with
    | none => do
      let (h', tail) := newChunk h []
      let (a, tail') ← tail.setBookmark h'
      let (as, h'', cs') ← bookmarkLoop h' [tail'] n
      return (a :: as, h'', cs')
    | some tail => do
      if ← tail.fullyWritten h then
        let (h', tail) := newChunk h []
        let (a, tail') ← tail.setBookmark h'
        let (as, h'', cs') ← bookmarkLoop h' (cs ++ [tail']) n
        return (a :: as, h'', cs')
      else
        let (a, tail') ← tail.setBookmark h
        let (as, h'', cs') ← bookmarkLoop h (cs.dropLast ++ [tail']) n
        return (a :: as, h'', cs')

namespace Marshal

/-- `content_size()`, with its comparison of the two sizes. -/
def contentSizeChecked (h : Heap) (m : Marshal) : Option Nat := do
  let slow ← contentSizeSlow h m.chunks
  if m.contentSize = slow then return slow else none

/-- The assertion on the head before and after reading: the marshal is empty or its first chunk is
not fully read. -/
def headAsserted (h : Heap) (m : Marshal) : Option Unit := do
  let size ← m.contentSizeChecked h
  if size = 0 then return ()
  else match m.chunks with
    | [] => none
    | c :: _ => do
      if ← c.fullyRead h then none else return ()

def write (h : Heap) (m : Marshal) (p : List Byte) : Option (Heap × Marshal) := do
  let (h', chunks) ← writeChunks h m.chunks p
  return (h',
    { chunks
      writeCnt := m.writeCnt + BitVec.ofNat 32 p.length
      contentSize := m.contentSize + p.length })

def read (h : Heap) (m : Marshal) (n : Nat) : Option (List Byte × Marshal) := do
  m.headAsserted h
  let (bytes, chunks) ← readLoop h m.chunks n
  if m.contentSize < bytes.length ∨ n < bytes.length then none
  else
    let m' := { m with chunks, contentSize := m.contentSize - bytes.length }
    m'.headAsserted h
    return (bytes, m')

def peek (h : Heap) (m : Marshal) (n : Nat) : Option (List Byte) := do
  m.headAsserted h
  let bytes ← peekLoop h m.chunks n
  if n < bytes.length then none
  else
    m.headAsserted h
    return bytes

/-- The branch of `read_from_marshal` that copies pointers. Returns this marshal and the other. -/
def share (h : Heap) (m other : Marshal) (n : Nat) : Option (Marshal × Marshal) := do
  let (shared, left) ← shareLoop h other.chunks n
  if other.contentSize < n then none
  else return (
    { chunks := m.chunks ++ shared
      writeCnt := m.writeCnt + BitVec.ofNat 32 n
      contentSize := m.contentSize + n },
    { other with chunks := left, contentSize := other.contentSize - n })

/-- The branch of `read_from_marshal` for a last chunk with room: bytes are copied there first, and
the rest is shared, the last chunk being fully written. -/
def copyThenShare (h : Heap) (m other : Marshal) (room n : Nat) :
    Option (Heap × Marshal × Marshal) := do
  let copyN := min room n
  let (buf, other') ← other.read h copyN
  if buf.length ≠ copyN then none
  else
    let (h', m') ← m.write h buf
    if copyN < n then
      let available ← other'.contentSizeChecked h'
      if available < n - copyN then none
      else
        let (m'', other'') ← m'.share h' other' (n - copyN)
        return (h', m'', other'')
    else return (h', m', other')

def transfer (h : Heap) (m other : Marshal) (n : Nat) : Option (Heap × Marshal × Marshal) :=
  match m.chunks.getLast? with
  | none => (m.share h other n).map fun r => (h, r)
  | some tail => do
    if ← tail.fullyWritten h then (m.share h other n).map fun r => (h, r)
    else m.copyThenShare h other (h.size tail.data - tail.writeIdx) n

def readFromMarshal (h : Heap) (m other : Marshal) (n : Nat) :
    Option (Heap × Marshal × Marshal) := do
  let available ← other.contentSizeChecked h
  if available < n then none
  else
    let (h', m', other') ← m.transfer h other n
    let _ ← m'.contentSizeChecked h'
    return (h', m', other')

def setBookmark (h : Heap) (m : Marshal) (n : Nat) : Option (List Addr × Heap × Marshal) :=
  if m.writeCnt ≠ 0 then none
  else do
    let (as, h', chunks) ← bookmarkLoop h m.chunks n
    let m' := { m with chunks, contentSize := m.contentSize + n }
    let _ ← m'.contentSizeChecked h'
    return (as, h', m')

def getAndResetWriteCnt (m : Marshal) : BitVec 32 × Marshal :=
  (m.writeCnt, { m with writeCnt := 0 })

end Marshal

/-- One marshal that is written and read, the slices chopped off it, and the bookmarks set in it. -/
structure World where
  heap : Heap
  source : Marshal := {}
  dests : List Marshal := []
  bookmarks : List (List Addr) := []

inductive Op where
  | write (p : List Byte)
  | read (n : Nat)
  | peek (n : Nat)
  | setBookmark (n : Nat)
  | writeBookmark (i : Nat) (p : List Byte)
  | getAndResetWriteCnt
  | chop (n : Nat)
  | readDest (i n : Nat)
  | peekDest (i n : Nat)
  deriving Repr, DecidableEq

namespace World

/-- A buffer lives as long as a chunk refers to it. -/
def referenced (w : World) (data : Nat) : Bool :=
  (w.source :: w.dests).any fun m => m.chunks.any fun c => c.data == data

def exec (w : World) : Op → Option (World × List Byte)
  | .write p => do
    let (heap, source) ← w.source.write w.heap p
    return ({ w with heap, source }, [])
  | .read n => do
    let (bytes, source) ← w.source.read w.heap n
    return ({ w with source }, bytes)
  | .peek n => do
    let bytes ← w.source.peek w.heap n
    return (w, bytes)
  | .setBookmark n => do
    let (bm, heap, source) ← w.source.setBookmark w.heap n
    return ({ w with heap, source, bookmarks := w.bookmarks ++ [bm] }, [])
  | .writeBookmark i p => do
    let bm ← w.bookmarks[i]?
    if p.length = bm.length ∧ bm.all fun a => w.referenced a.1 then
      return ({ w with heap := w.heap.writeBookmark bm p }, [])
    else none
  | .getAndResetWriteCnt => some ({ w with source := w.source.getAndResetWriteCnt.2 }, [])
  | .chop n => do
    let (heap, dest, source) ← Marshal.readFromMarshal w.heap {} w.source n
    return ({ w with heap, source, dests := w.dests ++ [dest] }, [])
  | .readDest i n => do
    let dest ← w.dests[i]?
    let (bytes, dest) ← dest.read w.heap n
    return ({ w with dests := w.dests.set i dest }, bytes)
  | .peekDest i n => do
    let dest ← w.dests[i]?
    let bytes ← dest.peek w.heap n
    return (w, bytes)

def run (w : World) : List Op → Option (World × List (List Byte))
  | [] => some (w, [])
  | op :: ops => do
    let (w', bytes) ← w.exec op
    let (w'', outs) ← run w' ops
    return (w'', bytes :: outs)

end World

end Jetpack.Rpc
