import Jetpack.Library.Multimap
import Jetpack.Library.Ring

/-! The sorted map of the in-memory database and its snapshots. The maps of a group share one
multimap of versioned values and are linked in a ring. `none` stands for a `verify` that does not
hold and for the use of a pointer to no map; assertions are compiled out. -/

namespace Jetpack.Memdb

/-- Where a map lives: a variable of the program, the unnamed snapshot that `snapshot()` returns
while a range is built, or the snapshot that the range keeps. -/
inductive Addr where
  | object (i : Nat)
  | temporary
  | range
  deriving Repr, DecidableEq

/-- `removedAt` is `none` for the value -1 of the source. -/
structure VersionedValue (V : Type) where
  createdAt : Nat
  removedAt : Option Nat := none
  val : V
  deriving Repr, DecidableEq

namespace VersionedValue

variable {V : Type}

def validAt (vv : VersionedValue V) (v : Nat) : Bool :=
  vv.createdAt ≤ v && vv.removedAt.all fun r => v < r

def remove (vv : VersionedValue V) (v : Nat) : VersionedValue V := { vv with removedAt := some v }

end VersionedValue

structure Group (K V : Type) where
  data : List (K × VersionedValue V) := []
  writer : Option Addr := none
  gcInsertCounter : Nat := 0
  gcEraseCounter : Nat := 0

structure SortedMap where
  ver : Nat
  ssg : Nat
  prev : Addr
  next : Addr
  deriving Repr, DecidableEq

/-- The maps alive and the groups by number. `created` counts the maps ever made; it bounds the
rounds of the loop over a ring. -/
structure World (K V : Type) where
  maps : Addr → Option SortedMap := fun _ => none
  groups : Nat → Group K V := fun _ => {}
  nextGroup : Nat := 0
  created : Nat := 0

/-- The range queries, by the bounds of their iterators. -/
inductive Query (K : Type) where
  | all
  | query (key : K)
  | queryLt (key : K)
  | queryGt (key : K)
  | queryIn (low high : K)
  deriving Repr, DecidableEq

variable {K V : Type} [LinearOrder K] [DecidableEq V]

namespace Query

def first {α : Type} (q : Query K) (data : List (K × α)) : Nat :=
  match q with
  | .all => 0
  | .query key => Multimap.lowerBound key data
  | .queryLt _ => 0
  | .queryGt key => Multimap.upperBound key data
  | .queryIn low _ => Multimap.upperBound low data

def last {α : Type} (q : Query K) (data : List (K × α)) : Nat :=
  match q with
  | .all => data.length
  | .query key => Multimap.upperBound key data
  | .queryLt key => Multimap.lowerBound key data
  | .queryGt _ => data.length
  | .queryIn _ high => Multimap.lowerBound high data

end Query

namespace World

def setMap (w : World K V) (a : Addr) (m : Option SortedMap) : World K V :=
  { w with maps := Function.update w.maps a m }

def setGroup (w : World K V) (g : Nat) (group : Group K V) : World K V :=
  { w with groups := Function.update w.groups g group }

def setNext (w : World K V) (a b : Addr) : Option (World K V) := do
  let m ← w.maps a
  return w.setMap a (some { m with next := b })

def setPrev (w : World K V) (a b : Addr) : Option (World K V) := do
  let m ← w.maps a
  return w.setMap a (some { m with prev := b })

def writable (w : World K V) (a : Addr) : Option Bool := do
  let m ← w.maps a
  return (w.groups m.ssg).writer == some a

def hasReadonlySnapshot (w : World K V) (a : Addr) : Option Bool := do
  if ← w.writable a then
    let m ← w.maps a
    let prevWritable ← w.writable m.prev
    return !prevWritable
  else return true

def hasWritableSnapshot (w : World K V) (a : Addr) : Option Bool := do
  let m ← w.maps a
  return (w.groups m.ssg).writer.isSome

def newGroup (w : World K V) (a : Addr) : World K V :=
  { w with
    maps := Function.update w.maps a (some ⟨0, w.nextGroup, a, a⟩)
    groups := Function.update w.groups w.nextGroup { writer := some a }
    nextGroup := w.nextGroup + 1
    created := w.created + 1 }

/-- All entries get one version. -/
def insert (w : World K V) (a : Addr) (entries : List (K × V)) : Option (World K V) := do
  if ← w.writable a then
    let m ← w.maps a
    let group := w.groups m.ssg
    let ver := m.ver + 1
    let vvs := entries.map fun e => (e.1, { createdAt := ver, val := e.2 : VersionedValue V })
    return (w.setMap a (some { m with ver })).setGroup m.ssg
      { group with
        data := Multimap.insertAll group.data vvs
        gcInsertCounter := group.gcInsertCounter + entries.length }
  else none

/-- The erasing loop over the positions from `i` to `j`: visible entries that match are marked when
another member of the group may still read them, and matching entries are dropped otherwise. -/
def erase (w : World K V) (a : Addr) (i j : Nat) (matched : V → Bool) (counted : Bool) :
    Option (World K V) := do
  if ← w.writable a then
    let m ← w.maps a
    let group := w.groups m.ssg
    let ver := m.ver + 1
    let w' := w.setMap a (some { m with ver })
    if j < i then none
    else if ← w.hasReadonlySnapshot a then
      let hit := fun e : K × VersionedValue V => e.2.validAt m.ver && matched e.2.val
      let marked := ((Multimap.slice i j group.data).filter hit).length
      return w'.setGroup m.ssg
        { group with
          data := Multimap.mapRange (fun e => if hit e then (e.1, e.2.remove ver) else e) i j
            group.data
          gcEraseCounter := if counted then group.gcEraseCounter + marked else group.gcEraseCounter }
    else
      return w'.setGroup m.ssg
        { group with data := Multimap.filterRange (fun e => !matched e.2.val) i j group.data }
  else none

def eraseKey (w : World K V) (a : Addr) (key : K) : Option (World K V) := do
  let m ← w.maps a
  let data := (w.groups m.ssg).data
  w.erase a (Multimap.lowerBound key data) (Multimap.upperBound key data) (fun _ => true) true

def eraseKeyValue (w : World K V) (a : Addr) (key : K) (value : V) : Option (World K V) := do
  let m ← w.maps a
  let data := (w.groups m.ssg).data
  w.erase a (Multimap.lowerBound key data) (Multimap.upperBound key data) (fun v => v == value) true

def eraseRange (w : World K V) (a : Addr) (q : Query K) : Option (World K V) := do
  let m ← w.maps a
  let data := (w.groups m.ssg).data
  w.erase a (q.first data) (q.last data) (fun _ => true) false

/-- The loop of `gc_run` around the ring, with the versions found so far. -/
def gcLoop (w : World K V) (p : Addr) : Nat → Addr → Nat → Nat → Option (Nat × Nat)
  | 0, _, _, _ => none
  | n + 1, q, verLow, verHigh => do
    let m ← w.maps q
    let verLow := if m.ver < verLow then m.ver else verLow
    let verHigh := if m.ver > verHigh then m.ver else verHigh
    if m.next = p then return (verLow, verHigh) else gcLoop w p n m.next verLow verHigh

/-- `ver_high` starts at -1, which is the largest version. -/
def gcRun (w : World K V) (a : Addr) : Option (World K V) := do
  let m ← w.maps a
  let (verLow, verHigh) ← w.gcLoop a w.created a m.ver (2 ^ 64 - 1)
  let group := w.groups m.ssg
  return w.setGroup m.ssg
    { group with
      data := group.data.filter fun e =>
        !(e.2.createdAt > verHigh || e.2.removedAt.any fun r => r < verLow)
      gcInsertCounter := 0
      gcEraseCounter := 0 }

def makeMeSnapshotOf (w : World K V) (a src : Addr) : Option (World K V) := do
  let s ← w.maps src
  let w := { w.setMap a (some ⟨s.ver, s.ssg, s.prev, src⟩) with created := w.created + 1 }
  let w ← w.setNext s.prev a
  let w ← w.setPrev src a
  let group := w.groups s.ssg
  if group.writer = some src then
    return w.setGroup s.ssg { group with gcInsertCounter := 0, gcEraseCounter := 0 }
  else return w

/-- The map leaves the ring. The next member collects garbage if asked to. -/
def unlink (w : World K V) (a : Addr) (m : SortedMap) (autoGc : Bool) : Option (World K V) := do
  if m.prev ≠ a then
    let w ← w.setNext m.prev m.next
    let w ← w.setPrev m.next m.prev
    if autoGc then w.gcRun m.next else return w
  else return w

def destroyMe (w : World K V) (a : Addr) : Option (World K V) := do
  let m ← w.maps a
  let group := w.groups m.ssg
  let w ←
    if group.writer = some a then
      let gcCounter := group.gcInsertCounter + group.gcEraseCounter
      let autoGc := gcCounter ≥ 16 && gcCounter ≥ group.data.length / 2
      (w.setGroup m.ssg { group with writer := none }).unlink a m autoGc
    else w.unlink a m false
  return w.setMap a none

/-- The copy of a snapshot is a snapshot. -/
def copySnapshot (w : World K V) (a src : Addr) : Option (World K V) := do
  if ← w.writable src then none else w.makeMeSnapshotOf a src

/-- A range over the map at `src` keeps a copy of a snapshot that is destroyed once it is copied. -/
def openRange (w : World K V) (src : Addr) : Option (World K V) := do
  let w ← w.makeMeSnapshotOf .temporary src
  let w ← w.copySnapshot .range .temporary
  w.destroyMe .temporary

def closeRange (w : World K V) : Option (World K V) := w.destroyMe .range

def rangeEntries (w : World K V) (q : Query K) (reverse : Bool) : Option (List (K × V)) := do
  let s ← w.maps .range
  let data := (w.groups s.ssg).data
  if q.last data < q.first data then none
  else
    let visible := (Multimap.slice (q.first data) (q.last data) data).filterMap fun e =>
      if e.2.validAt s.ver then some (e.1, e.2.val) else none
    return if reverse then visible.reverse else visible

/-- `insert` of everything that the other map enumerates. -/
def insertRange (w : World K V) (a src : Addr) (q : Query K) : Option (World K V) := do
  let w ← w.openRange src
  let entries ← w.rangeEntries q false
  let w ← w.insert a entries
  w.closeRange

/-- The branch that lets the copy join the group of a map it could take over. -/
def joinRight (w : World K V) (a src : Addr) : Option (World K V) := do
  let s ← w.maps src
  let w := { w.setMap a (some ⟨s.ver, s.ssg, src, s.next⟩) with created := w.created + 1 }
  let w ← w.setNext src a
  w.setPrev s.next a

def copy (w : World K V) (a src : Addr) : Option (World K V) := do
  if ← w.writable src then
    let s ← w.maps src
    let n ← w.maps s.next
    if !(← w.hasWritableSnapshot src) && s.ver > n.ver then w.joinRight a src
    else (w.newGroup a).insertRange a src .all
  else w.makeMeSnapshotOf a src

def assign (w : World K V) (a src : Addr) : Option (World K V) := do
  let _ ← w.maps a
  if a = src then return w
  else
    let w ← w.destroyMe a
    if ← w.writable src then (w.newGroup a).insertRange a src .all
    else w.makeMeSnapshotOf a src

end World

/-- What a program does with its maps, which are named by numbers. -/
inductive Op (K V : Type) where
  | create (a : Nat)
  | insert (a : Nat) (entries : List (K × V))
  | insertRange (a src : Nat) (q : Query K)
  | eraseKey (a : Nat) (key : K)
  | eraseKeyValue (a : Nat) (key : K) (value : V)
  | eraseRange (a : Nat) (q : Query K)
  | snapshot (a src : Nat)
  | copy (a src : Nat)
  | assign (a src : Nat)
  | destroy (a : Nat)
  | gcRun (a : Nat)
  | enumerate (a : Nat) (q : Query K) (reverse : Bool)

namespace World

def unused (w : World K V) (a : Nat) : Option Unit :=
  match w.maps (.object a) with
  | none => some ()
  | some _ => none

def exec (w : World K V) : Op K V → Option (World K V × List (K × V))
  | .create a => do
    w.unused a
    return (w.newGroup (.object a), [])
  | .insert a entries => do
    let w ← w.insert (.object a) entries
    return (w, [])
  | .insertRange a src q => do
    let w ← w.insertRange (.object a) (.object src) q
    return (w, [])
  | .eraseKey a key => do
    let w ← w.eraseKey (.object a) key
    return (w, [])
  | .eraseKeyValue a key value => do
    let w ← w.eraseKeyValue (.object a) key value
    return (w, [])
  | .eraseRange a q => do
    let w ← w.openRange (.object a)
    let w ← w.eraseRange (.object a) q
    let w ← w.closeRange
    return (w, [])
  | .snapshot a src => do
    w.unused a
    let w ← w.makeMeSnapshotOf (.object a) (.object src)
    return (w, [])
  | .copy a src => do
    w.unused a
    let w ← w.copy (.object a) (.object src)
    return (w, [])
  | .assign a src => do
    let w ← w.assign (.object a) (.object src)
    return (w, [])
  | .destroy a => do
    let w ← w.destroyMe (.object a)
    return (w, [])
  | .gcRun a => do
    let w ← w.gcRun (.object a)
    return (w, [])
  | .enumerate a q reverse => do
    let w ← w.openRange (.object a)
    let entries ← w.rangeEntries q reverse
    let w ← w.closeRange
    return (w, entries)

def run (w : World K V) : List (Op K V) → Option (World K V × List (List (K × V)))
  | [] => some (w, [])
  | op :: ops => do
    let (w, out) ← w.exec op
    let (w, outs) ← run w ops
    return (w, out :: outs)

end World

end Jetpack.Memdb
