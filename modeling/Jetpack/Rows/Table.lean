import Jetpack.Rows.Keys
import Jetpack.Rows.Creation

/-! `SortedTable`: rows filed under keys that are references into the rows' own buffers. -/

namespace Jetpack.Rows

open Comparing

/-- A buffer of a row object. The dense one is made once; a string of a sparse row may lie
elsewhere after each assignment. -/
inductive Buffer
  | fixed
  | dense
  | sparse (i times : Nat)
deriving DecidableEq

structure BlobRef where
  buffer : Buffer
  off : Nat
  len : Int
deriving DecidableEq

/-- A row object: `times` counts the assignments of each sparse string, and `inTable` is whether
`tbl_` is the table. -/
structure Object where
  row : Row
  times : List Nat := []
  inTable : Bool := false

namespace Object

/-- What a buffer holds; `none` once it has been released. -/
def buffer (o : Object) : Buffer → Option (List Byte)
  | .fixed => some o.row.fixedPart
  | .dense =>
    match o.row.var with
    | .dense part _ => some part
    | .sparse _ => none
  | .sparse i times =>
    match o.row.var with
    | .dense _ _ => none
    | .sparse strs => if o.times[i]? = some times then strs[i]? else none

def read (o : Object) (b : BlobRef) : Option (List Byte) :=
  (o.buffer b.buffer).bind fun data => Blob.bytes ⟨data.drop b.off, b.len⟩

/-- `get_blob`, with the buffer that the pointer leads to. -/
def getBlobRef (o : Object) (c : Nat) : Option BlobRef :=
  match o.row.schema.colInfo[c]? with
  | none => none
  | some info =>
    match info.type with
    | .unknown => none
    | .i32 | .i64 | .double => some ⟨.fixed, info.slot, info.type.size⟩
    | .str =>
      match o.row.var with
      | .dense _ idx => (segment idx info.slot).map fun s => ⟨.dense, s.1, s.2 - s.1⟩
      | .sparse strs =>
        match strs[info.slot]?, o.times[info.slot]? with
        | some s, some times => some ⟨.sparse info.slot times, 0, toInt32 s.length⟩
        | _, _ => none

def getKey (o : Object) : Option (List BlobRef) := o.row.schema.keyColsId.mapM o.getBlobRef

def readKey (o : Object) (key : List BlobRef) : Option (List (List Byte)) := key.mapM o.read

/-- The first test of `update`: the bytes are those already stored. -/
def unchanged (o : Object) (info : ColumnInfo) (v : Value) : Bool :=
  match v with
  | .str s =>
    match o.row.var with
    | .sparse strs => strs[info.slot]? = some s
    | .dense part idx =>
      (segment idx info.slot).bind (fun seg => (denseBlob part seg).bytes) = some s
  | v => (o.row.fixedPart.drop info.slot).take v.fixedBytes.length = v.fixedBytes

/-- The storing part of `update`. -/
def write (o : Object) (info : ColumnInfo) (c : Nat) (v : Value) : Option Object :=
  (o.row.update c v).map fun row =>
    { o with
      row := row
      times :=
        match o.row.var, row.var with
        | .dense _ _, .sparse strs => strs.map fun _ => 0
        | .sparse _, .sparse _ => if info.type = .str then o.times.modify info.slot (· + 1) else o.times
        | _, _ => o.times }

end Object

structure Entry where
  key : List BlobRef
  row : Nat

structure SortedTable where
  schema : Schema
  objects : List Object := []
  rows : List Entry := []

namespace SortedTable

def keyKinds (t : SortedTable) : List Kind :=
  t.schema.keyColsId.filterMap fun c => t.schema.colInfo[c]?.map ColumnInfo.type

/-- What an entry's key refers to at present. -/
def keyOf (t : SortedTable) (e : Entry) : Option (List (List Byte)) :=
  t.objects[e.row]?.bind fun o => o.readKey e.key

/-- The entries with their keys, as comparisons see them; a released buffer cannot be read. -/
def view (t : SortedTable) : Option (List (List (List Byte) × Entry)) :=
  t.rows.mapM fun e => (t.keyOf e).map fun key => (key, e)

def lessEntry (t : SortedTable) (a b : List (List Byte) × Entry) : Bool := less t.keyKinds a.1 b.1

def probe (key : List (List Byte)) : List (List Byte) × Entry := (key, ⟨[], 0⟩)

def insert (t : SortedTable) (i : Nat) : Option SortedTable := do
  let o ← t.objects[i]?
  let key ← o.getKey
  let bytes ← o.readKey key
  guard (o.inTable = false)
  let v ← t.view
  return { t with
    objects := t.objects.set i { o with inTable := true }
    rows := (insertAfter t.lessEntry (bytes, ⟨key, i⟩) v).map Prod.snd }

/-- `remove(Row*)`: by the row's present key, and only that row. -/
def removeRow (t : SortedTable) (i : Nat) : Option SortedTable := do
  let o ← t.objects[i]?
  let key ← o.getKey
  let bytes ← o.readKey key
  let v ← t.view
  let found := (range t.lessEntry (probe bytes) v).map Prod.snd
  if found.any (fun e => e.row = i) then
    return { t with
      objects := t.objects.set i { o with inTable := false }
      rows := (before t.lessEntry (probe bytes) v).map Prod.snd ++
        (found.eraseP (fun e => e.row = i) ++ (after t.lessEntry (probe bytes) v).map Prod.snd) }
  else return t

/-- `remove` of a key: the whole range goes, and the rows are not told. -/
def removeKey (t : SortedTable) (key : List (List Byte)) : Option SortedTable := do
  guard (key.length = t.schema.keyColsId.length)
  let v ← t.view
  return { t with
    rows := (before t.lessEntry (probe key) v ++ after t.lessEntry (probe key) v).map Prod.snd }

/-- `remove` of a cursor: the entries from its begin up to its end. -/
def removeCursor (t : SortedTable) (first last : Nat) : Option SortedTable :=
  if first ≤ last ∧ last ≤ t.rows.length then
    some { t with rows := t.rows.take first ++ t.rows.drop last }
  else none

def query (t : SortedTable) (key : List (List Byte)) : Option (List Nat) := do
  guard (key.length = t.schema.keyColsId.length)
  let v ← t.view
  return (range t.lessEntry (probe key) v).map fun e => e.2.row

def write (t : SortedTable) (i : Nat) (info : ColumnInfo) (c : Nat) (v : Value) :
    Option SortedTable := do
  let o ← t.objects[i]?
  let o' ← o.write info c v
  return { t with objects := t.objects.set i o' }

/-- `Row::update` and `update_fixed`. -/
def update (t : SortedTable) (i c : Nat) (v : Value) : Option SortedTable := do
  let o ← t.objects[i]?
  let info ← o.row.schema.colInfo[c]?
  guard (info.type = v.kind)
  if o.unchanged info v then return t
  else if info.indexed && o.inTable then
    let t ← t.removeRow i
    let t ← t.write i info c v
    t.insert i
  else t.write i info c v

inductive Op
  | create (values : List Value)
  | insert (i : Nat)
  | remove (i : Nat)
  | removeKey (key : List (List Byte))
  | removeCursor (first last : Nat)
  | update (i c : Nat) (v : Value)

def step (t : SortedTable) : Op → Option SortedTable
  | .create values => (Row.create t.schema values).map fun r =>
      { t with objects := t.objects ++ [{ row := r }] }
  | .insert i => t.insert i
  | .remove i => t.removeRow i
  | .removeKey key => t.removeKey key
  | .removeCursor first last => t.removeCursor first last
  | .update i c v => t.update i c v

/-- Every filed row is filed under a reference to its present key, its present key finds it, and
the entries stand in the order of their keys. -/
structure Coherent (t : SortedTable) : Prop where
  filed : ∀ e ∈ t.rows, ∃ o key, t.objects[e.row]? = some o ∧ o.getKey = some e.key ∧
    o.readKey e.key = some key ∧ ∃ found, t.query key = some found ∧ e.row ∈ found
  sorted : ∃ v, t.view = some v ∧ Sorted t.lessEntry v

end SortedTable

end Jetpack.Rows
