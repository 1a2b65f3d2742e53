import Jetpack.Library.LittleEndian
import Jetpack.Library.Packing
import Jetpack.Rows.Schema

/-! The storage of a row: a fixed part, and the strings either packed into one buffer or, after the
first update that resizes one, each on its own. `none` is a failed `verify`, an exception, or an
access outside a buffer. -/

namespace Jetpack.Rows

open Packing

abbrev Byte := BitVec 8

inductive Value
  | unknown
  | i32 (v : BitVec 32)
  | i64 (v : BitVec 64)
  | double (bits : BitVec 64)
  | str (s : List Byte)
deriving DecidableEq

namespace Value

def kind : Value → Kind
  | unknown => .unknown
  | i32 _ => .i32
  | i64 _ => .i64
  | double _ => .double
  | str _ => .str

def fixedBytes : Value → List Byte
  | i32 v => LittleEndian.toBytes 4 v.toNat
  | i64 v => LittleEndian.toBytes 8 v.toNat
  | double bits => LittleEndian.toBytes 8 bits.toNat
  | str _ | unknown => []

def str? : Value → Option (List Byte)
  | str s => some s
  | _ => none

def load : Kind → List Byte → Option Value
  | .i32, bs => some (i32 (BitVec.ofInt 32 (LittleEndian.ofBytes bs)))
  | .i64, bs => some (i64 (BitVec.ofInt 64 (LittleEndian.ofBytes bs)))
  | .double, bs => some (double (BitVec.ofInt 64 (LittleEndian.ofBytes bs)))
  | .str, bs => some (str bs)
  | .unknown, _ => none

end Value

inductive VarPart
  | dense (part : List Byte) (idx : List Nat)
  | sparse (strs : List (List Byte))

structure Row where
  schema : Schema
  fixedPart : List Byte
  var : VarPart

/-- `data` is the buffer from the pointer on; `len` is an `int`. -/
structure Blob where
  data : List Byte
  len : Int

def Blob.bytes (b : Blob) : Option (List Byte) :=
  if 0 ≤ b.len ∧ b.len.toNat ≤ b.data.length then some (b.data.take b.len.toNat) else none

def toInt32 (n : Nat) : Int := (BitVec.ofNat 32 n).toInt

/-- Where the string `i` of a dense row begins and where it stops. -/
def segment (idx : List Nat) (i : Nat) : Option (Nat × Nat) :=
  match start idx i, idx[i]? with
  | some lo, some hi => some (lo, hi)
  | _, _ => none

def denseBlob (part : List Byte) (s : Nat × Nat) : Blob := ⟨part.drop s.1, s.2 - s.1⟩

/-- An `int` size from 2^31 on is negative or too small, so that the allocation throws or the
writes that follow leave the buffer. -/
def newChars (n : Nat) : Option (List Byte) :=
  if n < 2 ^ 31 then some (List.replicate n 0) else none

/-- The first pass of `create` over the values. -/
def firstPass (buf : List Byte) (fixedPos varPartSize : Nat) :
    List Value → Option (List Byte × Nat × Nat)
  | [] => some (buf, fixedPos, varPartSize)
  | v :: vs =>
    match v with
    | .unknown => none
    | .str s => firstPass buf fixedPos (varPartSize + s.length) vs
    | .i32 _ | .i64 _ | .double _ =>
      match writeAt buf fixedPos v.fixedBytes with
      | none => none
      | some buf => firstPass buf (fixedPos + v.kind.size) varPartSize vs

/-- Strings copied one behind the other, and where each of them stops. -/
def fillVar (part : List Byte) (idx : List Nat) (pos : Nat) :
    List (List Byte) → Option (List Byte × List Nat × Nat)
  | [] => some (part, idx, pos)
  | s :: ss =>
    match writeAt part pos s with
    | none => none
    | some part => fillVar part (idx ++ [pos + s.length]) (pos + s.length) ss

def hiddenEnds (idx : List Nat) : List Kind → Option (List Nat)
  | [] => some idx
  | kind :: kinds =>
    if kind = .str then
      match idx.getLast? with
      | none => none
      | some stop => hiddenEnds (idx ++ [stop]) kinds
    else hiddenEnds idx kinds

def strings (vals : List Value) : List (List Byte) := vals.filterMap Value.str?

namespace Row

def create (schema : Schema) (values : List Value) : Option Row := do
  guard (values.length = schema.columnsCount)
  let buf ← newChars schema.fixedPartSize
  let (fixedPart, fixedPos, varPartSize) ← firstPass buf 0 0 values
  let hidden := schema.types.drop values.length
  guard (fixedPos + fixedSize hidden = schema.fixedPartSize)
  if 0 < schema.varSizeCols then
    let part ← newChars varPartSize
    let (part, idx, varPos) ← fillVar part [] 0 (strings values)
    guard (varPartSize = varPos)
    let idx ← hiddenEnds idx hidden
    guard (idx.length = schema.varSizeCols)
    return ⟨schema, fixedPart, .dense part idx⟩
  else return ⟨schema, fixedPart, .dense [] []⟩

def getBlob (r : Row) (c : Nat) : Option Blob :=
  match r.schema.colInfo[c]? with
  | none => none
  | some info =>
    match info.type with
    | .unknown => none
    | .i32 | .i64 | .double => some ⟨r.fixedPart.drop info.slot, info.type.size⟩
    | .str =>
      match r.var with
      | .dense part idx => (segment idx info.slot).map (denseBlob part)
      | .sparse strs => strs[info.slot]?.map fun s => ⟨s, toInt32 s.length⟩

def getColumn (r : Row) (c : Nat) : Option Value := do
  let info ← r.schema.colInfo[c]?
  let b ← r.getBlob c
  let bs ← b.bytes
  Value.load info.type bs

def makeSparse (r : Row) : Option Row :=
  match r.var with
  | .sparse _ => some r
  | .dense part idx =>
    ((List.range r.schema.varSizeCols).mapM fun i =>
      (segment idx i).bind fun s => (denseBlob part s).bytes).map
      fun strs => { r with var := .sparse strs }

def updateFixed (r : Row) (info : ColumnInfo) (bs : List Byte) : Option Row :=
  if (r.fixedPart.drop info.slot).take bs.length = bs then some r
  else (writeAt r.fixedPart info.slot bs).map fun part => { r with fixedPart := part }

def assignSparse (r : Row) (i : Nat) (v : List Byte) : Option Row :=
  match r.var with
  | .dense _ _ => none
  | .sparse strs =>
    if i < strs.length then some { r with var := .sparse (strs.set i v) } else none

def updateStr (r : Row) (c : Nat) (v : List Byte) : Option Row :=
  match r.schema.colInfo[c]? with
  | none => none
  | some info =>
    if info.type ≠ .str then none
    else
      match r.var with
      | .sparse strs =>
        if strs[info.slot]? = some v then some r else r.assignSparse info.slot v
      | .dense part idx =>
        match segment idx info.slot with
        | none => none
        | some s =>
          match (denseBlob part s).bytes with
          | none => none
          | some old =>
            if old = v then some r
            else if old.length = v.length then
              -- in place, at the blob's pointer
              (writeAt part s.1 v).map fun part => { r with var := .dense part idx }
            else r.makeSparse.bind fun r => r.assignSparse info.slot v

def update (r : Row) (c : Nat) (v : Value) : Option Row :=
  match v with
  | .unknown => none
  | .str s => r.updateStr c s
  | .i32 _ | .i64 _ | .double _ =>
    match r.schema.colInfo[c]? with
    | none => none
    | some info => if info.type = v.kind then r.updateFixed info v.fixedBytes else none

/-- Always a dense row; the columns that it walks over are the visible ones. -/
def copy (r : Row) : Option Row := do
  let cols := (r.schema.colInfo.take r.schema.columnsCount).filter fun info => info.type = .str
  let blobs ← cols.mapM fun info => (r.getBlob info.id).bind Blob.bytes
  let part ← newChars blobs.flatten.length
  let (part, idx, _) ← fillVar part [] 0 blobs
  return ⟨r.schema, r.fixedPart, .dense part idx⟩

end Row

def fixedBytes (vals : List Value) : List Byte := vals.flatMap Value.fixedBytes

theorem fixedBytes_append (l m : List Value) : fixedBytes (l ++ m) = fixedBytes l ++ fixedBytes m :=
  List.flatMap_append

theorem fixedBytes_cons (v : Value) (l : List Value) :
    fixedBytes (v :: l) = v.fixedBytes ++ fixedBytes l := List.flatMap_cons

theorem strings_append (l m : List Value) : strings (l ++ m) = strings l ++ strings m :=
  List.filterMap_append

@[simp]
theorem strings_cons_str (s : List Byte) (l : List Value) :
    strings (.str s :: l) = s :: strings l := rfl

theorem strings_cons_of_ne {v : Value} (h : v.kind ≠ .str) (l : List Value) :
    strings (v :: l) = strings l := by
  cases v with
  | str s => exact absurd rfl h
  | _ => rfl

theorem Value.length_fixedBytes (v : Value) : v.fixedBytes.length = v.kind.size := by
  cases v <;> simp [fixedBytes, kind, Kind.size]

theorem length_fixedBytes (vals : List Value) :
    (fixedBytes vals).length = fixedSize (vals.map Value.kind) := by
  induction vals with
  | nil => rfl
  | cons v vals ih =>
    rw [fixedBytes_cons, List.length_append, ih, v.length_fixedBytes]
    rfl

theorem Value.kind_eq_str {v : Value} (h : v.kind = .str) : ∃ s, v = .str s := by
  cases v with
  | str s => exact ⟨s, rfl⟩
  | _ => cases h

theorem length_strings (vals : List Value) :
    (strings vals).length = strCount (vals.map Value.kind) := by
  induction vals with
  | nil => rfl
  | cons v vals ih =>
    by_cases hstr : v.kind = .str
    · obtain ⟨s, rfl⟩ := Value.kind_eq_str hstr
      rw [strings_cons_str, List.length_cons, ih]
      exact List.count_cons_self.symm
    · rw [strings_cons_of_ne hstr, ih]
      exact (List.count_cons_of_ne hstr).symm

theorem ofInt_ofBytes {w n : Nat} (hw : 256 ^ n = 2 ^ w) (v : BitVec w) :
    BitVec.ofInt w (LittleEndian.ofBytes (LittleEndian.toBytes n v.toNat)) = v := by
  have hlt : v.toNat < 256 ^ n := hw ▸ v.isLt
  have hmod : (v.toNat : Int) % 256 ^ n = v.toNat := by
    exact_mod_cast congrArg Nat.cast (Nat.mod_eq_of_lt hlt)
  rw [LittleEndian.ofBytes_toBytes, hmod]
  simp

theorem Value.load_fixedBytes {v : Value} (hu : v.kind ≠ .unknown) (hs : v.kind ≠ .str) :
    load v.kind v.fixedBytes = some v := by
  cases v with
  | unknown => exact absurd rfl hu
  | str s => exact absurd rfl hs
  | i32 v => exact congrArg (fun x => some (i32 x)) (ofInt_ofBytes (n := 4) (by norm_num) v)
  | i64 v => exact congrArg (fun x => some (i64 x)) (ofInt_ofBytes (n := 8) (by norm_num) v)
  | double v => exact congrArg (fun x => some (double x)) (ofInt_ofBytes (n := 8) (by norm_num) v)

end Jetpack.Rows
