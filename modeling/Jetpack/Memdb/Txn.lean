import Jetpack.Library.Multimap
import Mathlib.Data.Finset.Basic
import Mathlib.Data.Prod.Lex
import Mathlib.Order.Lattice.Nat

/-! The staging area of a transaction of the in-memory database, and of one nested in it. Rows and
tables are named by their addresses. -/

namespace Jetpack.Memdb

open Multimap

variable {K V : Type} [LinearOrder K]

/-- The columns of the rows that are no key columns, and the table that each row is in. -/
structure Rows (V : Type) where
  column : Nat → Nat → V
  table : Nat → Option Nat

def Rows.update (rows : Rows V) (row col : Nat) (v : V) : Rows V :=
  { rows with column := Function.update rows.column row (Function.update (rows.column row) col v) }

theorem Rows.column_update_self (rows : Rows V) (row col : Nat) (v : V) :
    (rows.update row col v).column row = Function.update (rows.column row) col v :=
  Function.update_self row _ _

theorem Rows.column_update_of_ne (rows : Rows V) {row r : Nat} (h : r ≠ row) (col : Nat) (v : V) :
    (rows.update row col v).column r = rows.column r :=
  Function.update_of_ne h _ _

/-- The staged rows by table and key, those of one key in the order of their insertion. -/
structure Staged (keyOf : Nat → K) where
  entries : List ((Nat ×ₗ K) × Nat) := []
  keyed : ∀ e ∈ entries, (ofLex e.1).2 = keyOf e.2 := by simp
  sorted : Sorted entries := by simp [Sorted]

namespace Staged

variable {keyOf : Nat → K}

@[ext] theorem ext {s t : Staged keyOf} (h : s.entries = t.entries) : s = t := by
  cases s
  cases t
  simp only at h
  subst h
  rfl

def entry (keyOf : Nat → K) (tbl row : Nat) : (Nat ×ₗ K) × Nat := (toLex (tbl, keyOf row), row)

def insert (s : Staged keyOf) (tbl row : Nat) : Staged keyOf where
  entries := Multimap.insert (entry keyOf tbl row) s.entries
  keyed := by
    intro e he
    rcases mem_insert.mp he with rfl | he
    · rfl
    · exact s.keyed e he
  sorted := s.sorted.insert _

def erase (s : Staged keyOf) (tbl row : Nat) : Staged keyOf where
  entries := s.entries.erase (entry keyOf tbl row)
  keyed := fun e he => s.keyed e (List.mem_of_mem_erase he)
  sorted := s.sorted.sublist List.erase_sublist

end Staged

structure Txn2PL (keyOf : Nat → K) (V : Type) where
  reads : List (Nat × Nat) := []
  updates : List (Nat × (Nat × V)) := []
  inserts : Staged keyOf := {}
  removes : Finset (Nat × Nat) := ∅

def stagedValue (updates : List (Nat × (Nat × V))) (row col : Nat) : Option V :=
  (updates.find? fun u => u.1 == row && u.2.1 == col).map fun u => u.2.2

/-- The first staged value of a column gets replaced, or a new one is staged. -/
def stageValue (row col : Nat) (v : V) : List (Nat × (Nat × V)) → Option (List (Nat × (Nat × V)))
  | [] => none
  | u :: us =>
    if u.1 == row && u.2.1 == col then some ((row, (col, v)) :: us)
    else (stageValue row col v us).map (u :: ·)

def stageUpdate (updates : List (Nat × (Nat × V))) (row col : Nat) (v : V) :
    List (Nat × (Nat × V)) :=
  (stageValue row col v updates).getD (Multimap.insert (row, (col, v)) updates)

namespace Txn2PL

variable {keyOf : Nat → K}

/-- A row that is in no table is read where it is. -/
def readColumn (t : Txn2PL keyOf V) (rows : Rows V) (row col : Nat) : V × Txn2PL keyOf V :=
  match rows.table row with
  | none => (rows.column row col, t)
  | some _ =>
    match stagedValue t.updates row col with
    | some v => (v, t)
    | none => (rows.column row col, { t with reads := Multimap.insert (row, col) t.reads })

def writeColumn (t : Txn2PL keyOf V) (rows : Rows V) (row col : Nat) (v : V) :
    Rows V × Txn2PL keyOf V :=
  match rows.table row with
  | none => (rows.update row col v, t)
  | some _ => (rows, { t with updates := stageUpdate t.updates row col v })

/-- The row must not be in a table. -/
def insertRow (t : Txn2PL keyOf V) (rows : Rows V) (tbl row : Nat) : Option (Txn2PL keyOf V) :=
  match rows.table row with
  | none =>
    some { t with inserts := t.inserts.insert tbl row, removes := t.removes.erase (tbl, row) }
  | some _ => none

/-- A staged row is no longer staged, and any other is staged for removal. -/
def removeRow (t : Txn2PL keyOf V) (tbl row : Nat) : Txn2PL keyOf V :=
  let updates := t.updates.filter fun u => u.1 != row
  if t.inserts.entries.contains (Staged.entry keyOf tbl row) then
    { t with updates, inserts := t.inserts.erase tbl row }
  else { t with updates, removes := insert (tbl, row) t.removes }

end Txn2PL

/-- `own` is the staging area of the nested transaction, which records no reads. -/
structure TxnNested (keyOf : Nat → K) (V : Type) where
  base : Txn2PL keyOf V
  own : Txn2PL keyOf V := {}
  rowInserts : Finset Nat := ∅

namespace TxnNested

variable {keyOf : Nat → K}

def readColumn (n : TxnNested keyOf V) (rows : Rows V) (row col : Nat) : V × TxnNested keyOf V :=
  if row ∈ n.rowInserts then (rows.column row col, n)
  else
    match stagedValue n.own.updates row col with
    | some v => (v, n)
    | none =>
      let (v, base) := n.base.readColumn rows row col
      (v, { n with base })

def writeColumn (n : TxnNested keyOf V) (rows : Rows V) (row col : Nat) (v : V) :
    Rows V × TxnNested keyOf V :=
  if row ∈ n.rowInserts then (rows.update row col v, n)
  else (rows, { n with own := { n.own with updates := stageUpdate n.own.updates row col v } })

def insertRow (n : TxnNested keyOf V) (rows : Rows V) (tbl row : Nat) :
    Option (TxnNested keyOf V) := do
  let own ← n.own.insertRow rows tbl row
  return { n with own, rowInserts := insert row n.rowInserts }

def removeRow (n : TxnNested keyOf V) (tbl row : Nat) : TxnNested keyOf V :=
  { n with
    own := n.own.removeRow tbl row
    rowInserts :=
      if n.own.inserts.entries.contains (Staged.entry keyOf tbl row) then n.rowInserts.erase row
      else n.rowInserts }

/-- The staged rows, values and removals go to the base; `order` is that of the set of removals. -/
def commit (n : TxnNested keyOf V) (rows : Rows V) (order : List (Nat × Nat)) :
    Option (Rows V × Txn2PL keyOf V) := do
  let base ← n.own.inserts.entries.foldlM
    (fun base e => base.insertRow rows (ofLex e.1).1 e.2) n.base
  let (rows, base) := n.own.updates.foldl
    (fun (s : Rows V × Txn2PL keyOf V) u => s.2.writeColumn s.1 u.1 u.2.1 u.2.2) (rows, base)
  return (rows, order.foldl (fun base r => base.removeRow r.1 r.2) base)

def abort (n : TxnNested keyOf V) : Txn2PL keyOf V := n.base

end TxnNested

end Jetpack.Memdb
