import Jetpack.Memdb.Updates

/-! A transaction nested in another reads and leaves what the calls made directly would. -/

namespace Jetpack.Memdb

open Multimap

variable {K V : Type} [LinearOrder K]

inductive TxnOp (V : Type) where
  | readColumn (row col : Nat)
  | writeColumn (row col : Nat) (v : V)
  | insertRow (tbl row : Nat)
  | removeRow (tbl row : Nat)

def TxnOp.row : TxnOp V → Nat
  | .readColumn row _ | .writeColumn row _ _ | .insertRow _ row | .removeRow _ row => row

def Txn2PL.exec {keyOf : Nat → K} (s : Rows V × Txn2PL keyOf V) :
    TxnOp V → Option ((Rows V × Txn2PL keyOf V) × Option V)
  | .readColumn row col =>
    some ((s.1, (s.2.readColumn s.1 row col).2), some (s.2.readColumn s.1 row col).1)
  | .writeColumn row col v => some (s.2.writeColumn s.1 row col v, none)
  | .insertRow tbl row => (s.2.insertRow s.1 tbl row).map fun t => ((s.1, t), none)
  | .removeRow tbl row => some ((s.1, s.2.removeRow tbl row), none)

def TxnNested.exec {keyOf : Nat → K} (s : Rows V × TxnNested keyOf V) :
    TxnOp V → Option ((Rows V × TxnNested keyOf V) × Option V)
  | .readColumn row col =>
    some ((s.1, (s.2.readColumn s.1 row col).2), some (s.2.readColumn s.1 row col).1)
  | .writeColumn row col v => some (s.2.writeColumn s.1 row col v, none)
  | .insertRow tbl row => (s.2.insertRow s.1 tbl row).map fun n => ((s.1, n), none)
  | .removeRow tbl row => some ((s.1, s.2.removeRow tbl row), none)

def runOps {σ : Type} (exec : σ → TxnOp V → Option (σ × Option V)) (s : σ) :
    List (TxnOp V) → Option (σ × List (Option V))
  | [] => some (s, [])
  | op :: ops =>
    (exec s op).bind fun x => (runOps exec x.1 ops).map fun y => (y.1, x.2 :: y.2)

/-- The rows removed by a call, those inserted, and those written before they are inserted. -/
def TxnOp.gone (op : TxnOp V) (gone : List Nat) : List Nat :=
  match op with
  | .removeRow _ row => row :: gone
  | _ => gone

def TxnOp.inserted (op : TxnOp V) (inserted : List Nat) : List Nat :=
  match op with
  | .insertRow _ row => row :: inserted
  | _ => inserted

def TxnOp.written (op : TxnOp V) (inserted written : List Nat) : List Nat :=
  match op with
  | .writeColumn row _ _ => if inserted.contains row then written else row :: written
  | _ => written

def goneAfter (gone : List Nat) (ops : List (TxnOp V)) : List Nat :=
  ops.foldl (fun gone op => op.gone gone) gone

theorem mem_goneAfter {gone : List Nat} {ops : List (TxnOp V)} {r : Nat}
    (h : r ∈ goneAfter gone ops) : r ∈ gone ∨ ∃ tbl, .removeRow tbl r ∈ ops := by
  induction ops generalizing gone with
  | nil => exact .inl h
  | cons op ops ih =>
    rcases ih h with h | ⟨tbl, h⟩
    · cases op with
      | removeRow tbl row =>
        rcases List.mem_cons.mp h with rfl | h
        · exact .inr ⟨tbl, List.mem_cons_self⟩
        · exact .inl h
      | readColumn | writeColumn | insertRow => exact .inl h
    · exact .inr ⟨tbl, List.mem_cons_of_mem op h⟩

def removedOnce (gone : List Nat) : List (TxnOp V) → Bool
  | [] => true
  | op :: ops => !gone.contains op.row && removedOnce (op.gone gone) ops

def TxnOp.insertsNone (op : TxnOp V) (written : List Nat) : Bool :=
  match op with
  | .insertRow _ row => !written.contains row
  | _ => true

def insertedFirst (inserted written : List Nat) : List (TxnOp V) → Bool
  | [] => true
  | op :: ops =>
    op.insertsNone written &&
      insertedFirst (op.inserted inserted) (op.written inserted written) ops

/-- What a transaction that ran by itself has staged: values only of rows in tables, and none of the
rows in `gone`, which hold the removed ones. -/
structure Txn2PL.Valid {keyOf : Nat → K} (t : Txn2PL keyOf V) (table : Nat → Option Nat)
    (gone : List Nat) : Prop where
  sorted : Sorted t.updates
  loose : ∀ r, table r = none → values r t.updates = []
  dropped : ∀ r ∈ gone, values r t.updates = []
  removed : ∀ p ∈ t.removes, p.2 ∈ gone

namespace Txn2PL.Valid

variable {keyOf : Nat → K} {rows : Rows V} {t : Txn2PL keyOf V} {gone : List Nat}

theorem init (table : Nat → Option Nat) : ({} : Txn2PL keyOf V).Valid table [] :=
  ⟨List.Pairwise.nil, fun _ _ => rfl, fun _ _ => rfl, by simp⟩

theorem exec (h : t.Valid rows.table gone) {op : TxnOp V} (hop : op.row ∉ gone)
    {s : Rows V × Txn2PL keyOf V} {out : Option V}
    (he : Txn2PL.exec (rows, t) op = some (s, out)) :
    s.2.Valid s.1.table (op.gone gone) ∧ s.1.table = rows.table := by
  cases op with
  | readColumn row col =>
    obtain ⟨rfl, -⟩ := Prod.mk.inj (Option.some.inj he)
    refine ⟨?_, rfl⟩
    simp only [Txn2PL.readColumn, TxnOp.gone]
    split
    · exact h
    · split
      · exact h
      · exact ⟨h.sorted, h.loose, h.dropped, h.removed⟩
  | writeColumn row col v =>
    obtain ⟨rfl, -⟩ := Prod.mk.inj (Option.some.inj he)
    simp only [Txn2PL.writeColumn, TxnOp.gone]
    split
    · exact ⟨⟨h.sorted, h.loose, h.dropped, h.removed⟩, rfl⟩
    · next k htable =>
      have hvalues := values_stageUpdate h.sorted row col v
      refine ⟨⟨sorted_stageUpdate h.sorted row col v, ?_, ?_, h.removed⟩, rfl⟩
      · intro r hr
        have hne : r ≠ row := by
          rintro rfl
          rw [htable] at hr
          cases hr
        rw [hvalues, if_neg hne]
        exact h.loose r hr
      · intro r hr
        have hne : r ≠ row := by
          rintro rfl
          exact hop hr
        rw [hvalues, if_neg hne]
        exact h.dropped r hr
  | insertRow tbl row =>
    obtain ⟨t', ht, he⟩ := Option.map_eq_some_iff.mp he
    obtain ⟨rfl, -⟩ := Prod.mk.inj he
    simp only [Txn2PL.insertRow] at ht
    split at ht
    · obtain rfl := Option.some.inj ht
      exact ⟨⟨h.sorted, h.loose, h.dropped, fun p hp => h.removed p (Finset.mem_of_mem_erase hp)⟩,
        rfl⟩
    · cases ht
  | removeRow tbl row =>
    obtain ⟨rfl, -⟩ := Prod.mk.inj (Option.some.inj he)
    have hsorted : Sorted (t.updates.filter fun u => u.1 != row) :=
      h.sorted.sublist List.filter_sublist
    have hloose : ∀ r, rows.table r = none →
        values r (t.updates.filter fun u => u.1 != row) = [] := by
      intro r hr
      rw [values_filter_ne, h.loose r hr, ite_self]
    have hdropped : ∀ r ∈ row :: gone, values r (t.updates.filter fun u => u.1 != row) = [] := by
      intro r hr
      rw [values_filter_ne]
      split
      · rfl
      · next hne => exact h.dropped r ((List.mem_cons.mp hr).resolve_left hne)
    simp only [Txn2PL.removeRow, TxnOp.gone]
    split
    · exact ⟨⟨hsorted, hloose, hdropped, fun p hp => List.mem_cons_of_mem row (h.removed p hp)⟩,
        trivial⟩
    · refine ⟨⟨hsorted, hloose, hdropped, ?_⟩, trivial⟩
      intro p hp
      rcases Finset.mem_insert.mp hp with rfl | hp
      · exact List.mem_cons_self
      · exact List.mem_cons_of_mem row (h.removed p hp)

theorem run (h : t.Valid rows.table gone) {ops : List (TxnOp V)} {later : List (TxnOp V)}
    (hops : removedOnce gone (ops ++ later) = true) {s : Rows V × Txn2PL keyOf V}
    {outs : List (Option V)} (he : runOps Txn2PL.exec (rows, t) ops = some (s, outs)) :
    s.2.Valid s.1.table (goneAfter gone ops) ∧ removedOnce (goneAfter gone ops) later = true := by
  induction ops generalizing rows t gone outs with
  | nil =>
    obtain ⟨rfl, -⟩ := Prod.mk.inj (Option.some.inj he)
    exact ⟨h, hops⟩
  | cons op ops ih =>
    obtain ⟨⟨s₁, out⟩, e₁, he⟩ := Option.bind_eq_some_iff.mp he
    obtain ⟨⟨s₂, outs₂⟩, e₂, he⟩ := Option.map_eq_some_iff.mp he
    obtain ⟨rfl, -⟩ := Prod.mk.inj he
    simp only [List.cons_append, removedOnce, Bool.and_eq_true, Bool.not_eq_true',
      List.contains_eq_mem, decide_eq_false_iff_not] at hops
    exact ih (h.exec hops.1 e₁).1 hops.2 e₂

end Txn2PL.Valid

/-- The values staged by the calls made directly (`d`) and by the nested transaction (`s`). Columns
are compared through the values that the nested transaction holds back. -/
structure MirrorValues {keyOf : Nat → K} (table : Nat → Option Nat) (base : Txn2PL keyOf V)
    (gone inserted written : List Nat) (d : Rows V × Txn2PL keyOf V)
    (s : Rows V × TxnNested keyOf V) : Prop where
  tableD : d.1.table = table
  tableN : s.1.table = table
  updates : s.2.base.updates = base.updates
  reads : d.2.reads = s.2.base.reads
  sortedD : Sorted d.2.updates
  sorted : Sorted s.2.own.updates
  nodup : ∀ r, ((values r s.2.own.updates).map Prod.fst).Nodup
  inTable : ∀ r, table r ≠ none → d.1.column r = s.1.column r
  loose : ∀ r, r ∉ gone → table r = none →
    d.1.column r = overlay (s.1.column r) (values r s.2.own.updates)
  stored : ∀ r, r ∉ gone → table r ≠ none →
    values r d.2.updates = stageAll (values r base.updates) (values r s.2.own.updates)
  unstaged : ∀ r, table r = none → values r d.2.updates = []
  dropped : ∀ r ∈ gone, values r d.2.updates = [] ∧ values r s.2.own.updates = [] ∧
    ((∃ t, (t, r) ∈ s.2.own.removes) ∨ values r base.updates = [])
  rowInserts : ∀ r, r ∉ gone → (r ∈ s.2.rowInserts ↔ r ∈ inserted)
  insertedLoose : ∀ r ∈ inserted, table r = none
  pending : ∀ r, r ∉ gone → table r = none → values r s.2.own.updates ≠ [] →
    r ∈ written ∧ r ∉ inserted

/-- The rows staged by both. A row that is removed is taken from the base by the commit only. -/
structure MirrorStaged {keyOf : Nat → K} (table : Nat → Option Nat) (base : Txn2PL keyOf V)
    (gone : List Nat) (d : Txn2PL keyOf V) (n : TxnNested keyOf V) : Prop where
  inserts : n.base.inserts = base.inserts
  removes : n.base.removes = base.removes
  removed : ∀ p ∈ base.removes, p.2 ∈ gone
  own : ∀ p ∈ n.own.removes, p.2 ∈ gone ∧ Staged.entry keyOf p.1 p.2 ∉ n.own.inserts.entries
  loose : ∀ e ∈ n.own.inserts.entries, table e.2 = none ∧ ∀ t, (t, e.2) ∉ base.removes
  counts : ∀ t r, d.inserts.entries.count (Staged.entry keyOf t r) =
    base.inserts.entries.count (Staged.entry keyOf t r) +
      n.own.inserts.entries.count (Staged.entry keyOf t r) -
        if (t, r) ∈ n.own.removes then 1 else 0
  removesD : d.removes = base.removes ∪
    n.own.removes.filter fun p => Staged.entry keyOf p.1 p.2 ∉ base.inserts.entries

namespace MirrorValues

variable {keyOf : Nat → K} {table : Nat → Option Nat} {base : Txn2PL keyOf V}
  {gone inserted written : List Nat} {d : Rows V × Txn2PL keyOf V} {s : Rows V × TxnNested keyOf V}
  {row : Nat}

theorem of_rowInserts (h : MirrorValues table base gone inserted written d s) (hrow : row ∉ gone)
    (hin : row ∈ s.2.rowInserts) :
    table row = none ∧ values row s.2.own.updates = [] ∧ d.1.column row = s.1.column row := by
  have hins : row ∈ inserted := (h.rowInserts row hrow).mp hin
  have htable := h.insertedLoose row hins
  have hempty : values row s.2.own.updates = [] := by
    by_contra hne
    exact (h.pending row hrow htable hne).2 hins
  refine ⟨htable, hempty, ?_⟩
  rw [h.loose row hrow htable, hempty]
  rfl

theorem addRead (h : MirrorValues table base gone inserted written d s) (reads : List (Nat × Nat)) :
    MirrorValues table base gone inserted written (d.1, { d.2 with reads })
      (s.1, { s.2 with base := { s.2.base with reads } }) :=
  ⟨h.tableD, h.tableN, h.updates, rfl, h.sortedD, h.sorted, h.nodup, h.inTable, h.loose, h.stored,
    h.unstaged, h.dropped, h.rowInserts, h.insertedLoose, h.pending⟩

theorem readColumn (h : MirrorValues table base gone inserted written d s) (hrow : row ∉ gone)
    (col : Nat) :
    (d.2.readColumn d.1 row col).1 = (s.2.readColumn s.1 row col).1 ∧
      MirrorValues table base gone inserted written (d.1, (d.2.readColumn d.1 row col).2)
        (s.1, (s.2.readColumn s.1 row col).2) := by
  have htableD : d.1.table row = table row := by rw [h.tableD]
  have htableN : s.1.table row = table row := by rw [h.tableN]
  by_cases hin : row ∈ s.2.rowInserts
  · obtain ⟨htable, -, hcolumn⟩ := h.of_rowInserts hrow hin
    simp only [Txn2PL.readColumn, TxnNested.readColumn, htableD, htable, if_pos hin, hcolumn]
    exact ⟨trivial, h⟩
  · cases htable : table row with
    | none =>
      have hvalue : d.1.column row col =
          (lookupCol col (values row s.2.own.updates)).getD (s.1.column row col) := by
        rw [h.loose row hrow htable, overlay_apply (h.nodup row)]
      simp only [Txn2PL.readColumn, TxnNested.readColumn, htableD, htableN, htable, if_neg hin,
        stagedValue_eq, hvalue]
      cases lookupCol col (values row s.2.own.updates) with
      | some v => exact ⟨rfl, h⟩
      | none => exact ⟨rfl, h⟩
    | some t =>
      have hne : table row ≠ none := by simp [htable]
      have hlookup : lookupCol col (values row d.2.updates) =
          (lookupCol col (values row s.2.own.updates)).or
            (lookupCol col (values row s.2.base.updates)) := by
        rw [h.stored row hrow hne, lookupCol_stageAll (h.nodup row), h.updates]
      have hcolumn : d.1.column row = s.1.column row := h.inTable row hne
      simp only [Txn2PL.readColumn, TxnNested.readColumn, htableD, htableN, htable, if_neg hin,
        stagedValue_eq, hlookup]
      cases hown : lookupCol col (values row s.2.own.updates) with
      | some v => exact ⟨rfl, h⟩
      | none =>
        cases hbase : lookupCol col (values row s.2.base.updates) with
        | some v => exact ⟨rfl, h⟩
        | none =>
          simp only [Option.or_none, h.reads, hcolumn]
          exact ⟨trivial, h.addRead _⟩

theorem writeColumn (h : MirrorValues table base gone inserted written d s) (hrow : row ∉ gone)
    (col : Nat) (v : V) :
    MirrorValues table base gone inserted
      (if inserted.contains row then written else row :: written)
      (d.2.writeColumn d.1 row col v) (s.2.writeColumn s.1 row col v) := by
  have htableD : d.1.table row = table row := by rw [h.tableD]
  have hwritten : ∀ r, r ∈ written ∧ r ∉ inserted →
      r ∈ (if inserted.contains row then written else row :: written) ∧ r ∉ inserted := by
    rintro r ⟨hr, hri⟩
    split
    · exact ⟨hr, hri⟩
    · exact ⟨List.mem_cons_of_mem row hr, hri⟩
  by_cases hin : row ∈ s.2.rowInserts
  · -- a row of the nested transaction is written where it is
    obtain ⟨htable, hempty, hcolumn⟩ := h.of_rowInserts hrow hin
    simp only [Txn2PL.writeColumn, TxnNested.writeColumn, htableD, htable, if_pos hin]
    refine ⟨h.tableD, h.tableN, h.updates, h.reads, h.sortedD, h.sorted, h.nodup, ?_, ?_, h.stored,
      h.unstaged, h.dropped, h.rowInserts, h.insertedLoose, ?_⟩
    · intro r hr
      have hne : r ≠ row := by
        rintro rfl
        exact hr htable
      simp only [Rows.update, Function.update_of_ne hne]
      exact h.inTable r hr
    · intro r hr htr
      by_cases hne : r = row
      · subst hne
        simp only [Rows.update, Function.update_self, hempty, hcolumn]
        rfl
      · simp only [Rows.update, Function.update_of_ne hne]
        exact h.loose r hr htr
    · intro r hr htr hpend
      exact hwritten r (h.pending r hr htr hpend)
  · have hvalues := values_stageUpdate h.sorted row col v
    have hnodup : ∀ r, ((values r (stageUpdate s.2.own.updates row col v)).map Prod.fst).Nodup := by
      intro r
      rw [hvalues]
      split
      · exact nodup_stageCol (h.nodup r) col v
      · exact h.nodup r
    have hdropped : ∀ r ∈ gone, values r (stageUpdate s.2.own.updates row col v) = [] := by
      intro r hr
      have hne : r ≠ row := by
        rintro rfl
        exact hrow hr
      rw [hvalues, if_neg hne]
      exact (h.dropped r hr).2.1
    have hpending : ∀ r, r ∉ gone → table r = none →
        values r (stageUpdate s.2.own.updates row col v) ≠ [] →
        r ∈ (if inserted.contains row then written else row :: written) ∧ r ∉ inserted := by
      intro r hr htr hpend
      by_cases hne : r = row
      · subst hne
        have hni : r ∉ inserted := fun hi => hin ((h.rowInserts r hr).mpr hi)
        rw [if_neg (by simpa using hni)]
        exact ⟨List.mem_cons_self, hni⟩
      · rw [hvalues, if_neg hne] at hpend
        exact hwritten r (h.pending r hr htr hpend)
    cases htable : table row with
    | none =>
      -- direct calls write the row, the nested transaction holds the value back
      simp only [Txn2PL.writeColumn, TxnNested.writeColumn, htableD, htable, if_neg hin]
      refine ⟨h.tableD, h.tableN, h.updates, h.reads, h.sortedD,
        sorted_stageUpdate h.sorted row col v, hnodup, ?_, ?_, ?_, h.unstaged, ?_, h.rowInserts,
        h.insertedLoose, hpending⟩
      · intro r hr
        have hne : r ≠ row := by
          rintro rfl
          exact hr htable
        simp only [Rows.update, Function.update_of_ne hne]
        exact h.inTable r hr
      · intro r hr htr
        by_cases hne : r = row
        · subst hne
          simp only [Rows.update, Function.update_self, hvalues, if_true]
          rw [overlay_stageCol (h.nodup r), h.loose r hr htr]
        · simp only [Rows.update, Function.update_of_ne hne, hvalues, if_neg hne]
          exact h.loose r hr htr
      · intro r hr htr
        have hne : r ≠ row := by
          rintro rfl
          exact htr htable
        simp only [hvalues, if_neg hne]
        exact h.stored r hr htr
      · intro r hr
        exact ⟨(h.dropped r hr).1, hdropped r hr, (h.dropped r hr).2.2⟩
    | some t =>
      have hne' : table row ≠ none := by simp [htable]
      have hvaluesD := values_stageUpdate h.sortedD row col v
      simp only [Txn2PL.writeColumn, TxnNested.writeColumn, htableD, htable, if_neg hin]
      refine ⟨h.tableD, h.tableN, h.updates, h.reads, sorted_stageUpdate h.sortedD row col v,
        sorted_stageUpdate h.sorted row col v, hnodup, h.inTable, ?_, ?_, ?_, ?_, h.rowInserts,
        h.insertedLoose, hpending⟩
      · intro r hr htr
        have hne : r ≠ row := by
          rintro rfl
          exact hne' htr
        simp only [hvalues, if_neg hne]
        exact h.loose r hr htr
      · intro r hr htr
        simp only [hvalues, hvaluesD]
        by_cases hne : r = row
        · subst hne
          rw [if_pos rfl, if_pos rfl, stageAll_stageCol (h.nodup r), h.stored r hr htr]
        · rw [if_neg hne, if_neg hne]
          exact h.stored r hr htr
      · intro r htr
        have hne : r ≠ row := by
          rintro rfl
          exact hne' htr
        simp only [hvaluesD, if_neg hne]
        exact h.unstaged r htr
      · intro r hr
        have hne : r ≠ row := by
          rintro rfl
          exact hrow hr
        refine ⟨?_, hdropped r hr, (h.dropped r hr).2.2⟩
        simp only [hvaluesD, if_neg hne]
        exact (h.dropped r hr).1

theorem insertRow (h : MirrorValues table base gone inserted written d s) (hrow : row ∉ gone)
    (htable : table row = none) (hwritten : row ∉ written) (inserts inserts' : Staged keyOf)
    (removes : Finset (Nat × Nat)) (tbl : Nat) :
    MirrorValues table base gone (row :: inserted) written (d.1, { d.2 with inserts, removes })
      (s.1, { s.2 with
        own := { s.2.own with inserts := inserts', removes := s.2.own.removes.erase (tbl, row) }
        rowInserts := insert row s.2.rowInserts }) := by
  refine ⟨h.tableD, h.tableN, h.updates, h.reads, h.sortedD, h.sorted, h.nodup, h.inTable, h.loose,
    h.stored, h.unstaged, ?_, ?_, ?_, ?_⟩
  · intro r hr
    have hne : r ≠ row := by
      rintro rfl
      exact hrow hr
    obtain ⟨h1, h2, h3⟩ := h.dropped r hr
    refine ⟨h1, h2, ?_⟩
    rcases h3 with ⟨t, ht⟩ | h3
    · exact .inl ⟨t, Finset.mem_erase.mpr ⟨by simp [hne], ht⟩⟩
    · exact .inr h3
  · intro r hr
    rw [Finset.mem_insert, List.mem_cons, h.rowInserts r hr]
  · intro r hr
    rcases List.mem_cons.mp hr with rfl | hr
    · exact htable
    · exact h.insertedLoose r hr
  · intro r hr htr hpend
    obtain ⟨hw, hi⟩ := h.pending r hr htr hpend
    refine ⟨hw, ?_⟩
    rw [List.mem_cons, not_or]
    refine ⟨?_, hi⟩
    rintro rfl
    exact hwritten hw

theorem removeRow (h : MirrorValues table base gone inserted written d s)
    (hst : MirrorStaged table base gone d.2 s.2)
    (hbase : ∀ r, table r = none → values r base.updates = []) (tbl : Nat) :
    MirrorValues table base (row :: gone) inserted written (d.1, d.2.removeRow tbl row)
      (s.1, s.2.removeRow tbl row) := by
  have hupdatesD : (d.2.removeRow tbl row).updates = d.2.updates.filter fun u => u.1 != row := by
    rw [Txn2PL.removeRow]
    split <;> rfl
  have hupdates : (s.2.own.removeRow tbl row).updates =
      s.2.own.updates.filter fun u => u.1 != row := by
    rw [Txn2PL.removeRow]
    split <;> rfl
  have hreads : (d.2.removeRow tbl row).reads = d.2.reads := by
    rw [Txn2PL.removeRow]
    split <;> rfl
  have hremoves : ∀ p ∈ s.2.own.removes, p ∈ (s.2.own.removeRow tbl row).removes := by
    intro p hp
    rw [Txn2PL.removeRow]
    split
    · exact hp
    · exact Finset.mem_insert_of_mem hp
  have hvaluesD := values_filter_ne d.2.updates row
  have hvalues := values_filter_ne s.2.own.updates row
  refine ⟨h.tableD, h.tableN, h.updates, hreads.trans h.reads, ?_, ?_, ?_, h.inTable, ?_, ?_, ?_,
    ?_, ?_, h.insertedLoose, ?_⟩
  · simp only [hupdatesD]
    exact h.sortedD.sublist List.filter_sublist
  · simp only [TxnNested.removeRow, hupdates]
    exact h.sorted.sublist List.filter_sublist
  · intro r
    simp only [TxnNested.removeRow, hupdates, hvalues]
    split
    · exact List.nodup_nil
    · exact h.nodup r
  · intro r hr htr
    rw [List.mem_cons, not_or] at hr
    simp only [TxnNested.removeRow, hupdates, hvalues, if_neg hr.1]
    exact h.loose r hr.2 htr
  · intro r hr htr
    rw [List.mem_cons, not_or] at hr
    simp only [TxnNested.removeRow, hupdates, hupdatesD, hvalues, hvaluesD, if_neg hr.1]
    exact h.stored r hr.2 htr
  · intro r htr
    simp only [hupdatesD, hvaluesD]
    split
    · rfl
    · exact h.unstaged r htr
  · intro r hr
    simp only [TxnNested.removeRow, hupdates, hupdatesD, hvalues, hvaluesD]
    by_cases hrr : r = row
    · subst hrr
      simp only [if_true, true_and]
      -- a row that the nested transaction staged is in no table
      by_cases hin : s.2.own.inserts.entries.contains (Staged.entry keyOf tbl r) = true
      · have hmem : Staged.entry keyOf tbl r ∈ s.2.own.inserts.entries := by simpa using hin
        exact .inr (hbase r (hst.loose _ hmem).1)
      · refine .inl ⟨tbl, ?_⟩
        simp only [Txn2PL.removeRow, if_neg hin]
        exact Finset.mem_insert_self _ _
    · obtain ⟨h1, h2, h3⟩ := h.dropped r ((List.mem_cons.mp hr).resolve_left hrr)
      rw [if_neg hrr, if_neg hrr]
      refine ⟨h1, h2, ?_⟩
      rcases h3 with ⟨t, ht⟩ | h3
      · exact .inl ⟨t, hremoves _ ht⟩
      · exact .inr h3
  · intro r hr
    rw [List.mem_cons, not_or] at hr
    have hrows := h.rowInserts r hr.2
    simp only [TxnNested.removeRow]
    split
    · rw [Finset.mem_erase, and_iff_right hr.1]
      exact hrows
    · exact hrows
  · intro r hr htr hpend
    rw [List.mem_cons, not_or] at hr
    simp only [TxnNested.removeRow, hupdates, hvalues, if_neg hr.1] at hpend
    exact h.pending r hr.2 htr hpend

end MirrorValues

namespace MirrorStaged

variable {keyOf : Nat → K} {table : Nat → Option Nat} {base : Txn2PL keyOf V} {gone : List Nat}
  {d d' : Txn2PL keyOf V} {n n' : TxnNested keyOf V} {row : Nat}

theorem congr (h : MirrorStaged table base gone d n) (hd : d'.inserts = d.inserts)
    (hdr : d'.removes = d.removes) (hn : n'.base.inserts = n.base.inserts)
    (hnr : n'.base.removes = n.base.removes) (ho : n'.own.inserts = n.own.inserts)
    (hor : n'.own.removes = n.own.removes) : MirrorStaged table base gone d' n' := by
  refine ⟨hn.trans h.inserts, hnr.trans h.removes, h.removed, ?_, ?_, ?_, ?_⟩
  · rw [ho, hor]
    exact h.own
  · rw [ho]
    exact h.loose
  · rw [ho, hor, hd]
    exact h.counts
  · rw [hor, hdr]
    exact h.removesD

theorem count_insert (s : Staged keyOf) (tbl row : Nat) (e : (Nat ×ₗ K) × Nat) :
    (s.insert tbl row).entries.count e =
      s.entries.count e + if Staged.entry keyOf tbl row = e then 1 else 0 := by
  have hperm : ∀ l : List ((Nat ×ₗ K) × Nat),
      (Multimap.insert (Staged.entry keyOf tbl row) l).Perm (Staged.entry keyOf tbl row :: l) := by
    intro l
    induction l with
    | nil => exact List.Perm.refl _
    | cons x l ih =>
      rw [Multimap.insert]
      split
      · exact (ih.cons x).trans (List.Perm.swap _ _ l)
      · exact List.Perm.refl _
  rw [Staged.insert, (hperm s.entries).count_eq, List.count_cons]
  simp only [beq_iff_eq]

omit [LinearOrder K] in
theorem entry_inj {t t' r r' : Nat} :
    Staged.entry keyOf t r = Staged.entry keyOf t' r' ↔ t = t' ∧ r = r' := by
  constructor
  · intro h
    obtain ⟨hk, hr⟩ := Prod.mk.inj h
    exact ⟨congrArg (fun x => (ofLex x).1) hk, hr⟩
  · rintro ⟨rfl, rfl⟩
    rfl

theorem insertRow (h : MirrorStaged table base gone d n) (hrow : row ∉ gone)
    (htable : table row = none) (tbl : Nat) (rowInserts : Finset Nat) :
    MirrorStaged table base gone
      { d with inserts := d.inserts.insert tbl row, removes := d.removes.erase (tbl, row) }
      { n with
        own := { n.own with
          inserts := n.own.inserts.insert tbl row, removes := n.own.removes.erase (tbl, row) }
        rowInserts } := by
  have hnotOwn : (tbl, row) ∉ n.own.removes := fun hp => hrow (h.own _ hp).1
  have hnotBase : ∀ t, (t, row) ∉ base.removes := fun t hp => hrow (h.removed _ hp)
  have hnotD : (tbl, row) ∉ d.removes := by
    rw [h.removesD, Finset.mem_union, not_or]
    exact ⟨hnotBase tbl, fun hp => hnotOwn (Finset.mem_filter.mp hp).1⟩
  simp only [Finset.erase_eq_of_notMem hnotOwn, Finset.erase_eq_of_notMem hnotD]
  refine ⟨h.inserts, h.removes, h.removed, ?_, ?_, ?_, h.removesD⟩
  · intro p hp
    obtain ⟨hg, hout⟩ := h.own p hp
    refine ⟨hg, ?_⟩
    intro hin
    rcases mem_insert.mp hin with he | hin
    · exact hrow ((entry_inj.mp he).2 ▸ hg)
    · exact hout hin
  · intro e he
    rcases mem_insert.mp he with rfl | he
    · exact ⟨htable, hnotBase⟩
    · exact h.loose e he
  · intro t r
    have hc := h.counts t r
    simp only [count_insert]
    by_cases he : Staged.entry keyOf tbl row = Staged.entry keyOf t r
    · obtain ⟨rfl, rfl⟩ := entry_inj.mp he
      simp only [if_neg hnotOwn, if_true] at hc ⊢
      omega
    · rw [if_neg he]
      omega

theorem removeRow (h : MirrorStaged table base gone d n) (hrow : row ∉ gone) (tbl : Nat) :
    MirrorStaged table base (row :: gone) (d.removeRow tbl row) (n.removeRow tbl row) := by
  have hnotOwn : (tbl, row) ∉ n.own.removes := fun hp => hrow (h.own _ hp).1
  have hc := h.counts tbl row
  rw [if_neg hnotOwn] at hc
  have hgone : ∀ p ∈ base.removes, p.2 ∈ row :: gone :=
    fun p hp => List.mem_cons_of_mem row (h.removed p hp)
  have hcountErase : ∀ (s : Staged keyOf) (t r : Nat),
      (s.erase tbl row).entries.count (Staged.entry keyOf t r) =
        s.entries.count (Staged.entry keyOf t r) - if tbl = t ∧ row = r then 1 else 0 := by
    intro s t r
    rw [Staged.erase, List.count_erase]
    simp only [beq_iff_eq, entry_inj]
  by_cases hin : n.own.inserts.entries.contains (Staged.entry keyOf tbl row) = true
  · have hmem : Staged.entry keyOf tbl row ∈ n.own.inserts.entries := by simpa using hin
    have hpos := List.count_pos_iff.mpr hmem
    have hinD : d.inserts.entries.contains (Staged.entry keyOf tbl row) = true := by
      have : 0 < d.inserts.entries.count (Staged.entry keyOf tbl row) := by omega
      simpa using List.count_pos_iff.mp this
    simp only [Txn2PL.removeRow, TxnNested.removeRow, if_pos hin, if_pos hinD]
    refine ⟨h.inserts, h.removes, hgone, ?_, ?_, ?_, h.removesD⟩
    · intro p hp
      obtain ⟨hg, hout⟩ := h.own p hp
      exact ⟨List.mem_cons_of_mem row hg, fun he => hout (List.mem_of_mem_erase he)⟩
    · intro e he
      exact h.loose e (List.mem_of_mem_erase he)
    · intro t r
      have hcr := h.counts t r
      simp only [hcountErase]
      by_cases he : tbl = t ∧ row = r
      · obtain ⟨rfl, rfl⟩ := he
        simp only [and_self, if_true, if_neg hnotOwn]
        omega
      · simp only [if_neg he]
        omega
  · have hno : Staged.entry keyOf tbl row ∉ n.own.inserts.entries := by simpa using hin
    have hzero := List.count_eq_zero.mpr hno
    have hown : ∀ p ∈ insert (tbl, row) n.own.removes,
        p.2 ∈ row :: gone ∧ Staged.entry keyOf p.1 p.2 ∉ n.own.inserts.entries := by
      intro p hp
      rcases Finset.mem_insert.mp hp with rfl | hp
      · exact ⟨List.mem_cons_self, hno⟩
      · exact ⟨List.mem_cons_of_mem row (h.own p hp).1, (h.own p hp).2⟩
    have hiff : Staged.entry keyOf tbl row ∈ d.inserts.entries ↔
        Staged.entry keyOf tbl row ∈ base.inserts.entries := by
      rw [← List.count_pos_iff, ← List.count_pos_iff]
      omega
    have hrest : ∀ t r, ¬ (tbl = t ∧ row = r) →
        ((t, r) ∈ insert (tbl, row) n.own.removes ↔ (t, r) ∈ n.own.removes) := by
      intro t r he
      rw [Finset.mem_insert, Prod.mk.injEq, or_iff_right]
      rintro ⟨rfl, rfl⟩
      exact he ⟨rfl, rfl⟩
    by_cases hinD : d.inserts.entries.contains (Staged.entry keyOf tbl row) = true
    · have hbase : Staged.entry keyOf tbl row ∈ base.inserts.entries :=
        hiff.mp (by simpa using hinD)
      simp only [Txn2PL.removeRow, TxnNested.removeRow, if_neg hin, if_pos hinD]
      refine ⟨h.inserts, h.removes, hgone, hown, h.loose, ?_, ?_⟩
      · intro t r
        have hcr := h.counts t r
        simp only [hcountErase]
        by_cases he : tbl = t ∧ row = r
        · obtain ⟨rfl, rfl⟩ := he
          simp only [and_self, if_true, if_pos (Finset.mem_insert_self _ _)]
          omega
        · simp only [if_neg he, hrest t r he]
          omega
      · rw [Finset.filter_insert, if_neg (by simpa using hbase)]
        exact h.removesD
    · have hbase : Staged.entry keyOf tbl row ∉ base.inserts.entries :=
        fun hb => hinD (by simpa using hiff.mpr hb)
      have hzeroBase := List.count_eq_zero.mpr hbase
      simp only [Txn2PL.removeRow, TxnNested.removeRow, if_neg hin, if_neg hinD]
      refine ⟨h.inserts, h.removes, hgone, hown, h.loose, ?_, ?_⟩
      · intro t r
        have hcr := h.counts t r
        by_cases he : tbl = t ∧ row = r
        · obtain ⟨rfl, rfl⟩ := he
          simp only [if_pos (Finset.mem_insert_self _ _)]
          omega
        · simp only [hrest t r he]
          exact hcr
      · rw [Finset.filter_insert, if_pos hbase, Finset.union_insert, h.removesD]

end MirrorStaged

structure Mirror {keyOf : Nat → K} (table : Nat → Option Nat) (base : Txn2PL keyOf V)
    (gone inserted written : List Nat) (d : Rows V × Txn2PL keyOf V)
    (s : Rows V × TxnNested keyOf V) : Prop where
  values : MirrorValues table base gone inserted written d s
  staged : MirrorStaged table base gone d.2 s.2

namespace Mirror

variable {keyOf : Nat → K} {table : Nat → Option Nat} {base : Txn2PL keyOf V}
  {gone inserted written : List Nat} {d : Rows V × Txn2PL keyOf V} {s : Rows V × TxnNested keyOf V}

theorem init {rows : Rows V} (h : base.Valid rows.table gone) :
    Mirror rows.table base gone [] [] (rows, base) (rows, { base }) := by
  constructor
  · refine ⟨rfl, rfl, rfl, rfl, h.sorted, List.Pairwise.nil, ?_, ?_, ?_, ?_, h.loose, ?_, ?_, ?_, ?_⟩
    · intro r
      exact List.nodup_nil
    · intro r _
      rfl
    · intro r _ _
      rfl
    · intro r _ _
      rfl
    · intro r hr
      exact ⟨h.dropped r hr, rfl, .inr (h.dropped r hr)⟩
    · intro r _
      simp
    · intro r hr
      cases hr
    · intro r _ _ hne
      exact absurd rfl hne
  · refine ⟨rfl, rfl, h.removed, ?_, ?_, ?_, ?_⟩
    · intro p hp
      simp at hp
    · intro e he
      cases he
    · intro t r
      simp
    · simp

theorem readColumn (h : Mirror table base gone inserted written d s) {row : Nat} (hrow : row ∉ gone)
    (col : Nat) :
    (d.2.readColumn d.1 row col).1 = (s.2.readColumn s.1 row col).1 ∧
      Mirror table base gone inserted written (d.1, (d.2.readColumn d.1 row col).2)
        (s.1, (s.2.readColumn s.1 row col).2) := by
  obtain ⟨hvalue, hvalues⟩ := h.values.readColumn hrow col
  refine ⟨hvalue, hvalues, ?_⟩
  have hd : ∀ (t : Txn2PL keyOf V) (rows : Rows V),
      (t.readColumn rows row col).2.inserts = t.inserts ∧
        (t.readColumn rows row col).2.removes = t.removes := by
    intro t rows
    rw [Txn2PL.readColumn]
    repeat' split
    all_goals exact ⟨rfl, rfl⟩
  have hs : (s.2.readColumn s.1 row col).2.base.inserts = s.2.base.inserts ∧
      (s.2.readColumn s.1 row col).2.base.removes = s.2.base.removes ∧
      (s.2.readColumn s.1 row col).2.own = s.2.own := by
    rw [TxnNested.readColumn]
    split
    · exact ⟨rfl, rfl, rfl⟩
    · split
      · exact ⟨rfl, rfl, rfl⟩
      · exact ⟨(hd s.2.base s.1).1, (hd s.2.base s.1).2, rfl⟩
  exact h.staged.congr (hd d.2 d.1).1 (hd d.2 d.1).2 hs.1 hs.2.1 (by rw [hs.2.2]) (by rw [hs.2.2])

theorem writeColumn (h : Mirror table base gone inserted written d s) {row : Nat}
    (hrow : row ∉ gone) (col : Nat) (v : V) :
    Mirror table base gone inserted (if inserted.contains row then written else row :: written)
      (d.2.writeColumn d.1 row col v) (s.2.writeColumn s.1 row col v) := by
  refine ⟨h.values.writeColumn hrow col v, ?_⟩
  have hd : (d.2.writeColumn d.1 row col v).2.inserts = d.2.inserts ∧
      (d.2.writeColumn d.1 row col v).2.removes = d.2.removes := by
    rw [Txn2PL.writeColumn]
    split <;> exact ⟨rfl, rfl⟩
  have hs : (s.2.writeColumn s.1 row col v).2.base = s.2.base ∧
      (s.2.writeColumn s.1 row col v).2.own.inserts = s.2.own.inserts ∧
      (s.2.writeColumn s.1 row col v).2.own.removes = s.2.own.removes := by
    rw [TxnNested.writeColumn]
    split <;> exact ⟨rfl, rfl, rfl⟩
  exact h.staged.congr hd.1 hd.2 (by rw [hs.1]) (by rw [hs.1]) hs.2.1 hs.2.2

theorem exec (h : Mirror table base gone inserted written d s)
    (hbase : ∀ r, table r = none → Multimap.values r base.updates = []) {op : TxnOp V}
    (hop : op.row ∉ gone) (hins : op.insertsNone written = true) :
    (Txn2PL.exec d op = none ∧ TxnNested.exec s op = none) ∨
      ∃ d' s' out, Txn2PL.exec d op = some (d', out) ∧ TxnNested.exec s op = some (s', out) ∧
        Mirror table base (op.gone gone) (op.inserted inserted) (op.written inserted written)
          d' s' := by
  cases op with
  | readColumn row col =>
    have hrow : row ∉ gone := hop
    obtain ⟨hvalue, hmirror⟩ := h.readColumn hrow col
    have hout : TxnNested.exec s (.readColumn row col) =
        some ((s.1, (s.2.readColumn s.1 row col).2), some (d.2.readColumn d.1 row col).1) := by
      rw [hvalue]
      rfl
    exact .inr ⟨_, _, _, rfl, hout, hmirror⟩
  | writeColumn row col v => exact .inr ⟨_, _, _, rfl, rfl, h.writeColumn hop col v⟩
  | insertRow tbl row =>
    have htableD : d.1.table row = table row := by rw [h.values.tableD]
    have htableN : s.1.table row = table row := by rw [h.values.tableN]
    cases htable : table row with
    | some t =>
      refine .inl ⟨?_, ?_⟩
      · simp [Txn2PL.exec, Txn2PL.insertRow, htableD, htable]
      · simp [TxnNested.exec, TxnNested.insertRow, Txn2PL.insertRow, htableN, htable]
    | none =>
      have hwritten : row ∉ written := by simpa [TxnOp.insertsNone] using hins
      refine .inr ⟨(d.1, { d.2 with
        inserts := d.2.inserts.insert tbl row, removes := d.2.removes.erase (tbl, row) }), (s.1, { s.2 with
          own := { s.2.own with
            inserts := s.2.own.inserts.insert tbl row
            removes := s.2.own.removes.erase (tbl, row) }
          rowInserts := Insert.insert row s.2.rowInserts }),
        none, ?_, ?_, h.values.insertRow hop htable hwritten _ (s.2.own.inserts.insert tbl row) _ tbl,
        h.staged.insertRow hop htable tbl _⟩
      · simp [Txn2PL.exec, Txn2PL.insertRow, htableD, htable]
      · simp [TxnNested.exec, TxnNested.insertRow, Txn2PL.insertRow, htableN, htable]
  | removeRow tbl row =>
    exact .inr ⟨_, _, _, rfl, rfl, h.values.removeRow h.staged hbase tbl, h.staged.removeRow hop tbl⟩

theorem run (h : Mirror table base gone inserted written d s)
    (hbase : ∀ r, table r = none → Multimap.values r base.updates = []) {ops : List (TxnOp V)}
    (hops : removedOnce gone ops = true) (hins : insertedFirst inserted written ops = true) :
    (runOps Txn2PL.exec d ops = none ∧ runOps TxnNested.exec s ops = none) ∨
      ∃ d' s' outs inserted' written', runOps Txn2PL.exec d ops = some (d', outs) ∧
        runOps TxnNested.exec s ops = some (s', outs) ∧
        Mirror table base (goneAfter gone ops) inserted' written' d' s' := by
  induction ops generalizing d s gone inserted written with
  | nil => exact .inr ⟨d, s, [], inserted, written, rfl, rfl, h⟩
  | cons op ops ih =>
    simp only [removedOnce, Bool.and_eq_true, Bool.not_eq_true', List.contains_eq_mem,
      decide_eq_false_iff_not] at hops
    simp only [insertedFirst, Bool.and_eq_true] at hins
    rcases h.exec hbase hops.1 hins.1 with ⟨hd, hs⟩ | ⟨d₁, s₁, out, hd, hs, h₁⟩
    · exact .inl ⟨by simp [runOps, hd], by simp [runOps, hs]⟩
    · rcases ih h₁ hops.2 hins.2 with ⟨hd₂, hs₂⟩ | ⟨d₂, s₂, outs, inserted₂, written₂, hd₂, hs₂, h₂⟩
      · exact .inl ⟨by simp [runOps, hd, hd₂], by simp [runOps, hs, hs₂]⟩
      · exact .inr ⟨d₂, s₂, out :: outs, inserted₂, written₂, by simp [runOps, hd, hd₂],
          by simp [runOps, hs, hs₂], h₂⟩

end Mirror

end Jetpack.Memdb
