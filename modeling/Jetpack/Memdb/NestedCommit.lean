import Jetpack.Memdb.Nested

/-! The commit of a nested transaction replays what it staged: first the rows, then the values, then
the removals. -/

namespace Jetpack.Memdb

open Multimap

variable {K V : Type} [LinearOrder K]

section Replay

variable {keyOf : Nat → K}

theorem replayInserts (rows : Rows V) (base : Txn2PL keyOf V) (es : List ((Nat ×ₗ K) × Nat))
    (hkeyed : ∀ e ∈ es, (ofLex e.1).2 = keyOf e.2)
    (hloose : ∀ e ∈ es, rows.table e.2 = none ∧ ∀ t, (t, e.2) ∉ base.removes) :
    ∃ inserts : Staged keyOf,
      es.foldlM (fun base e => base.insertRow rows (ofLex e.1).1 e.2) base =
        some { base with inserts } ∧
      ∀ x, inserts.entries.count x = base.inserts.entries.count x + es.count x := by
  induction es generalizing base with
  | nil => exact ⟨base.inserts, rfl, fun x => by simp⟩
  | cons e es ih =>
    obtain ⟨htable, hkept⟩ := hloose e List.mem_cons_self
    have hentry : Staged.entry keyOf (ofLex e.1).1 e.2 = e := by
      have hk : toLex ((ofLex e.1).1, keyOf e.2) = e.1 := by
        rw [← hkeyed e List.mem_cons_self]
        rfl
      exact Prod.ext hk rfl
    have hinsert : base.insertRow rows (ofLex e.1).1 e.2 =
        some { base with inserts := base.inserts.insert (ofLex e.1).1 e.2 } := by
      simp only [Txn2PL.insertRow, htable, Finset.erase_eq_of_notMem (hkept _)]
    obtain ⟨inserts, hfold, hcount⟩ := ih { base with inserts := base.inserts.insert (ofLex e.1).1 e.2 }
      (fun e' he' => hkeyed e' (List.mem_cons_of_mem e he'))
      (fun e' he' => hloose e' (List.mem_cons_of_mem e he'))
    refine ⟨inserts, ?_, ?_⟩
    · rw [List.foldlM_cons, hinsert]
      exact hfold
    · intro x
      rw [hcount, MirrorStaged.count_insert, hentry, List.count_cons]
      simp only [beq_iff_eq]
      omega

/-- What the staged values become: those of rows in a table are staged in the base, and the others
are written. -/
theorem replayUpdates (rows : Rows V) (base : Txn2PL keyOf V) (us : List (Nat × (Nat × V)))
    (hsorted : Sorted base.updates) :
    ∃ (rows' : Rows V) (updates : List (Nat × (Nat × V))),
      us.foldl (fun (s : Rows V × Txn2PL keyOf V) u => s.2.writeColumn s.1 u.1 u.2.1 u.2.2)
        (rows, base) = (rows', { base with updates }) ∧
      rows'.table = rows.table ∧ Sorted updates ∧
      (∀ r, rows.table r = none → rows'.column r = overlay (rows.column r) (values r us) ∧
        values r updates = values r base.updates) ∧
      ∀ r, rows.table r ≠ none → rows'.column r = rows.column r ∧
        values r updates = stageAll (values r base.updates) (values r us) := by
  induction us generalizing rows base with
  | nil =>
    exact ⟨rows, base.updates, rfl, rfl, hsorted, fun r _ => ⟨rfl, rfl⟩, fun r _ => ⟨rfl, rfl⟩⟩
  | cons u us ih =>
    obtain ⟨row, col, v⟩ := u
    cases htable : rows.table row with
    | none =>
      have hwrite : base.writeColumn rows row col v = (rows.update row col v, base) := by
        simp only [Txn2PL.writeColumn, htable]
      obtain ⟨rows', updates, hfold, htable', hsorted', hloose, hstored⟩ :=
        ih (rows.update row col v) base hsorted
      refine ⟨rows', updates, ?_, htable', hsorted', ?_, ?_⟩
      · rw [List.foldl_cons, hwrite]
        exact hfold
      · intro r hr
        obtain ⟨hcolumn, hupdates⟩ := hloose r hr
        refine ⟨?_, hupdates⟩
        by_cases hne : row = r
        · subst hne
          rw [hcolumn, values_cons_self, rows.column_update_self]
          rfl
        · have hne' : r ≠ row := fun h => hne h.symm
          rw [hcolumn, values_cons_of_ne hne, rows.column_update_of_ne hne']
      · intro r hr
        have hne : row ≠ r := by
          rintro rfl
          exact hr htable
        obtain ⟨hcolumn, hupdates⟩ := hstored r hr
        rw [hcolumn, hupdates, values_cons_of_ne hne, rows.column_update_of_ne hne.symm]
        exact ⟨rfl, rfl⟩
    | some t =>
      have hwrite : base.writeColumn rows row col v =
          (rows, { base with updates := stageUpdate base.updates row col v }) := by
        simp only [Txn2PL.writeColumn, htable]
      have hvalues := values_stageUpdate hsorted row col v
      obtain ⟨rows', updates, hfold, htable', hsorted', hloose, hstored⟩ :=
        ih rows { base with updates := stageUpdate base.updates row col v }
          (sorted_stageUpdate hsorted row col v)
      refine ⟨rows', updates, ?_, htable', hsorted', ?_, ?_⟩
      · rw [List.foldl_cons, hwrite]
        exact hfold
      · intro r hr
        have hne : row ≠ r := by
          rintro rfl
          rw [htable] at hr
          cases hr
        obtain ⟨hcolumn, hupdates⟩ := hloose r hr
        rw [hcolumn, hupdates, hvalues, if_neg hne.symm, values_cons_of_ne hne]
        exact ⟨rfl, rfl⟩
      · intro r hr
        obtain ⟨hcolumn, hupdates⟩ := hstored r hr
        refine ⟨hcolumn, ?_⟩
        rw [hupdates, hvalues]
        by_cases hne : row = r
        · subst hne
          rw [if_pos rfl, values_cons_self]
          rfl
        · rw [if_neg fun h => hne h.symm, values_cons_of_ne hne]

theorem removeRow_reads (base : Txn2PL keyOf V) (tbl row : Nat) :
    (base.removeRow tbl row).reads = base.reads ∧
      (base.removeRow tbl row).updates = base.updates.filter fun u => u.1 != row := by
  rw [Txn2PL.removeRow]
  split <;> exact ⟨rfl, rfl⟩

theorem replayRemoves (base : Txn2PL keyOf V) (order : List (Nat × Nat)) (hnodup : order.Nodup)
    (hsorted : Sorted base.updates) :
    let base' := order.foldl (fun base r => base.removeRow r.1 r.2) base
    base'.reads = base.reads ∧ Sorted base'.updates ∧
      (∀ r, values r base'.updates =
        if r ∈ order.map Prod.snd then [] else values r base.updates) ∧
      (∀ t r, base'.inserts.entries.count (Staged.entry keyOf t r) =
        base.inserts.entries.count (Staged.entry keyOf t r) - if (t, r) ∈ order then 1 else 0) ∧
      ∀ t r, (t, r) ∈ base'.removes ↔
        (t, r) ∈ base.removes ∨ (t, r) ∈ order ∧ Staged.entry keyOf t r ∉ base.inserts.entries := by
  induction order generalizing base with
  | nil => exact ⟨rfl, hsorted, fun r => by simp, fun t r => by simp, fun t r => by simp⟩
  | cons x order ih =>
    obtain ⟨tbl, row⟩ := x
    obtain ⟨hx, hnodup'⟩ := List.nodup_cons.mp hnodup
    obtain ⟨hreads, hupdates⟩ := removeRow_reads base tbl row
    have hsorted' : Sorted (base.removeRow tbl row).updates := by
      rw [hupdates]
      exact hsorted.sublist List.filter_sublist
    obtain ⟨h1, h2, h3, h4, h5⟩ := ih (base.removeRow tbl row) hnodup' hsorted'
    have hcount : ∀ t r, (base.removeRow tbl row).inserts.entries.count (Staged.entry keyOf t r) =
        base.inserts.entries.count (Staged.entry keyOf t r) -
          if t = tbl ∧ r = row then 1 else 0 := by
      intro t r
      by_cases hin : base.inserts.entries.contains (Staged.entry keyOf tbl row) = true
      · simp only [Txn2PL.removeRow, if_pos hin, Staged.erase, List.count_erase, beq_iff_eq,
          MirrorStaged.entry_inj, eq_comm (a := tbl), eq_comm (a := row)]
      · have hout : Staged.entry keyOf tbl row ∉ base.inserts.entries := by simpa using hin
        have hzero := List.count_eq_zero.mpr hout
        simp only [Txn2PL.removeRow, if_neg hin]
        by_cases he : t = tbl ∧ r = row
        · obtain ⟨rfl, rfl⟩ := he
          omega
        · rw [if_neg he]
          rfl
    have hremoves : ∀ t r, (t, r) ∈ (base.removeRow tbl row).removes ↔ (t, r) ∈ base.removes ∨
        (t = tbl ∧ r = row) ∧ Staged.entry keyOf t r ∉ base.inserts.entries := by
      intro t r
      rw [Txn2PL.removeRow]
      split
      · next hin =>
        have hin : Staged.entry keyOf tbl row ∈ base.inserts.entries := by simpa using hin
        constructor
        · exact .inl
        · rintro (h | ⟨⟨rfl, rfl⟩, h⟩)
          · exact h
          · exact absurd hin h
      · next hin =>
        have hout : Staged.entry keyOf tbl row ∉ base.inserts.entries := by simpa using hin
        rw [Finset.mem_insert, Prod.mk.injEq, or_comm]
        constructor
        · rintro (h | ⟨rfl, rfl⟩)
          · exact .inl h
          · exact .inr ⟨⟨rfl, rfl⟩, hout⟩
        · rintro (h | ⟨h, -⟩)
          · exact .inl h
          · exact .inr h
    refine ⟨h1.trans hreads, h2, ?_, ?_, ?_⟩
    · intro r
      have hr := h3 r
      rw [hupdates, values_filter_ne] at hr
      show values r (order.foldl _ (base.removeRow tbl row)).updates = _
      rw [hr]
      by_cases hrow : r = row
      · simp [hrow]
      · simp only [List.map_cons, List.mem_cons, hrow, if_false, false_or]
    · intro t r
      have hr := h4 t r
      rw [hcount] at hr
      show (order.foldl _ (base.removeRow tbl row)).inserts.entries.count _ = _
      rw [hr]
      by_cases he : t = tbl ∧ r = row
      · obtain ⟨rfl, rfl⟩ := he
        simp [hx]
      · simp only [List.mem_cons, Prod.mk.injEq, he, if_false, false_or, Nat.sub_zero]
    · intro t r
      have hr := h5 t r
      show (t, r) ∈ (order.foldl _ (base.removeRow tbl row)).removes ↔ _
      rw [hr, hremoves, or_assoc, List.mem_cons, Prod.mk.injEq, or_and_right]
      have hkept : (t, r) ∈ order →
          (Staged.entry keyOf t r ∉ (base.removeRow tbl row).inserts.entries ↔
            Staged.entry keyOf t r ∉ base.inserts.entries) := by
        intro hin
        have hne : ¬ (t = tbl ∧ r = row) := by
          rintro ⟨rfl, rfl⟩
          exact hx hin
        have hc := hcount t r
        rw [if_neg hne, Nat.sub_zero] at hc
        rw [← List.count_eq_zero, ← List.count_eq_zero, hc]
      constructor
      · rintro (h | h | ⟨h, h'⟩)
        · exact .inl h
        · exact .inr (.inl h)
        · exact .inr (.inr ⟨h, (hkept h).mp h'⟩)
      · rintro (h | h | ⟨h, h'⟩)
        · exact .inl h
        · exact .inr (.inl h)
        · exact .inr (.inr ⟨h, (hkept h).mpr h'⟩)

end Replay

/-- The two areas stage the same, with the rows of one key in any order. -/
structure Txn2PL.SameStaged {keyOf : Nat → K} (t t' : Txn2PL keyOf V) : Prop where
  reads : t.reads = t'.reads
  updates : t.updates = t'.updates
  inserts : t.inserts.entries.Perm t'.inserts.entries
  removes : t.removes = t'.removes

theorem Staged.perm_of_counts {keyOf : Nat → K} {s s' : Staged keyOf}
    (h : ∀ t r, s.entries.count (Staged.entry keyOf t r) =
      s'.entries.count (Staged.entry keyOf t r)) : s.entries.Perm s'.entries := by
  apply List.perm_iff_count.mpr
  intro x
  have hzero : ∀ {s : Staged keyOf}, (ofLex x.1).2 ≠ keyOf x.2 → s.entries.count x = 0 :=
    fun {s} hx => List.count_eq_zero.mpr fun hin => hx (s.keyed x hin)
  by_cases hx : (ofLex x.1).2 = keyOf x.2
  · have he : x = Staged.entry keyOf (ofLex x.1).1 x.2 := by
      have hk : x.1 = toLex ((ofLex x.1).1, keyOf x.2) := by
        rw [← hx]
        rfl
      exact Prod.ext hk rfl
    rw [he]
    exact h _ _
  · rw [hzero hx, hzero hx]

/-- What is committed is what the direct calls left, and so are the rows that are not removed. -/
theorem Mirror.commit {keyOf : Nat → K} {table : Nat → Option Nat} {base : Txn2PL keyOf V}
    {gone inserted written : List Nat} {d : Rows V × Txn2PL keyOf V}
    {s : Rows V × TxnNested keyOf V} (h : Mirror table base gone inserted written d s)
    (hbase : ∀ r, table r = none → Multimap.values r base.updates = [])
    (hsorted : Sorted base.updates) {order : List (Nat × Nat)} (hnodup : order.Nodup)
    (horder : ∀ p, p ∈ order ↔ p ∈ s.2.own.removes) :
    ∃ rows' base', s.2.commit s.1 order = some (rows', base') ∧ base'.SameStaged d.2 ∧
      ∀ r, r ∉ gone → rows'.column r = d.1.column r := by
  obtain ⟨hv, hst⟩ := h
  have htable : s.1.table = table := hv.tableN
  obtain ⟨inserts, hinserts, hcount⟩ :=
    replayInserts s.1 s.2.base s.2.own.inserts.entries s.2.own.inserts.keyed
      (by
        intro e he
        rw [htable, hst.removes]
        exact hst.loose e he)
  have hsorted₁ : Sorted s.2.base.updates := by rwa [hv.updates]
  obtain ⟨rows', updates, hupdates, -, hsorted', hloose, hstored⟩ :=
    replayUpdates s.1 { s.2.base with inserts } s.2.own.updates hsorted₁
  obtain ⟨hreads, hsorted₂, hvalues, hcounts, hremoves⟩ :=
    replayRemoves { s.2.base with inserts, updates } order hnodup hsorted'
  have hgone : ∀ r, r ∈ order.map Prod.snd → r ∈ gone := by
    intro r hr
    obtain ⟨p, hp, rfl⟩ := List.mem_map.mp hr
    exact (hst.own p ((horder p).mp hp)).1
  have hcommit : s.2.commit s.1 order = some (rows', order.foldl
      (fun base r => base.removeRow r.1 r.2) { s.2.base with inserts, updates }) := by
    rw [TxnNested.commit, hinserts, Option.bind_eq_bind, Option.bind_some]
    simp only [hupdates]
    rfl
  refine ⟨rows', _, hcommit, ⟨?_, ?_, ?_, ?_⟩, ?_⟩
  · rw [hreads, hv.reads]
  · apply eq_of_values hsorted₂ hv.sortedD
    intro r
    rw [hvalues]
    by_cases hr : r ∈ gone
    · obtain ⟨hd, hown, hrest⟩ := hv.dropped r hr
      rw [hd]
      split
      · rfl
      · next hin =>
        -- the values of a row that the base has staged go with its removal
        have hempty : Multimap.values r base.updates = [] := by
          rcases hrest with ⟨t, ht⟩ | hempty
          · exact absurd (List.mem_map.mpr ⟨(t, r), (horder _).mpr ht, rfl⟩) hin
          · exact hempty
        by_cases htr : table r = none
        · rw [(hloose r (htable ▸ htr)).2, hv.updates, hempty]
        · rw [(hstored r (htable ▸ htr)).2, hv.updates, hempty, hown]
          rfl
    · rw [if_neg fun hin => hr (hgone r hin)]
      by_cases htr : table r = none
      · rw [(hloose r (htable ▸ htr)).2, hv.unstaged r htr, hv.updates, hbase r htr]
      · rw [(hstored r (htable ▸ htr)).2, hv.updates, hv.stored r hr htr]
  · apply Staged.perm_of_counts
    intro t r
    have hd := hst.counts t r
    rw [hcounts, hd, hcount, hst.inserts]
    simp only [horder]
  · ext ⟨t, r⟩
    rw [hremoves, hst.removesD, Finset.mem_union, Finset.mem_filter, horder, hst.removes]
    have hiff : (t, r) ∈ s.2.own.removes → (Staged.entry keyOf t r ∉ inserts.entries ↔
        Staged.entry keyOf t r ∉ base.inserts.entries) := by
      intro hp
      have hout := List.count_eq_zero.mpr (hst.own _ hp).2
      rw [← List.count_eq_zero, ← List.count_eq_zero, hcount, hst.inserts, hout, Nat.add_zero]
    constructor
    · rintro (hb | ⟨hp, hout⟩)
      · exact .inl hb
      · exact .inr ⟨hp, (hiff hp).mp hout⟩
    · rintro (hb | ⟨hp, hout⟩)
      · exact .inl hb
      · exact .inr ⟨hp, (hiff hp).mpr hout⟩
  · intro r hr
    by_cases htr : table r = none
    · rw [(hloose r (htable ▸ htr)).1, hv.loose r hr htr]
    · rw [(hstored r (htable ▸ htr)).1, hv.inTable r htr]

section Abort

variable {keyOf : Nat → K} {s s' : Rows V × TxnNested keyOf V}

/-- Until it commits, a nested transaction leaves in its base only reads, and writes only the rows
that it has inserted. -/
theorem TxnNested.exec_base {op : TxnOp V} {out : Option V}
    (h : TxnNested.exec s op = some (s', out)) :
    s'.2.base = { s.2.base with reads := s'.2.base.reads } ∧
      s.2.base.reads.Sublist s'.2.base.reads ∧
      ∀ r, r ∉ s.2.rowInserts → (∀ tbl, op ≠ .insertRow tbl r) →
        r ∉ s'.2.rowInserts ∧ s'.1.column r = s.1.column r := by
  cases op with
  | readColumn row col =>
    obtain ⟨rfl, -⟩ := Prod.mk.inj (Option.some.inj h)
    simp only [TxnNested.readColumn]
    split
    · exact ⟨rfl, List.Sublist.refl _, fun r hr _ => ⟨hr, trivial⟩⟩
    · split
      · exact ⟨rfl, List.Sublist.refl _, fun r hr _ => ⟨hr, trivial⟩⟩
      · simp only [Txn2PL.readColumn]
        split
        · exact ⟨rfl, List.Sublist.refl _, fun r hr _ => ⟨hr, trivial⟩⟩
        · split
          · exact ⟨rfl, List.Sublist.refl _, fun r hr _ => ⟨hr, trivial⟩⟩
          · exact ⟨rfl, sublist_insert _ _, fun r hr _ => ⟨hr, trivial⟩⟩
  | writeColumn row col v =>
    obtain ⟨rfl, -⟩ := Prod.mk.inj (Option.some.inj h)
    simp only [TxnNested.writeColumn]
    split
    · next hin =>
      refine ⟨rfl, List.Sublist.refl _, fun r hr _ => ⟨hr, ?_⟩⟩
      have hne : r ≠ row := by
        rintro rfl
        exact hr hin
      exact s.1.column_update_of_ne hne col v
    · exact ⟨rfl, List.Sublist.refl _, fun r hr _ => ⟨hr, rfl⟩⟩
  | insertRow tbl row =>
    obtain ⟨n, hn, h⟩ := Option.map_eq_some_iff.mp h
    obtain ⟨rfl, -⟩ := Prod.mk.inj h
    obtain ⟨own, -, hn⟩ := Option.bind_eq_some_iff.mp hn
    obtain rfl := Option.some.inj hn
    refine ⟨rfl, List.Sublist.refl _, fun r hr hne => ⟨?_, rfl⟩⟩
    rw [Finset.mem_insert, not_or]
    refine ⟨?_, hr⟩
    rintro rfl
    exact hne tbl rfl
  | removeRow tbl row =>
    obtain ⟨rfl, -⟩ := Prod.mk.inj (Option.some.inj h)
    refine ⟨rfl, List.Sublist.refl _, fun r hr _ => ⟨?_, rfl⟩⟩
    simp only [TxnNested.removeRow]
    split
    · exact fun hin => hr (Finset.mem_of_mem_erase hin)
    · exact hr

theorem TxnNested.run_base {ops : List (TxnOp V)} {outs : List (Option V)}
    (h : runOps TxnNested.exec s ops = some (s', outs)) :
    s'.2.base = { s.2.base with reads := s'.2.base.reads } ∧
      s.2.base.reads.Sublist s'.2.base.reads ∧
      ∀ r, r ∉ s.2.rowInserts → (∀ tbl, .insertRow tbl r ∉ ops) →
        s'.1.column r = s.1.column r := by
  induction ops generalizing s outs with
  | nil =>
    obtain ⟨rfl, -⟩ := Prod.mk.inj (Option.some.inj h)
    exact ⟨rfl, List.Sublist.refl _, fun r _ _ => rfl⟩
  | cons op ops ih =>
    obtain ⟨⟨s₁, out⟩, h₁, h⟩ := Option.bind_eq_some_iff.mp h
    obtain ⟨⟨s₂, outs₂⟩, h₂, h⟩ := Option.map_eq_some_iff.mp h
    obtain ⟨rfl, -⟩ := Prod.mk.inj h
    obtain ⟨hb₁, hr₁, hc₁⟩ := TxnNested.exec_base h₁
    obtain ⟨hb₂, hr₂, hc₂⟩ := ih h₂
    refine ⟨?_, hr₁.trans hr₂, ?_⟩
    · rw [hb₂, hb₁]
    · intro r hr hops
      obtain ⟨hr', hcolumn⟩ := hc₁ r hr fun tbl he => hops tbl (he ▸ List.mem_cons_self)
      rw [hc₂ r hr' fun tbl hin => hops tbl (List.mem_cons_of_mem op hin), hcolumn]

end Abort

/-- A nested transaction that inserts rows before it writes them reads what its calls would read in
the base. Its commit stages the same in the base, in whatever order the removals come, and leaves
the same in the rows that are not removed; when it aborts the base has more reads at most. -/
theorem nested_transparent {keyOf : Nat → K} {rows₀ rows : Rows V} {base : Txn2PL keyOf V}
    {ops₀ ops : List (TxnOp V)} {outs₀ : List (Option V)}
    (hbase : runOps Txn2PL.exec (rows₀, {}) ops₀ = some ((rows, base), outs₀))
    (hremoved : removedOnce [] (ops₀ ++ ops) = true) (hinserted : insertedFirst [] [] ops = true) :
    (runOps Txn2PL.exec (rows, base) ops = none ∧
      runOps TxnNested.exec (rows, { base }) ops = none) ∨
    ∃ d s outs, runOps Txn2PL.exec (rows, base) ops = some (d, outs) ∧
      runOps TxnNested.exec (rows, { base }) ops = some (s, outs) ∧
      (∀ order : List (Nat × Nat), order.Nodup → (∀ p, p ∈ order ↔ p ∈ s.2.own.removes) →
        ∃ rows' base', s.2.commit s.1 order = some (rows', base') ∧ base'.SameStaged d.2 ∧
          ∀ r, (∀ tbl, .removeRow tbl r ∉ ops₀ ++ ops) → rows'.column r = d.1.column r) ∧
      s.2.abort = { base with reads := s.2.abort.reads } ∧
      base.reads.Sublist s.2.abort.reads ∧
      ∀ r, (∀ tbl, .insertRow tbl r ∉ ops) → s.1.column r = rows.column r := by
  obtain ⟨hvalid, hlater⟩ := (Txn2PL.Valid.init rows₀.table).run hremoved hbase
  rcases (Mirror.init hvalid).run hvalid.loose hlater hinserted with hnone | ⟨d, s, outs, inserted,
    written, hd, hs, hmirror⟩
  · exact .inl hnone
  · obtain ⟨habort, hreads, hcolumns⟩ := TxnNested.run_base hs
    refine .inr ⟨d, s, outs, hd, hs, ?_, habort, hreads, fun r hr => hcolumns r (by simp) hr⟩
    intro order hnodup horder
    obtain ⟨rows', base', hcommit, hsame, hrows⟩ :=
      hmirror.commit hvalid.loose hvalid.sorted hnodup horder
    refine ⟨rows', base', hcommit, hsame, ?_⟩
    intro r hr
    apply hrows
    intro hgone
    rcases mem_goneAfter hgone with hgone | ⟨tbl, hin⟩
    · rcases mem_goneAfter hgone with hgone | ⟨tbl, hin⟩
      · cases hgone
      · exact hr tbl (List.mem_append_left ops hin)
    · exact hr tbl (List.mem_append_right ops₀ hin)

def looseRow : Rows Nat where
  column := fun _ _ => 0
  table := fun r => if r = 1 then some 7 else none

theorem nested_transparent_twoRows :
    ∃ (d : Rows Nat × Txn2PL (fun r : Nat => r) Nat)
      (s : Rows Nat × TxnNested (fun r : Nat => r) Nat) (outs : List (Option Nat)),
      runOps Txn2PL.exec (looseRow, { updates := [(1, (0, 5))] })
        [.insertRow 7 2, .writeColumn 2 0 3, .readColumn 1 0, .removeRow 7 1] = some (d, outs) ∧
      runOps TxnNested.exec (looseRow, { base := { updates := [(1, (0, 5))] } })
        [.insertRow 7 2, .writeColumn 2 0 3, .readColumn 1 0, .removeRow 7 1] = some (s, outs) ∧
      s.2.abort.updates = [(1, (0, 5))] := by
  have hbase : runOps Txn2PL.exec (looseRow, ({} : Txn2PL (fun r : Nat => r) Nat))
      [.writeColumn 1 0 5] = some ((looseRow, { updates := [(1, (0, 5))] }), [none]) := rfl
  have hremoved : removedOnce [] ([TxnOp.writeColumn 1 0 5] ++
      [.insertRow 7 2, .writeColumn 2 0 3, .readColumn 1 0, .removeRow 7 1]) = true := rfl
  rcases nested_transparent hbase hremoved rfl with ⟨hd, -⟩ | ⟨d, s, outs, hd, hs, -, habort, -⟩
  · cases hd
  · refine ⟨d, s, outs, hd, hs, ?_⟩
    rw [habort]

/-- A row written before it is inserted reads as it was, and an abort leaves the read in the base. -/
theorem nested_not_transparent :
    ((runOps Txn2PL.exec (looseRow, ({} : Txn2PL (fun r => r) Nat))
        [.writeColumn 2 0 5, .insertRow 7 2, .readColumn 2 0]).map fun x => x.2) =
      some [none, none, some 5] ∧
    ((runOps TxnNested.exec (looseRow, { base := ({} : Txn2PL (fun r => r) Nat) })
        [.writeColumn 2 0 5, .insertRow 7 2, .readColumn 2 0]).map fun x => x.2) =
      some [none, none, some 0] ∧
    ((runOps TxnNested.exec (looseRow, { base := ({} : Txn2PL (fun r => r) Nat) })
        [.readColumn 1 0]).map fun x => x.1.2.abort.reads) = some [(1, 0)] :=
  ⟨rfl, rfl, rfl⟩

end Jetpack.Memdb
