import Jetpack.Library.Transition
import Jetpack.Rows.Filed

/-! Over any run of a table, filed rows are found by their keys, as long as the conditions of
`Op.Safe` are met. A string outside the key that changes its length takes the key's buffer away. -/

namespace Jetpack.Rows

open Comparing Transition

namespace SortedTable

variable {t t' : SortedTable} {i c : Nat} {v : Value}

/-- A filed row keeps its place when its key is written, and keeps the buffer of its key when
another column is. -/
def Op.Safe (t : SortedTable) : Op → Prop
  | .insert i => ∀ (o : Object) (key : List (List Byte)), t.objects[i]? = some o →
      o.row.keyContents = some key → t.CanFile i key
  | .update i c v => (∃ e ∈ t.rows, e.row = i) → ∀ (o : Object) (info : ColumnInfo),
      t.objects[i]? = some o → o.row.schema.colInfo[c]? = some info →
      (info.indexed = true → ∀ key, o.row.keyContentsWith c v = some key → t.CanFile i key) ∧
      (info.indexed = false → o.row.Resizes c v → .str ∉ t.keyKinds)
  | .create _ | .remove _ | .removeKey _ | .removeCursor _ _ => True

theorem CanFile.mono {key : List (List Byte)} (h : t.CanFile i key) (hschema : t'.schema = t.schema)
    (hrows : t'.rows ⊆ t.rows) (hobjects : ∀ j, j ≠ i → t'.objects[j]? = t.objects[j]?) :
    t'.CanFile i key := by
  obtain ⟨hshort, hweak⟩ := h
  refine ⟨hshort, ?_⟩
  rw [keyKinds, hschema]
  apply hweak.mono
  rintro k (rfl | hk)
  · exact Or.inl rfl
  · obtain ⟨e, he, hkey⟩ := List.mem_filterMap.mp hk
    obtain ⟨hmem, hne⟩ := List.mem_filter.mp he
    rw [hobjects e.row (of_decide_eq_true hne)] at hkey
    exact Or.inr (List.mem_filterMap.mpr ⟨e, List.mem_filter.mpr ⟨hrows hmem, hne⟩, hkey⟩)

theorem insert_inTable (hi : t.insert i = some t') :
    ∃ o, t.objects[i]? = some o ∧ o.inTable = false := by
  obtain ⟨o, ho, hi⟩ := Option.bind_eq_some_iff.mp hi
  obtain ⟨_, -, hi⟩ := Option.bind_eq_some_iff.mp hi
  obtain ⟨_, -, hi⟩ := Option.bind_eq_some_iff.mp hi
  obtain ⟨_, hguard, -⟩ := Option.bind_eq_some_iff.mp hi
  refine ⟨o, ho, ?_⟩
  by_contra hne
  simp [guard, hne] at hguard

theorem Inv.removeRow_none (h : t.Inv) (hi : t.removeRow i = some t') :
    t'.schema = t.schema ∧ t'.rows.Sublist t.rows ∧ (∀ e ∈ t'.rows, e.row ≠ i) ∧
      (∀ j, j ≠ i → t'.objects[j]? = t.objects[j]?) ∧
      ∃ o o', t.objects[i]? = some o ∧ t'.objects[i]? = some o' ∧ o'.row = o.row ∧
        ((∃ e ∈ t.rows, e.row = i) ∨ o'.inTable = o.inTable) := by
  obtain ⟨o, ho, ⟨hfiled, rfl⟩ | ⟨hnone, rfl⟩⟩ := h.removeRow hi
  · have hlt := (List.getElem?_eq_some_iff.mp ho).1
    refine ⟨rfl, List.eraseP_sublist, h.erase_ne, fun j hj => List.getElem?_set_ne (Ne.symm hj), o, _,
      ho, List.getElem?_set_self hlt, rfl, Or.inl hfiled⟩
  · exact ⟨rfl, List.Sublist.refl _, hnone, fun _ _ => rfl, o, o, ho, ho, rfl, Or.inr rfl⟩

theorem Inv.create (h : t.Inv) {values : List Value} (hc : t.step (.create values) = some t') :
    t'.Inv := by
  obtain ⟨r, hr, rfl⟩ := Option.map_eq_some_iff.mp hc
  obtain ⟨hschema, hstores, part, idx, hvar⟩ := Row.exists_stores h.built.packed hr
  refine h.restrict rfl ?_ (List.Sublist.refl _) ?_
  · intro j o ho
    rcases List.mem_append.mp (List.mem_of_getElem? ho) with hmem | hmem
    · obtain ⟨k, hk⟩ := List.getElem?_of_mem hmem
      exact h.objects k o hk
    · rw [List.mem_singleton.mp hmem]
      refine ⟨hschema, hstores, ?_⟩
      intro strs hsparse
      rw [hvar] at hsparse
      cases hsparse
  · intro e _ o bytes ho hin hk _
    have hlt := (List.getElem?_eq_some_iff.mp ho).1
    exact ⟨o, (List.getElem?_append_left hlt).trans ho, hin, hk⟩

/-- A column outside the key is written while the row is filed. -/
theorem Inv.writeFiled (h : t.Inv) {o o' : Object} {info : ColumnInfo} (ho : t.objects[i]? = some o)
    (hinfo : o.row.schema.colInfo[c]? = some info) (htype : info.type = v.kind)
    (hw : o.write info c v = some o') (hindexed : info.indexed = false)
    (hkeep : o.row.Resizes c v → .str ∉ t.keyKinds) :
    ({ t with objects := t.objects.set i o' } : SortedTable).Inv := by
  have hok := h.objects i o ho
  obtain ⟨hok', hin', -⟩ := hok.write hinfo htype hw
  have hlt := (List.getElem?_eq_some_iff.mp ho).1
  have hc : c ∉ o.row.schema.keyColsId := by
    rw [hok.schema_eq] at hinfo ⊢
    intro hmem
    obtain ⟨info', hinfo', hmarked⟩ := h.built.keysIndexed c hmem
    obtain rfl : info = info' := Option.some.inj (hinfo.symm.trans hinfo')
    rw [hindexed] at hmarked
    cases hmarked
  have hstr : o.row.Resizes c v → ∀ k ∈ o.row.schema.keyColsId, ∀ ki,
      o.row.schema.colInfo[k]? = some ki → ki.type ≠ .str := by
    intro hres k hk ki hki heq
    rw [hok.schema_eq] at hk hki
    apply hkeep hres
    refine List.mem_filterMap.mpr ⟨k, hk, ?_⟩
    rw [hki, Option.map_some, heq]
  refine h.restrict rfl ?_ (List.Sublist.refl _) ?_
  · intro j x hx
    by_cases hj : j = i
    · rw [hj, List.getElem?_set_self hlt] at hx
      cases hx
      exact hok'
    · rw [List.getElem?_set_ne (Ne.symm hj)] at hx
      exact h.objects j x hx
  · intro e _ x bytes hx hin hk hshort
    by_cases hj : e.row = i
    · rw [hj] at hx ⊢
      obtain rfl : o = x := Option.some.inj (ho.symm.trans hx)
      exact ⟨o', List.getElem?_set_self hlt, hin'.trans hin,
        hok.write_hasKey hinfo htype hw hk hshort hc hstr⟩
    · exact ⟨x, (List.getElem?_set_ne (Ne.symm hj)).trans hx, hin, hk⟩

/-- The row is taken out, written, and filed under its new key. -/
theorem Inv.refile (h : t.Inv) {o : Object} {info : ColumnInfo} (ho : t.objects[i]? = some o)
    (hinfo : o.row.schema.colInfo[c]? = some info) (htype : info.type = v.kind)
    (hin : o.inTable = true) {t₁ t₂ : SortedTable} (hremove : t.removeRow i = some t₁)
    (hwrite : t₁.write i info c v = some t₂) (hinsert : t₂.insert i = some t')
    (hcan : (∃ e ∈ t.rows, e.row = i) → ∀ key, o.row.keyContentsWith c v = some key →
      t.CanFile i key) : t'.Inv := by
  have h₁ := h.removeRow_inv hremove
  obtain ⟨hschema, hrows, hnone, hothers, o₀, o₁, ho₀, ho₁, hrow, hfiled⟩ := h.removeRow_none hremove
  obtain rfl : o = o₀ := Option.some.inj (ho.symm.trans ho₀)
  obtain ⟨x, hx, hwrite⟩ := Option.bind_eq_some_iff.mp hwrite
  obtain rfl : o₁ = x := Option.some.inj (ho₁.symm.trans hx)
  obtain ⟨o₂, hw, hwrite⟩ := Option.bind_eq_some_iff.mp hwrite
  cases hwrite
  have hok₁ := h₁.objects i o₁ ho₁
  obtain ⟨hok₂, hin₂, -⟩ := hok₁.write (hrow ▸ hinfo) htype hw
  have hlt := (List.getElem?_eq_some_iff.mp ho₁).1
  have hself : (t₁.objects.set i o₂)[i]? = some o₂ := List.getElem?_set_self hlt
  have hplaced : ∃ e ∈ t.rows, e.row = i := by
    obtain ⟨y, hy, hout⟩ := insert_inTable hinsert
    obtain rfl : o₂ = y := Option.some.inj (hself.symm.trans hy)
    rcases hfiled with hfiled | hsame
    · exact hfiled
    · rw [hin₂, hsame, hin] at hout
      cases hout
  refine (h₁.setObject hok₂ (List.Sublist.refl _) hnone).insert hinsert ?_
  intro y key hy hkey
  obtain rfl : o₂ = y := Option.some.inj (hself.symm.trans hy)
  rw [hok₁.write_keyContents (hrow ▸ hinfo) htype hw, hrow] at hkey
  refine (hcan hplaced key hkey).mono hschema hrows.subset ?_
  intro j hj
  exact (List.getElem?_set_ne (Ne.symm hj)).trans (hothers j hj)

theorem Inv.update (h : t.Inv) (hu : t.update i c v = some t') (hsafe : Op.Safe t (.update i c v)) :
    t'.Inv := by
  obtain ⟨o, ho, hu⟩ := Option.bind_eq_some_iff.mp hu
  obtain ⟨info, hinfo, hu⟩ := Option.bind_eq_some_iff.mp hu
  obtain ⟨_, hguard, hu⟩ := Option.bind_eq_some_iff.mp hu
  have htype : info.type = v.kind := by
    by_contra hne
    simp [guard, hne] at hguard
  split at hu
  · cases hu
    exact h
  split at hu
  · next hboth =>
    obtain ⟨hindexed, hin⟩ := Bool.and_eq_true_iff.mp hboth
    obtain ⟨t₁, hremove, hu⟩ := Option.bind_eq_some_iff.mp hu
    obtain ⟨t₂, hwrite, hinsert⟩ := Option.bind_eq_some_iff.mp hu
    exact h.refile ho hinfo htype hin hremove hwrite hinsert
      fun hfiled => (hsafe hfiled o info ho hinfo).1 hindexed
  · next hboth =>
    obtain ⟨x, hx, hu⟩ := Option.bind_eq_some_iff.mp hu
    obtain rfl : o = x := Option.some.inj (ho.symm.trans hx)
    obtain ⟨o', hw, hu⟩ := Option.bind_eq_some_iff.mp hu
    cases hu
    by_cases hfiled : ∃ e ∈ t.rows, e.row = i
    · have hindexed : info.indexed = false := by
        obtain ⟨e, he, rfl⟩ := hfiled
        obtain ⟨y, -, hy, hin, -⟩ := h.filed e he
        obtain rfl : o = y := Option.some.inj (ho.symm.trans hy)
        rw [hin, Bool.and_true] at hboth
        exact Bool.eq_false_iff.mpr hboth
      exact h.writeFiled ho hinfo htype hw hindexed ((hsafe hfiled o info ho hinfo).2 hindexed)
    · have hok' := ((h.objects i o ho).write hinfo htype hw).1
      exact h.setObject hok' (List.Sublist.refl _) fun e he heq => hfiled ⟨e, he, heq⟩

theorem Inv.removeKey (h : t.Inv) {key : List (List Byte)} (hr : t.removeKey key = some t') :
    t'.Inv := by
  obtain ⟨_, -, hr⟩ := Option.bind_eq_some_iff.mp hr
  obtain ⟨view, hview, hr⟩ := Option.bind_eq_some_iff.mp hr
  obtain rfl : view = t.rows.map t.pair := Option.some.inj (hview.symm.trans h.view)
  cases hr
  apply h.sublist
  have hsub : (before t.lessEntry (probe key) (t.rows.map t.pair) ++
      after t.lessEntry (probe key) (t.rows.map t.pair)).Sublist (t.rows.map t.pair) := by
    have hall := append_range t.lessEntry (probe key) (t.rows.map t.pair)
    have hbehind := List.sublist_append_right (range t.lessEntry (probe key) (t.rows.map t.pair))
      (after t.lessEntry (probe key) (t.rows.map t.pair))
    have hkept := hbehind.append_left (before t.lessEntry (probe key) (t.rows.map t.pair))
    rwa [hall] at hkept
  have hrows := hsub.map Prod.snd
  rwa [map_snd_pair] at hrows

theorem Inv.removeCursor (h : t.Inv) {first last : Nat} (hr : t.removeCursor first last = some t') :
    t'.Inv := by
  unfold SortedTable.removeCursor at hr
  split at hr
  · next hle =>
    cases hr
    apply h.sublist
    have hdrop : (t.rows.drop last).Sublist (t.rows.drop first) := by
      have hsplit : last = first + (last - first) := by omega
      rw [hsplit, ← List.drop_drop]
      exact List.drop_sublist _ _
    have hsub := hdrop.append_left (t.rows.take first)
    rwa [List.take_append_drop] at hsub
  · cases hr

theorem Inv.step (h : t.Inv) {op : Op} (hsafe : op.Safe t) (hop : t.step op = some t') : t'.Inv := by
  cases op with
  | create values => exact h.create hop
  | insert i => exact h.insert hop hsafe
  | remove i => exact h.removeRow_inv hop
  | removeKey key => exact h.removeKey hop
  | removeCursor first last => exact h.removeCursor hop
  | update i c v => exact h.update hop hsafe

theorem Inv.new {schema : Schema} (hs : schema.Built) : Inv { schema := schema } := by
  refine ⟨hs, ?_, ?_, List.nodup_nil, List.Pairwise.nil, ?_⟩
  · intro i o ho
    cases ho
  · intro e he
    cases he
  · rintro a b c ⟨e, he, -⟩
    cases he

/-- Rows stay findable under their keys in every run of safe operations. -/
theorem coherent_of_safe {schema : Schema} (hs : schema.Built) {t : SortedTable}
    (h : ReachableWhere step (fun t op => op.Safe t) { schema := schema } t) : t.Coherent := by
  have hinv : t.Inv := h.invariant (fun _ _ _ hi hsafe hop => hi.step hsafe hop) (Inv.new hs)
  exact hinv.coherent

/-- A row under its number gets a longer name. -/
theorem coherent_of_safe_renamed :
    Coherent ⟨named, [⟨⟨named, [7, 0, 0, 0], .sparse [[97, 98, 99]]⟩, [0], true⟩],
      [⟨[⟨.fixed, 0, 4⟩], 0⟩]⟩ := by
  refine coherent_of_safe named_built (.tail (.tail (.single ⟨.create [.i32 7, .str [97, 98]], trivial,
    rfl⟩) ⟨.insert 0, ?_, rfl⟩) ⟨.update 0 1 (.str [97, 98, 99]), ?_, rfl⟩)
  · intro o key ho hkey
    cases ho
    cases hkey
    refine ⟨by decide, weakOn_of_comparable ?_⟩
    rintro k (rfl | hk)
    · exact .cons (fun hkind => by cases hkind) .nil
    · cases hk
  · intro _ o info ho hinfo
    cases ho
    cases hinfo
    constructor
    · intro hindexed
      cases hindexed
    · intro _ _
      decide

def noted : Schema where
  colInfo := [⟨0, "key", true, .str, 0⟩, ⟨1, "note", false, .str, 1⟩]
  keyColsId := [0]
  varSizeCols := 2

theorem noted_built : noted.Built := by
  have hkey : Schema.addColumn {} "key" .str true =
      some (0, ⟨[⟨0, "key", true, .str, 0⟩], [0], 1, 0, 0, 0, false⟩) := rfl
  have hnote : Schema.addColumn ⟨[⟨0, "key", true, .str, 0⟩], [0], 1, 0, 0, 0, false⟩
      "note" .str false = some (1, noted) := rfl
  exact .addColumn (.addColumn .new hkey) hnote

/-- After a longer note the table still files the row under the buffer that was released. -/
theorem not_coherent_noted : ¬ ∀ schema : Schema, schema.Built → ∀ t : SortedTable,
    Reachable step { schema := schema } t → t.Coherent := by
  intro hall
  have hrun : (runWhere step (fun _ _ => True) { schema := noted }
      [.create [.str [97], .str [98]], .insert 0, .update 0 1 (.str [98, 98])]).any
      (fun t => t.rows.any fun e => (t.objects[e.row]?.bind Object.getKey) ≠ some e.key) = true := by
    decide
  obtain ⟨t, hreach, hstale⟩ := exists_reachableWhere hrun
  obtain ⟨e, he, hne⟩ := List.any_eq_true.mp hstale
  obtain ⟨o, key, ho, hkey, -⟩ := (hall noted noted_built t hreach).filed e he
  rw [ho, Option.bind_some, hkey] at hne
  simp at hne

end SortedTable

end Jetpack.Rows
