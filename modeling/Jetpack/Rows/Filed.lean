import Jetpack.Rows.Objects

/-! Filed rows stay findable as long as no update takes the buffer of their keys away and their
keys can be ordered. -/

namespace Jetpack.Rows

open Comparing

def Row.keyContents (r : Row) : Option (List (List Byte)) := r.schema.keyColsId.mapM r.content

def Row.keyContentsWith (r : Row) (c : Nat) (v : Value) : Option (List (List Byte)) :=
  r.schema.keyColsId.mapM fun k => if k = c then some v.bytes else r.content k

/-- The object's key refers to these bytes. -/
def Object.HasKey (o : Object) (key : List BlobRef) (bytes : List (List Byte)) : Prop :=
  o.getKey = some key ∧ o.readKey key = some bytes ∧ o.row.keyContents = some bytes

namespace Object.Ok

variable {schema : Schema} {o o' : Object} {info : ColumnInfo} {c : Nat} {v : Value}
  {key : List BlobRef} {bytes : List (List Byte)}

theorem hasKey (h : o.Ok schema) (hb : o.row.keyContents = some bytes)
    (hshort : ∀ bs ∈ bytes, bs.length < 2 ^ 31) : ∃ key, o.HasKey key bytes := by
  have hread : ∀ k ∈ o.row.schema.keyColsId, (o.getBlobRef k).bind o.read = o.row.content k := by
    intro k hk
    obtain ⟨bs, hbs, hcontent⟩ := mapM_mem hb hk
    rw [hcontent]
    exact h.read_content hcontent (hshort bs hbs)
  have href : ∀ k ∈ o.row.schema.keyColsId, o.getBlobRef k = some ((o.getBlobRef k).getD ⟨.fixed, 0, 0⟩) := by
    intro k hk
    obtain ⟨bs, -, hcontent⟩ := mapM_mem hb hk
    have hsome := (hread k hk).trans hcontent
    obtain ⟨ref, hget, -⟩ := Option.bind_eq_some_iff.mp hsome
    rw [hget]
    rfl
  have hkey : o.getKey = some (o.row.schema.keyColsId.map fun k =>
      (o.getBlobRef k).getD ⟨.fixed, 0, 0⟩) := mapM_eq_some href
  refine ⟨_, hkey, ?_, hb⟩
  rw [readKey, mapM_mapM hkey, mapM_congr hread]
  exact hb

theorem write_hasKey (h : o.Ok schema) (hinfo : o.row.schema.colInfo[c]? = some info)
    (htype : info.type = v.kind) (hw : o.write info c v = some o') (hk : o.HasKey key bytes)
    (hshort : ∀ bs ∈ bytes, bs.length < 2 ^ 31) (hc : c ∉ o.row.schema.keyColsId)
    (hkeep : o.row.Resizes c v → ∀ k ∈ o.row.schema.keyColsId, ∀ ki,
      o.row.schema.colInfo[k]? = some ki → ki.type ≠ .str) : o'.HasKey key bytes := by
  obtain ⟨hok, -, -, hothers⟩ := h.write hinfo htype hw
  have hschema : o'.row.schema = o.row.schema := hok.schema_eq.trans h.schema_eq.symm
  have hne : ∀ k ∈ o.row.schema.keyColsId, k ≠ c := fun k hk heq => hc (heq ▸ hk)
  have hrefs : o'.getKey = o.getKey := by
    rw [getKey, getKey, hschema]
    apply mapM_congr
    intro k hmem
    exact h.write_getBlobRef hinfo htype hw (hne k hmem)
      (fun ki hki hstr hres => hkeep hres k hmem ki hki hstr)
  have hcontents : o'.row.keyContents = some bytes := by
    rw [← hk.2.2, Row.keyContents, Row.keyContents, hschema]
    exact mapM_congr fun k hmem => hothers k (hne k hmem)
  obtain ⟨key', hkey', hread, -⟩ := hok.hasKey hcontents hshort
  obtain rfl : key' = key := Option.some.inj (hkey'.symm.trans (hrefs.trans hk.1))
  exact ⟨hkey', hread, hcontents⟩

theorem write_keyContents (h : o.Ok schema) (hinfo : o.row.schema.colInfo[c]? = some info)
    (htype : info.type = v.kind) (hw : o.write info c v = some o') :
    o'.row.keyContents = o.row.keyContentsWith c v := by
  obtain ⟨hok, -, hself, hothers⟩ := h.write hinfo htype hw
  rw [Row.keyContents, Row.keyContentsWith, hok.schema_eq.trans h.schema_eq.symm]
  apply mapM_congr
  intro k _
  by_cases hk : k = c
  · rw [if_pos hk, hk, hself]
  · rw [if_neg hk, hothers k hk]

end Object.Ok

theorem Object.Ok.exists_keyContents {schema : Schema} {o : Object} (h : o.Ok schema)
    (hs : schema.KeysIndexed) : ∃ bytes, o.row.keyContents = some bytes := by
  obtain ⟨vals, hv⟩ := h.stores
  have hcontent : ∀ k ∈ o.row.schema.keyColsId, o.row.content k = some ((o.row.content k).getD []) := by
    intro k hk
    rw [h.schema_eq] at hk
    obtain ⟨info, hinfo, -⟩ := hs k hk
    have hlt := (List.getElem?_eq_some_iff.mp hinfo).1
    have hlen := congrArg List.length hv.kinds
    rw [List.length_map, Schema.types, List.length_map, h.schema_eq] at hlen
    have hget : vals[k]? = some vals[k] := List.getElem?_eq_getElem (by omega)
    rw [hv.content hget]
    rfl
  exact ⟨_, mapM_eq_some hcontent⟩

namespace SortedTable

variable {t t' : SortedTable} {i : Nat}

def keysExcept (t : SortedTable) (i : Nat) : List (List (List Byte)) :=
  (t.rows.filter fun e => e.row ≠ i).filterMap fun e =>
    t.objects[e.row]?.bind fun o => o.row.keyContents

/-- Row `i` can be filed under this key: each part is short, and the keys can be ordered. -/
def CanFile (t : SortedTable) (i : Nat) (key : List (List Byte)) : Prop :=
  (∀ bs ∈ key, bs.length < 2 ^ 31) ∧
    WeakOn (less t.keyKinds) fun k => k = key ∨ k ∈ t.keysExcept i

def bytesOf (t : SortedTable) (e : Entry) : List (List Byte) := (t.keyOf e).getD []

def pair (t : SortedTable) (e : Entry) : List (List Byte) × Entry := (t.bytesOf e, e)

structure Inv (t : SortedTable) : Prop where
  built : t.schema.Built
  objects : ∀ (i : Nat) (o : Object), t.objects[i]? = some o → o.Ok t.schema
  filed : ∀ e ∈ t.rows, ∃ (o : Object) (bytes : List (List Byte)), t.objects[e.row]? = some o ∧ o.inTable = true ∧
    o.HasKey e.key bytes ∧ ∀ bs ∈ bytes, bs.length < 2 ^ 31
  once : (t.rows.map Entry.row).Nodup
  sorted : Sorted t.lessEntry (t.rows.map t.pair)
  weak : WeakOn (less t.keyKinds) fun key => ∃ e ∈ t.rows, t.bytesOf e = key

theorem keyOf_of {e : Entry} {o : Object} {bytes : List (List Byte)} (ho : t.objects[e.row]? = some o)
    (hk : o.HasKey e.key bytes) : t.keyOf e = some bytes := by
  rw [keyOf, ho]
  exact hk.2.1

theorem bytesOf_of {e : Entry} {o : Object} {bytes : List (List Byte)}
    (ho : t.objects[e.row]? = some o) (hk : o.HasKey e.key bytes) : t.bytesOf e = bytes := by
  rw [bytesOf, keyOf_of ho hk]
  rfl

theorem Inv.view (h : t.Inv) : t.view = some (t.rows.map t.pair) := by
  apply mapM_eq_some
  intro e he
  obtain ⟨o, bytes, ho, -, hk, -⟩ := h.filed e he
  rw [keyOf_of ho hk, pair, bytesOf_of ho hk]
  rfl

/-- Keys compare as the comparison of entries says. -/
theorem weakOn_entries {s : List (List Byte) × Entry → Prop} {u : List (List Byte) → Prop}
    (h : WeakOn (less t.keyKinds) u) (hsub : ∀ x, s x → u x.1) : WeakOn t.lessEntry s :=
  fun a b c ha hb hc => h a.1 b.1 c.1 (hsub a ha) (hsub b hb) (hsub c hc)

theorem map_pair_snd {l : List (List (List Byte) × Entry)} (h : ∀ x ∈ l, t.pair x.2 = x) :
    (l.map Prod.snd).map t.pair = l := by
  rw [List.map_map]
  exact (List.map_congr_left h).trans (List.map_id l)

theorem map_snd_pair (l : List Entry) : (l.map t.pair).map Prod.snd = l := by
  rw [List.map_map]
  exact List.map_id l

theorem Inv.query_finds (h : t.Inv) {e : Entry} (he : e ∈ t.rows) :
    ∃ found, t.query (t.bytesOf e) = some found ∧ e.row ∈ found := by
  obtain ⟨o, bytes, ho, -, hk, -⟩ := h.filed e he
  have hbytes := bytesOf_of ho hk
  have hlen : (t.bytesOf e).length = t.schema.keyColsId.length := by
    have hmap := hk.2.2
    rw [Row.keyContents, (h.objects _ o ho).schema_eq] at hmap
    rw [hbytes]
    exact length_mapM hmap
  have hmem : t.pair e ∈ t.rows.map t.pair := List.mem_map_of_mem he
  have hrange : t.pair e ∈ range t.lessEntry (probe (t.bytesOf e)) (t.rows.map t.pair) := by
    refine mem_range h.sorted (weakOn_entries h.weak ?_) hmem (less_self _ _) (less_self _ _)
    intro x hx
    rcases List.mem_cons.mp hx with rfl | hx
    · exact ⟨e, he, rfl⟩
    · obtain ⟨e', he', rfl⟩ := List.mem_map.mp hx
      exact ⟨e', he', rfl⟩
  refine ⟨(range t.lessEntry (probe (t.bytesOf e)) (t.rows.map t.pair)).map fun x => x.2.row, ?_,
    List.mem_map.mpr ⟨t.pair e, hrange, rfl⟩⟩
  simp only [query, guard, hlen, if_true, h.view, Option.pure_def, Option.bind_eq_bind,
    Option.bind_some]

theorem Inv.coherent (h : t.Inv) : t.Coherent := by
  refine ⟨fun e he => ?_, t.rows.map t.pair, h.view, h.sorted⟩
  obtain ⟨o, bytes, ho, -, hk, -⟩ := h.filed e he
  obtain ⟨found, hquery, hmem⟩ := h.query_finds he
  rw [bytesOf_of ho hk] at hquery
  exact ⟨o, bytes, ho, hk.1, hk.2.1, found, hquery, hmem⟩

theorem Inv.bytes_mem_keysExcept (h : t.Inv) {e : Entry} (he : e ∈ t.rows) (hne : e.row ≠ i) :
    t.bytesOf e ∈ t.keysExcept i := by
  obtain ⟨o, bytes, ho, -, hk, -⟩ := h.filed e he
  refine List.mem_filterMap.mpr ⟨e, List.mem_filter.mpr ⟨he, decide_eq_true hne⟩, ?_⟩
  rw [ho, bytesOf_of ho hk]
  exact hk.2.2

theorem Inv.restrict (h : t.Inv) (hschema : t'.schema = t.schema)
    (hobjects : ∀ (j : Nat) (o : Object), t'.objects[j]? = some o → o.Ok t.schema)
    (hrows : t'.rows.Sublist t.rows)
    (hfiled : ∀ e ∈ t'.rows, ∀ (o : Object) (bytes : List (List Byte)), t.objects[e.row]? = some o →
      o.inTable = true → o.HasKey e.key bytes → (∀ bs ∈ bytes, bs.length < 2 ^ 31) →
      ∃ o', t'.objects[e.row]? = some o' ∧ o'.inTable = true ∧ o'.HasKey e.key bytes) : t'.Inv := by
  have hkinds : t'.keyKinds = t.keyKinds := by rw [keyKinds, keyKinds, hschema]
  have hall : ∀ e ∈ t'.rows, ∃ (o' : Object) (bytes : List (List Byte)),
      t'.objects[e.row]? = some o' ∧ o'.inTable = true ∧ o'.HasKey e.key bytes ∧
      (∀ bs ∈ bytes, bs.length < 2 ^ 31) ∧ t'.bytesOf e = t.bytesOf e := by
    intro e he
    obtain ⟨o, bytes, ho, hin, hk, hshort⟩ := h.filed e (hrows.subset he)
    obtain ⟨o', ho', hin', hk'⟩ := hfiled e he o bytes ho hin hk hshort
    exact ⟨o', bytes, ho', hin', hk', hshort, (bytesOf_of ho' hk').trans (bytesOf_of ho hk).symm⟩
  have hpairs : t'.rows.map t'.pair = t'.rows.map t.pair := by
    apply List.map_congr_left
    intro e he
    obtain ⟨-, -, -, -, -, -, hsame⟩ := hall e he
    rw [pair, pair, hsame]
  refine ⟨hschema ▸ h.built, fun j o ho => hschema ▸ hobjects j o ho, ?_, h.once.sublist (hrows.map _),
    ?_, ?_⟩
  · intro e he
    obtain ⟨o', bytes, ho', hin', hk', hshort, -⟩ := hall e he
    exact ⟨o', bytes, ho', hin', hk', hshort⟩
  · have hless : t'.lessEntry = t.lessEntry := by
      funext a b
      rw [lessEntry, lessEntry, hkinds]
    rw [hpairs, hless]
    exact h.sorted.sublist (hrows.map _)
  · rw [hkinds]
    apply h.weak.mono
    rintro key ⟨e, he, rfl⟩
    obtain ⟨-, -, -, -, -, -, hsame⟩ := hall e he
    exact ⟨e, hrows.subset he, hsame.symm⟩

theorem Inv.insert (h : t.Inv) (hi : t.insert i = some t')
    (hcan : ∀ (o : Object) (key : List (List Byte)), t.objects[i]? = some o →
      o.row.keyContents = some key → t.CanFile i key) : t'.Inv := by
  obtain ⟨o, ho, hi⟩ := Option.bind_eq_some_iff.mp hi
  obtain ⟨key, hkey, hi⟩ := Option.bind_eq_some_iff.mp hi
  obtain ⟨bytes, hbytes, hi⟩ := Option.bind_eq_some_iff.mp hi
  obtain ⟨_, hguard, hi⟩ := Option.bind_eq_some_iff.mp hi
  obtain ⟨v, hv, hi⟩ := Option.bind_eq_some_iff.mp hi
  have hout : o.inTable = false := by
    by_contra hne
    simp [guard, hne] at hguard
  obtain rfl : v = t.rows.map t.pair := Option.some.inj (hv.symm.trans h.view)
  cases hi
  have hok := h.objects i o ho
  obtain ⟨contents, hcontents⟩ := hok.exists_keyContents h.built.keysIndexed
  obtain ⟨hshort, hweak⟩ := hcan o contents ho hcontents
  obtain ⟨key', hk⟩ := hok.hasKey hcontents hshort
  obtain rfl : key = key' := Option.some.inj (hkey.symm.trans hk.1)
  obtain rfl : bytes = contents := Option.some.inj (hbytes.symm.trans hk.2.1)
  have hne : ∀ e ∈ t.rows, e.row ≠ i := by
    rintro e he rfl
    obtain ⟨o', -, ho', hin, -⟩ := h.filed e he
    obtain rfl : o = o' := Option.some.inj (ho.symm.trans ho')
    rw [hout] at hin
    cases hin
  have hlt : i < t.objects.length := (List.getElem?_eq_some_iff.mp ho).1
  have hperm : (insertAfter t.lessEntry (bytes, (⟨key, i⟩ : Entry)) (t.rows.map t.pair)).Perm
      ((bytes, ⟨key, i⟩) :: t.rows.map t.pair) := insertAfter_perm _ _
  have hrows := hperm.map Prod.snd
  rw [List.map_cons, map_snd_pair] at hrows
  generalize hnew : ({ t with
      objects := t.objects.set i { o with inTable := true }
      rows := (insertAfter t.lessEntry (bytes, (⟨key, i⟩ : Entry)) (t.rows.map t.pair)).map
        Prod.snd } : SortedTable) = t'
  have hnewrows : t'.rows = (insertAfter t.lessEntry (bytes, (⟨key, i⟩ : Entry))
      (t.rows.map t.pair)).map Prod.snd := hnew ▸ rfl
  have hnewself : t'.objects[i]? = some { o with inTable := true } := by
    rw [← hnew]
    exact List.getElem?_set_self hlt
  have hnewother : ∀ j, j ≠ i → t'.objects[j]? = t.objects[j]? := by
    intro j hj
    rw [← hnew]
    exact List.getElem?_set_ne (Ne.symm hj)
  have hschema : t'.schema = t.schema := hnew ▸ rfl
  have hless : t'.lessEntry = t.lessEntry := by
    funext a b
    rw [lessEntry, lessEntry, keyKinds, keyKinds, hschema]
  have hbytesOf : ∀ e ∈ t.rows, t'.bytesOf e = t.bytesOf e := by
    intro e he
    rw [bytesOf, bytesOf, keyOf, keyOf, hnewother e.row (hne e he)]
  have hbytesNew : t'.bytesOf ⟨key, i⟩ = bytes := bytesOf_of (e := ⟨key, i⟩) hnewself hk
  have hmem : ∀ e, e ∈ t'.rows ↔ e = ⟨key, i⟩ ∨ e ∈ t.rows := by
    intro e
    rw [hnewrows, hrows.mem_iff, List.mem_cons]
  have hweak' : WeakOn (less t.keyKinds) fun k => k = bytes ∨ ∃ e ∈ t.rows, t.bytesOf e = k := by
    apply hweak.mono
    rintro k (rfl | ⟨e, he, rfl⟩)
    · exact Or.inl rfl
    · exact Or.inr (h.bytes_mem_keysExcept he (hne e he))
  refine ⟨hschema ▸ h.built, ?_, ?_, ?_, ?_, ?_⟩
  · intro j o' ho'
    rw [hschema]
    by_cases hj : j = i
    · rw [hj, hnewself] at ho'
      cases ho'
      exact ⟨hok.schema_eq, hok.stores, hok.times⟩
    · exact h.objects j o' ((hnewother j hj).symm.trans ho')
  · intro e he
    rcases (hmem e).mp he with rfl | he
    · exact ⟨_, bytes, hnewself, rfl, hk, hshort⟩
    · obtain ⟨o', bytes', ho', hin, hk', hs'⟩ := h.filed e he
      exact ⟨o', bytes', (hnewother e.row (hne e he)).trans ho', hin, hk', hs'⟩
  · rw [hnewrows, (hrows.map Entry.row).nodup_iff, List.map_cons, List.nodup_cons]
    refine ⟨?_, h.once⟩
    rintro hin
    obtain ⟨e, he, heq⟩ := List.mem_map.mp hin
    exact hne e he heq
  · have hpairs : t'.rows.map t'.pair =
        insertAfter t.lessEntry (bytes, (⟨key, i⟩ : Entry)) (t.rows.map t.pair) := by
      rw [hnewrows]
      apply map_pair_snd
      intro x hx
      rcases List.mem_cons.mp (hperm.mem_iff.mp hx) with rfl | hx
      · rw [pair, hbytesNew]
      · obtain ⟨e, he, rfl⟩ := List.mem_map.mp hx
        change (t'.bytesOf e, e) = (t.bytesOf e, e)
        rw [hbytesOf e he]
    rw [hpairs, hless]
    refine h.sorted.insertAfter (fun a b => less_asymm _ _ _) (weakOn_entries hweak' ?_)
    intro x hx
    rcases List.mem_cons.mp hx with rfl | hx
    · exact Or.inl rfl
    · obtain ⟨e, he, rfl⟩ := List.mem_map.mp hx
      exact Or.inr ⟨e, he, rfl⟩
  · rw [keyKinds, hschema]
    apply hweak'.mono
    rintro k ⟨e, he, rfl⟩
    rcases (hmem e).mp he with rfl | he
    · exact Or.inl hbytesNew
    · exact Or.inr ⟨e, he, (hbytesOf e he).symm⟩

/-- `remove(Row*)` takes exactly that row's entry, if there is one. -/
theorem Inv.removeRow (h : t.Inv) (hi : t.removeRow i = some t') :
    ∃ o, t.objects[i]? = some o ∧
      ((∃ e ∈ t.rows, e.row = i) ∧ t' = { t with
          objects := t.objects.set i { o with inTable := false }
          rows := t.rows.eraseP fun e => e.row = i } ∨
        (∀ e ∈ t.rows, e.row ≠ i) ∧ t' = t) := by
  obtain ⟨o, ho, hi₁⟩ := Option.bind_eq_some_iff.mp hi
  obtain ⟨key, hkey, hi₂⟩ := Option.bind_eq_some_iff.mp hi₁
  obtain ⟨bytes, hbytes, hi₃⟩ := Option.bind_eq_some_iff.mp hi₂
  obtain ⟨v, hv, hi₄⟩ := Option.bind_eq_some_iff.mp hi₃
  obtain rfl : v = t.rows.map t.pair := Option.some.inj (hv.symm.trans h.view)
  refine ⟨o, ho, ?_⟩
  have hsplit := congrArg (List.map Prod.snd)
    (append_range t.lessEntry (probe bytes) (t.rows.map t.pair))
  rw [List.map_append, List.map_append, map_snd_pair] at hsplit
  by_cases hfiled : ∃ e ∈ t.rows, e.row = i
  · obtain ⟨e, he, rfl⟩ := hfiled
    obtain ⟨o', bytes', ho', -, hk, -⟩ := h.filed e he
    obtain rfl : o = o' := Option.some.inj (ho.symm.trans ho')
    obtain rfl : key = e.key := Option.some.inj (hkey.symm.trans hk.1)
    obtain rfl : bytes = bytes' := Option.some.inj (hbytes.symm.trans hk.2.1)
    have hfound : e ∈ (range t.lessEntry (probe bytes) (t.rows.map t.pair)).map Prod.snd := by
      have hself : t.bytesOf e = bytes := bytesOf_of ho hk
      have hmem : t.pair e ∈ t.rows.map t.pair := List.mem_map_of_mem he
      have hlt : ∀ x : List (List Byte) × Entry, x.1 = bytes →
          t.lessEntry (t.pair e) x = false ∧ t.lessEntry x (t.pair e) = false := by
        intro x hx
        rw [lessEntry, lessEntry, pair, hself, hx]
        exact ⟨less_self _ _, less_self _ _⟩
      refine List.mem_map.mpr ⟨t.pair e, mem_range h.sorted (weakOn_entries h.weak ?_) hmem
        (hlt (probe bytes) rfl).1 (hlt (probe bytes) rfl).2, rfl⟩
      intro x hx
      rcases List.mem_cons.mp hx with rfl | hx
      · exact ⟨e, he, hself⟩
      · obtain ⟨e', he', rfl⟩ := List.mem_map.mp hx
        exact ⟨e', he', rfl⟩
    have hany : ((range t.lessEntry (probe bytes) (t.rows.map t.pair)).map Prod.snd).any
        (fun e' => decide (e'.row = e.row)) = true :=
      List.any_eq_true.mpr ⟨e, hfound, decide_eq_true rfl⟩
    -- the row has one entry, so none stands before the range
    have hbefore : ∀ e' ∈ (before t.lessEntry (probe bytes) (t.rows.map t.pair)).map Prod.snd,
        ¬ decide (e'.row = e.row) = true := by
      intro e' he' heq
      have honce := h.once
      rw [← hsplit, List.map_append, List.nodup_append] at honce
      refine honce.2.2 e'.row (List.mem_map_of_mem he') e.row ?_ (of_decide_eq_true heq)
      rw [List.map_append]
      exact List.mem_append_left _ (List.mem_map_of_mem hfound)
    have hrows : t.rows.eraseP (fun e' => decide (e'.row = e.row)) =
        (before t.lessEntry (probe bytes) (t.rows.map t.pair)).map Prod.snd ++
          (((range t.lessEntry (probe bytes) (t.rows.map t.pair)).map Prod.snd).eraseP
            (fun e' => decide (e'.row = e.row)) ++
            (after t.lessEntry (probe bytes) (t.rows.map t.pair)).map Prod.snd) := by
      have hleft := List.eraseP_append_left (p := fun e' => decide (e'.row = e.row)) (a := e)
        (decide_eq_true rfl) ((after t.lessEntry (probe bytes) (t.rows.map t.pair)).map Prod.snd)
        hfound
      nth_rewrite 1 [← hsplit]
      rw [List.eraseP_append_right _ hbefore, hleft]
    refine Or.inl ⟨⟨e, he, rfl⟩, ?_⟩
    rw [if_pos hany] at hi₄
    cases hi₄
    rw [hrows]
  · have hnone : ∀ e ∈ t.rows, e.row ≠ i := fun e he heq => hfiled ⟨e, he, heq⟩
    have hany : ((range t.lessEntry (probe bytes) (t.rows.map t.pair)).map Prod.snd).any
        (fun e' => decide (e'.row = i)) = false := by
      rw [List.any_eq_false]
      intro e he heq
      apply hnone e _ (of_decide_eq_true heq)
      rw [← hsplit]
      exact List.mem_append_right _ (List.mem_append_left _ he)
    refine Or.inr ⟨hnone, ?_⟩
    dsimp only at hi₄
    rw [hany, if_neg Bool.false_ne_true] at hi₄
    cases hi₄
    rfl

theorem Inv.setObject (h : t.Inv) {o : Object} (ho : o.Ok t.schema) {rows : List Entry}
    (hrows : rows.Sublist t.rows) (hnone : ∀ e ∈ rows, e.row ≠ i) :
    ({ t with objects := t.objects.set i o, rows := rows } : SortedTable).Inv := by
  refine h.restrict rfl ?_ hrows ?_
  · intro j o' ho'
    by_cases hj : j = i
    · subst hj
      have hlt : j < t.objects.length := by
        have := (List.getElem?_eq_some_iff.mp ho').1
        rwa [List.length_set] at this
      rw [List.getElem?_set_self hlt] at ho'
      cases ho'
      exact ho
    · rw [List.getElem?_set_ne (Ne.symm hj)] at ho'
      exact h.objects j o' ho'
  · intro e he o' bytes ho' hin hk _
    exact ⟨o', (List.getElem?_set_ne (Ne.symm (hnone e he))).trans ho', hin, hk⟩

theorem Inv.erase_ne (h : t.Inv) : ∀ e ∈ t.rows.eraseP (fun e => e.row = i), e.row ≠ i := by
  intro e he heq
  have hin : e ∈ t.rows := List.mem_of_mem_eraseP he
  obtain ⟨x, l₁, l₂, -, hx, hsplit, herase⟩ :=
    List.exists_of_eraseP (p := fun e => decide (e.row = i)) hin (decide_eq_true heq)
  rw [herase] at he
  have honce := h.once
  rw [hsplit, List.map_append, List.map_cons, List.nodup_middle, List.nodup_cons] at honce
  apply honce.1
  rw [of_decide_eq_true hx, ← heq, ← List.map_append]
  exact List.mem_map_of_mem he

theorem Inv.removeRow_inv (h : t.Inv) (hi : t.removeRow i = some t') : t'.Inv := by
  obtain ⟨o, ho, ⟨-, rfl⟩ | ⟨-, rfl⟩⟩ := h.removeRow hi
  · have hok := h.objects i o ho
    have hout : Object.Ok t.schema { o with inTable := false } :=
      ⟨hok.schema_eq, hok.stores, hok.times⟩
    exact h.setObject hout List.eraseP_sublist h.erase_ne
  · exact h

theorem Inv.sublist (h : t.Inv) {rows : List Entry} (hrows : rows.Sublist t.rows) :
    ({ t with rows := rows } : SortedTable).Inv :=
  h.restrict rfl h.objects hrows fun _ _ o _ ho hin hk _ => ⟨o, ho, hin, hk⟩

end SortedTable

end Jetpack.Rows
