import Jetpack.Memdb.Isolation

/-! Erasing the first match of a key, and the removal of a row from a table of snapshots. -/

namespace Jetpack.Memdb

open Multimap

variable {K V : Type}

/-- The erasing loop that stops after the first visible entry. -/
def markFirst (v : Nat) : List (K × VersionedValue V) → List (K × VersionedValue V)
  | [] => []
  | e :: es => if e.2.validAt v then (e.1, e.2.remove (v + 1)) :: es else e :: markFirst v es

section MarkFirst

variable {u v : Nat} {l : List (K × VersionedValue V)}

theorem mem_markFirst {e : K × VersionedValue V} (he : e ∈ markFirst u l) :
    ∃ x ∈ l, e = x ∨ e = (x.1, x.2.remove (u + 1)) := by
  induction l with
  | nil => cases he
  | cons x l ih =>
    rw [markFirst] at he
    split at he
    · rcases List.mem_cons.mp he with rfl | hin
      · exact ⟨x, List.mem_cons_self, .inr rfl⟩
      · exact ⟨e, List.mem_cons_of_mem x hin, .inl rfl⟩
    · rcases List.mem_cons.mp he with rfl | hin
      · exact ⟨e, List.mem_cons_self, .inl rfl⟩
      · obtain ⟨y, hy, hcase⟩ := ih hin
        exact ⟨y, List.mem_cons_of_mem x hy, hcase⟩

theorem markFirst_keys : (markFirst u l).map Prod.fst = l.map Prod.fst := by
  induction l with
  | nil => rfl
  | cons x l ih =>
    rw [markFirst]
    split
    · rfl
    · rw [List.map_cons, List.map_cons, ih]

theorem visible_markFirst_old (hv : v ≤ u) : visible v (markFirst u l) = visible v l := by
  induction l with
  | nil => rfl
  | cons x l ih =>
    rw [markFirst]
    split
    · next hval =>
      have hsame := VersionedValue.validAt_remove_old hval hv
      simp only [visible, List.filterMap_cons, hsame]
      rfl
    · have htail : (markFirst u l).filterMap (fun e =>
          if e.2.validAt v then some (e.1, e.2.val) else none) = l.filterMap fun e =>
          if e.2.validAt v then some (e.1, e.2.val) else none := ih
      simp only [visible, List.filterMap_cons, htail]

/-- The next version no longer sees the first of what version `u` sees. -/
theorem visible_markFirst_new
    (hle : ∀ e ∈ l, e.2.createdAt ≤ u ∧ ∀ r ∈ e.2.removedAt, r ≤ u) :
    visible (u + 1) (markFirst u l) = (visible u l).tail := by
  induction l with
  | nil => rfl
  | cons x l ih =>
    have hx := hle x List.mem_cons_self
    have hrest : ∀ e ∈ l, e.2.createdAt ≤ u ∧ ∀ r ∈ e.2.removedAt, r ≤ u :=
      fun e he => hle e (List.mem_cons_of_mem x he)
    have hsucc := VersionedValue.validAt_succ hx.1 hx.2
    rw [markFirst]
    by_cases hval : x.2.validAt u = true
    · have htail : visible (u + 1) l = visible u l := visible_succ hrest
      rw [if_pos hval, visible, List.filterMap_cons, VersionedValue.validAt_remove_new, visible,
        List.filterMap_cons, hval]
      exact htail
    · have hno := Bool.eq_false_iff.mpr hval
      have htail : visible (u + 1) (markFirst u l) = (visible u l).tail := ih hrest
      rw [if_neg hval, visible, List.filterMap_cons, hsucc, hno, visible, List.filterMap_cons, hno]
      exact htail

end MarkFirst

theorem visible_append (v : Nat) (l l' : List (K × VersionedValue V)) :
    visible v (l ++ l') = visible v l ++ visible v l' := List.filterMap_append

theorem mem_visible {v : Nat} {l : List (K × VersionedValue V)} {x : K × V} :
    x ∈ visible v l ↔ ∃ e ∈ l, e.2.validAt v = true ∧ (e.1, e.2.val) = x := by
  rw [visible, List.mem_filterMap]
  constructor
  · rintro ⟨e, he, hx⟩
    split at hx
    · next hval => exact ⟨e, he, hval, Option.some.inj hx⟩
    · cases hx
  · rintro ⟨e, he, hval, hx⟩
    exact ⟨e, he, by rw [if_pos hval, hx]⟩

variable [LinearOrder K]

namespace World

/-- `erase` of a key with `first_match_only`. Without snapshots the entry at the lower bound goes,
whatever it is; `none` also stands for the erasure of the end of the container. -/
def eraseFirst (w : World K V) (a : Addr) (key : K) : Option (World K V) := do
  if ← w.writable a then
    let m ← w.maps a
    let group := w.groups m.ssg
    let ver := m.ver + 1
    let w' := w.setMap a (some { m with ver })
    let i := lowerBound key group.data
    let j := upperBound key group.data
    if ← w.hasReadonlySnapshot a then
      let range := slice i j group.data
      let found := range.any fun e => e.2.validAt m.ver
      return w'.setGroup m.ssg
        { group with
          data := group.data.take i ++ markFirst m.ver range ++ group.data.drop j
          gcEraseCounter := if found then group.gcEraseCounter + 1 else group.gcEraseCounter }
    else if i < group.data.length then
      return w'.setGroup m.ssg { group with data := group.data.eraseIdx i }
    else none
  else none

def eraseFlag (w : World K V) (a : Addr) (key : K) (firstMatchOnly : Bool) : Option (World K V) :=
  if firstMatchOnly then w.eraseFirst a key else w.eraseKey a key

/-- `SnapshotTable::remove` of a row. The row converts to the flag of `erase` without a user-defined
conversion, and its pointer is not null. -/
def removeRow (keyOf : V → K) (w : World K V) (a : Addr) (row : V) : Option (World K V) :=
  w.eraseFlag a (keyOf row) true

end World

inductive Action (K V : Type) where
  | op (o : Op K V)
  | eraseFirst (a : Nat) (key : K)

def Action.ordered : Action K V → Bool
  | .op o => o.ordered
  | .eraseFirst _ _ => true

def World.act [DecidableEq V] (w : World K V) : Action K V → Option (World K V)
  | .op o => (w.exec o).map Prod.fst
  | .eraseFirst a key => w.eraseFirst (.object a) key

/-- The map at `a` loses the first entry of the key that it shows, if there is one, and no other map
changes. -/
def ErasesFirst (w : World K V) (a : Addr) (key : K) : Prop :=
  ∃ l w', w.view a = some (true, l) ∧ w.eraseFirst a key = some w' ∧
    w'.view = Function.update w.view a (some (true, l.eraseP fun e => e.1 = key))

def RemovesRow [DecidableEq V] (keyOf : V → K) (w : World K V) (a : Addr) (row : V) : Prop :=
  ∃ l w', w.view a = some (true, l) ∧ w.removeRow keyOf a row = some w' ∧
    w'.view = Function.update w.view a (some (true, l.erase (keyOf row, row)))

/-- A snapshot of the map is alive; or the entry at the lower bound of the key is the first one that
the map shows, or is hidden while all entries of the key are. -/
def FirstFound (w : World K V) (a : Addr) (key : K) : Prop :=
  ∃ m, w.maps a = some m ∧ (m.prev ≠ a ∨
    ∃ e, (w.groups m.ssg).data[lowerBound key (w.groups m.ssg).data]? = some e ∧
      if e.2.validAt m.ver then e.1 = key
      else ∀ x ∈ (w.groups m.ssg).data, x.1 = key → x.2.validAt m.ver = false)

/-- The row is the first one of its key that the map shows; and a snapshot is alive, or no hidden
entry of the key stands before it. -/
def RowFirst [DecidableEq V] (keyOf : V → K) (w : World K V) (a : Addr) (row : V) : Prop :=
  ∃ m, w.maps a = some m ∧
    (visible m.ver (w.groups m.ssg).data).find? (fun e => e.1 = keyOf row) =
      some (keyOf row, row) ∧
    (m.prev ≠ a ∨
      ∃ e, (w.groups m.ssg).data[lowerBound (keyOf row) (w.groups m.ssg).data]? = some e ∧
        e.2.validAt m.ver = true)

namespace Linked

variable {w : World K V} {rings : Nat → List Addr} {a : Addr} {m : SortedMap}

theorem eraseFirst_shared (h : Linked w rings) (ha : w.maps a = some m)
    (hw : (w.groups m.ssg).writer = some a) (hprev : m.prev ≠ a) (key : K) :
    ∃ w', w.eraseFirst a key = some w' ∧ Linked w' rings ∧
      w'.view = Function.update w.view a (some (true,
        (visible m.ver (w.groups m.ssg).data).eraseP fun e => e.1 = key)) := by
  obtain ⟨hver, hle⟩ := h.latest a m ha hw
  have hs := h.sorted m.ssg
  obtain ⟨A, B, C, hdata, hi, hj, hA, hB, hC⟩ := split_key key hs
  have htake : (w.groups m.ssg).data.take A.length = A := by
    rw [hdata, List.append_assoc, List.take_left]
  have hdrop : (w.groups m.ssg).data.drop (A ++ B).length = C := by
    rw [hdata, List.drop_left]
  have hslice : slice A.length (A ++ B).length (w.groups m.ssg).data = B := by
    rw [hdata, slice_append]
  have hleB : ∀ e ∈ B, e.2.createdAt ≤ m.ver ∧ ∀ r ∈ e.2.removedAt, r ≤ m.ver := by
    intro e he
    exact hle e (by simp [hdata, he])
  let data := A ++ markFirst m.ver B ++ C
  have hsort : Sorted data := by
    have hkeys : data.map Prod.fst = (w.groups m.ssg).data.map Prod.fst := by
      simp only [data, hdata, List.map_append, markFirst_keys]
    rw [Sorted, ← List.pairwise_map (f := Prod.fst) (R := (· ≤ ·)), hkeys, List.pairwise_map]
    exact hs
  have hle' : ∀ e ∈ data, e.2.createdAt ≤ m.ver + 1 ∧ ∀ r ∈ e.2.removedAt, r ≤ m.ver + 1 := by
    have hold : ∀ e ∈ (w.groups m.ssg).data,
        e.2.createdAt ≤ m.ver + 1 ∧ ∀ r ∈ e.2.removedAt, r ≤ m.ver + 1 := by
      intro e he
      obtain ⟨hc, hr⟩ := hle e he
      exact ⟨Nat.le_succ_of_le hc, fun r hrm => Nat.le_succ_of_le (hr r hrm)⟩
    intro e he
    rcases List.mem_append.mp he with he | he
    · rcases List.mem_append.mp he with he | he
      · exact hold e (by simp [hdata, he])
      · obtain ⟨x, hx, hcase⟩ := mem_markFirst he
        have hxold := hold x (by simp [hdata, hx])
        rcases hcase with rfl | rfl
        · exact hxold
        · refine ⟨hxold.1, ?_⟩
          intro r hr
          exact Nat.le_of_eq (Option.some.inj hr).symm
    · exact hold e (by simp [hdata, he])
  have hold : ∀ b n, w.maps b = some n → n.ssg = m.ssg → b ≠ a →
      visible n.ver data = visible n.ver (w.groups m.ssg).data := by
    intro b n hb hg _
    simp only [data, hdata, visible_append, visible_markFirst_old (hver b n hb hg)]
  have hvisB : ∀ x ∈ visible m.ver B, decide (x.1 = key) = true := by
    intro x hx
    obtain ⟨e, he, -, rfl⟩ := mem_visible.mp hx
    exact decide_eq_true (hB e he)
  have hvisA : ∀ x ∈ visible m.ver A, ¬ decide (x.1 = key) = true := by
    intro x hx
    obtain ⟨e, he, -, rfl⟩ := mem_visible.mp hx
    simpa using hA e he
  have hvisC : ∀ x ∈ visible m.ver C, ¬ decide (x.1 = key) = true := by
    intro x hx
    obtain ⟨e, he, -, rfl⟩ := mem_visible.mp hx
    simpa using hC e he
  have hnew : visible (m.ver + 1) data =
      (visible m.ver (w.groups m.ssg).data).eraseP fun e => e.1 = key := by
    have hleA : ∀ e ∈ A, e.2.createdAt ≤ m.ver ∧ ∀ r ∈ e.2.removedAt, r ≤ m.ver :=
      fun e he => hle e (by simp [hdata, he])
    have hleC : ∀ e ∈ C, e.2.createdAt ≤ m.ver ∧ ∀ r ∈ e.2.removedAt, r ≤ m.ver :=
      fun e he => hle e (by simp [hdata, he])
    have hmid : visible m.ver (w.groups m.ssg).data =
        visible m.ver A ++ (visible m.ver B ++ visible m.ver C) := by
      rw [hdata, visible_append, visible_append, List.append_assoc]
    rw [hmid, List.eraseP_append_right _ hvisA]
    simp only [data, visible_append, visible_succ hleA, visible_succ hleC,
      visible_markFirst_new hleB, List.append_assoc]
    congr 1
    cases hB' : visible m.ver B with
    | nil => simp [List.eraseP_of_forall_not hvisC]
    | cons x xs =>
      have hx := hvisB x (by simp [hB'])
      rw [List.cons_append, List.eraseP_cons_of_pos (p := fun b : K × V => decide (b.1 = key)) hx]
      rfl
  obtain ⟨found, hfound⟩ : ∃ b, b = B.any fun e => e.2.validAt m.ver := ⟨_, rfl⟩
  obtain ⟨hl, hv⟩ := h.write ha hw
    { w.groups m.ssg with
      data
      gcEraseCounter := if found then (w.groups m.ssg).gcEraseCounter + 1
        else (w.groups m.ssg).gcEraseCounter } hw hsort hle' hold
  refine ⟨_, ?_, hl, by rw [hv, hnew]⟩
  simp only [World.eraseFirst, World.writable_of_writer ha hw, ha, Option.bind_eq_bind,
    Option.bind_some, if_true, h.hasReadonlySnapshot_eq ha hw, ne_eq, hprev, not_false_eq_true,
    decide_true, hi, hj, htake, hdrop, hslice, ← hfound]
  rfl

theorem eraseFirst_alone (h : Linked w rings) (ha : w.maps a = some m)
    (hw : (w.groups m.ssg).writer = some a) (hprev : m.prev = a) {key : K}
    {A rest : List (K × VersionedValue V)} {e : K × VersionedValue V}
    (hdata : (w.groups m.ssg).data = A ++ e :: rest)
    (hi : lowerBound key (w.groups m.ssg).data = A.length) :
    ∃ w', w.eraseFirst a key = some w' ∧ Linked w' rings ∧
      w'.view = Function.update w.view a (some (true, visible m.ver (A ++ rest))) := by
  obtain ⟨-, hle⟩ := h.latest a m ha hw
  have hs := h.sorted m.ssg
  have hsub : (A ++ rest).Sublist (w.groups m.ssg).data := by
    rw [hdata]
    exact (List.Sublist.refl A).append (List.sublist_cons_self e rest)
  have herase : (w.groups m.ssg).data.eraseIdx A.length = A ++ rest := by
    rw [hdata, List.eraseIdx_append_of_length_le (Nat.le_refl _)]
    simp
  have hlt : A.length < (w.groups m.ssg).data.length := by
    rw [hdata]
    simp
  have hle' : ∀ x ∈ A ++ rest,
      x.2.createdAt ≤ m.ver ∧ ∀ r ∈ x.2.removedAt, r ≤ m.ver :=
    fun x hx => hle x (hsub.subset hx)
  have hle₁ : ∀ x ∈ A ++ rest,
      x.2.createdAt ≤ m.ver + 1 ∧ ∀ r ∈ x.2.removedAt, r ≤ m.ver + 1 := by
    intro x hx
    obtain ⟨hc, hr⟩ := hle' x hx
    exact ⟨Nat.le_succ_of_le hc, fun r hrm => Nat.le_succ_of_le (hr r hrm)⟩
  have hold : ∀ b n, w.maps b = some n → n.ssg = m.ssg → b ≠ a →
      visible n.ver (A ++ rest) = visible n.ver (w.groups m.ssg).data := by
    intro b n hb hg hne
    exact absurd (h.alone ha hprev hb hg) hne
  obtain ⟨hl, hv⟩ := h.write ha hw { w.groups m.ssg with data := A ++ rest } hw
    (hs.sublist hsub) hle₁ hold
  refine ⟨_, ?_, hl, by rw [hv, visible_succ hle']⟩
  simp only [World.eraseFirst, World.writable_of_writer ha hw, ha, Option.bind_eq_bind,
    Option.bind_some, if_true, h.hasReadonlySnapshot_eq ha hw, ne_eq, hprev, not_true_eq_false,
    decide_false, hi, hlt, herase]
  rfl

theorem eraseFirst_cases (h : Linked w rings) (ha : w.maps a = some m)
    (hw : (w.groups m.ssg).writer = some a) (key : K) {l : List (K × V)}
    (hl : visible m.ver (w.groups m.ssg).data = l)
    {bound : Option (K × VersionedValue V)}
    (hat : (w.groups m.ssg).data[lowerBound key (w.groups m.ssg).data]? = bound) :
    (∃ w', w.eraseFirst a key = some w' ∧ Linked w' rings ∧
      w'.view = Function.update w.view a (some (true, l.eraseP fun e => e.1 = key)) ∧
      (m.prev ≠ a ∨ ∃ e, bound = some e ∧ e.2.validAt m.ver = true ∧ e.1 = key)) ∨
    (m.prev = a ∧ ∃ e w' r, bound = some e ∧ e.2.validAt m.ver = true ∧ e.1 ≠ key ∧
      (∀ x ∈ l, x.1 ≠ key) ∧ w.eraseFirst a key = some w' ∧ Linked w' rings ∧
      w'.view = Function.update w.view a (some (true, r)) ∧ r.length + 1 = l.length) ∨
    (m.prev = a ∧ ∃ e w', bound = some e ∧ e.2.validAt m.ver = false ∧
      w.eraseFirst a key = some w' ∧ Linked w' rings ∧
      w'.view = Function.update w.view a (some (true, l))) ∨
    (m.prev = a ∧ bound = none ∧ w.eraseFirst a key = none) := by
  subst hl hat
  by_cases hprev : m.prev = a
  · obtain ⟨A, B, C, hdata, hi, -, hA, hB, hC⟩ := split_key key (h.sorted m.ssg)
    have hat : (w.groups m.ssg).data[lowerBound key (w.groups m.ssg).data]? = (B ++ C).head? := by
      rw [hi, hdata, List.append_assoc, List.getElem?_append_right (Nat.le_refl _), Nat.sub_self,
        List.head?_eq_getElem?]
    rw [hat]
    cases hrest : B ++ C with
    | nil =>
      have hlen : ¬ A.length < (w.groups m.ssg).data.length := by
        rw [hdata, List.append_assoc, hrest]
        simp
      refine .inr (.inr (.inr ⟨hprev, rfl, ?_⟩))
      simp only [World.eraseFirst, World.writable_of_writer ha hw, ha, Option.bind_eq_bind,
        Option.bind_some, if_true, h.hasReadonlySnapshot_eq ha hw, ne_eq, hprev,
        not_true_eq_false, decide_false, hi, hlen]
      rfl
    | cons e rest =>
      have hdata' : (w.groups m.ssg).data = A ++ e :: rest := by
        rw [hdata, List.append_assoc, hrest]
      obtain ⟨w', hrun, hl, hv⟩ := h.eraseFirst_alone ha hw hprev hdata' hi
      have hsplit : visible m.ver (w.groups m.ssg).data =
          visible m.ver A ++ visible m.ver (e :: rest) := by
        rw [hdata', visible_append]
      have hvisA : ∀ x ∈ visible m.ver A, ¬ decide (x.1 = key) = true := by
        intro x hx
        obtain ⟨y, hy, -, rfl⟩ := mem_visible.mp hx
        simpa using hA y hy
      by_cases hval : e.2.validAt m.ver = true
      · have hcons : visible m.ver (e :: rest) = (e.1, e.2.val) :: visible m.ver rest := by
          rw [visible, List.filterMap_cons, hval]
          rfl
        by_cases hkey : e.1 = key
        · -- the first visible entry of the key
          refine .inl ⟨w', hrun, hl, ?_, .inr ⟨e, rfl, hval, hkey⟩⟩
          have hpos : decide ((e.1, e.2.val).1 = key) = true := decide_eq_true hkey
          rw [hv, hsplit, List.eraseP_append_right _ hvisA, hcons, visible_append,
            List.eraseP_cons_of_pos (p := fun b : K × V => decide (b.1 = key)) hpos]
        · -- the key has no entry, and that of another key goes
          have hB' : B = [] := by
            cases B with
            | nil => rfl
            | cons b B =>
              have hbe : b = e := (List.cons.inj hrest).1
              exact absurd (hbe ▸ hB b List.mem_cons_self) hkey
          refine .inr (.inl ⟨hprev, e, w', _, rfl, hval, hkey, ?_, hrun, hl, hv, ?_⟩)
          · intro x hx
            obtain ⟨y, hy, -, rfl⟩ := mem_visible.mp hx
            rw [hdata, hB', List.append_nil] at hy
            rcases List.mem_append.mp hy with hy | hy
            · exact hA y hy
            · exact hC y hy
          · rw [hsplit, hcons, visible_append]
            simp only [List.length_append, List.length_cons]
            omega
      · have hno := Bool.eq_false_iff.mpr hval
        refine .inr (.inr (.inl ⟨hprev, e, w', rfl, hno, hrun, hl, ?_⟩))
        have hcons : visible m.ver (e :: rest) = visible m.ver rest := by
          rw [visible, List.filterMap_cons, hno]
          rfl
        rw [hv, hsplit, hcons, visible_append]
  · obtain ⟨w', hrun, hl, hv⟩ := h.eraseFirst_shared ha hw hprev key
    exact .inl ⟨w', hrun, hl, hv, .inl hprev⟩

theorem erasesFirst_iff (h : Linked w rings) (ha : w.maps a = some m)
    (hw : (w.groups m.ssg).writer = some a) (key : K) :
    ErasesFirst w a key ↔ FirstFound w a key := by
  obtain ⟨l, hl⟩ : ∃ l, visible m.ver (w.groups m.ssg).data = l := ⟨_, rfl⟩
  obtain ⟨bound, hbound⟩ : ∃ x, (w.groups m.ssg).data[lowerBound key (w.groups m.ssg).data]? = x :=
    ⟨_, rfl⟩
  have hview : w.view a = some (true, l) := by rw [World.view_eq ha, hw, hl, beq_self_eq_true]
  -- a run that leaves `r` erases the first match exactly when `r` is the list without it
  have hruns : ∀ w' r, w.eraseFirst a key = some w' →
      w'.view = Function.update w.view a (some (true, r)) →
      (ErasesFirst w a key ↔ r = l.eraseP fun e => e.1 = key) := by
    intro w' r hrun hv
    constructor
    · rintro ⟨l', w'', hl', hrun', hv'⟩
      obtain rfl := Option.some.inj (hrun.symm.trans hrun')
      obtain rfl := (Prod.mk.inj (Option.some.inj (hview.symm.trans hl'))).2
      have := Function.update_injective w.view a (hv.symm.trans hv')
      exact (Prod.mk.inj (Option.some.inj this)).2
    · rintro rfl
      exact ⟨l, w', hview, hrun, hv⟩
  have hfound : FirstFound w a key ↔ m.prev ≠ a ∨ ∃ e, bound = some e ∧
      if e.2.validAt m.ver then e.1 = key
      else ∀ x ∈ (w.groups m.ssg).data, x.1 = key → x.2.validAt m.ver = false := by
    simp only [FirstFound, ha, Option.some.injEq, exists_eq_left', hbound]
  rw [hfound]
  rcases h.eraseFirst_cases ha hw key hl hbound with ⟨w', hrun, -, hv, hcase⟩ |
    ⟨hprev, e, w', r, he, hval, hkey, hno, hrun, -, hv, hlen⟩ |
    ⟨hprev, e, w', he, hval, hrun, -, hv⟩ | ⟨hprev, he, hrun⟩
  · apply iff_of_true ((hruns w' _ hrun hv).mpr rfl)
    rcases hcase with hprev | ⟨e, he, hval, hkey⟩
    · exact .inl hprev
    · exact .inr ⟨e, he, by rw [if_pos hval]; exact hkey⟩
  · apply iff_of_false
    · intro hf
      have hr := (hruns w' r hrun hv).mp hf
      rw [List.eraseP_of_forall_not (by simpa using hno)] at hr
      rw [hr] at hlen
      omega
    · rintro (hne | ⟨e', he', hcase⟩)
      · exact hne hprev
      · obtain rfl := Option.some.inj (he.symm.trans he')
        rw [if_pos hval] at hcase
        exact hkey hcase
  · rw [hruns w' l hrun hv, eq_comm, List.eraseP_eq_self_iff]
    have hall : (∀ x ∈ l, ¬ decide (x.1 = key) = true) ↔
        ∀ x ∈ (w.groups m.ssg).data, x.1 = key → x.2.validAt m.ver = false := by
      constructor
      · intro hnone x hx hkey
        by_contra hne
        have hxval : x.2.validAt m.ver = true := by simpa using hne
        have hin : (x.1, x.2.val) ∈ l := hl ▸ mem_visible.mpr ⟨x, hx, hxval, rfl⟩
        exact hnone _ hin (decide_eq_true hkey)
      · intro hnone x hx hkey
        obtain ⟨y, hy, hyval, rfl⟩ := mem_visible.mp (hl ▸ hx)
        have hdead := hnone y hy (of_decide_eq_true hkey)
        rw [hyval] at hdead
        cases hdead
    rw [hall]
    constructor
    · intro hnone
      exact .inr ⟨e, he, by rw [if_neg (by simp [hval])]; exact hnone⟩
    · rintro (hne | ⟨e', he', hcase⟩)
      · exact absurd hprev hne
      · obtain rfl := Option.some.inj (he.symm.trans he')
        rwa [if_neg (by simp [hval])] at hcase
  · apply iff_of_false
    · rintro ⟨l', w', -, hrun', -⟩
      rw [hrun] at hrun'
      cases hrun'
    · rintro (hne | ⟨e', he', -⟩)
      · exact hne hprev
      · rw [he] at he'
        cases he'

variable [DecidableEq V]

theorem removesRow_iff (h : Linked w rings) (ha : w.maps a = some m)
    (hw : (w.groups m.ssg).writer = some a) (keyOf : V → K) {row : V} {l : List (K × V)}
    (hl : visible m.ver (w.groups m.ssg).data = l) (hrow : (keyOf row, row) ∈ l) :
    RemovesRow keyOf w a row ↔ RowFirst keyOf w a row := by
  obtain ⟨bound, hbound⟩ : ∃ x,
      (w.groups m.ssg).data[lowerBound (keyOf row) (w.groups m.ssg).data]? = x := ⟨_, rfl⟩
  have hview : w.view a = some (true, l) := by rw [World.view_eq ha, hw, hl, beq_self_eq_true]
  have hruns : ∀ w' r, w.eraseFirst a (keyOf row) = some w' →
      w'.view = Function.update w.view a (some (true, r)) →
      (RemovesRow keyOf w a row ↔ r = l.erase (keyOf row, row)) := by
    intro w' r hrun hv
    constructor
    · rintro ⟨l', w'', hl', hrun', hv'⟩
      obtain rfl := Option.some.inj (hrun.symm.trans hrun')
      obtain rfl := (Prod.mk.inj (Option.some.inj (hview.symm.trans hl'))).2
      have := Function.update_injective w.view a (hv.symm.trans hv')
      exact (Prod.mk.inj (Option.some.inj this)).2
    · rintro rfl
      exact ⟨l, w', hview, hrun, hv⟩
  have hfirst : RowFirst keyOf w a row ↔
      l.find? (fun e => e.1 = keyOf row) = some (keyOf row, row) ∧
        (m.prev ≠ a ∨ ∃ e, bound = some e ∧ e.2.validAt m.ver = true) := by
    simp only [RowFirst, ha, Option.some.injEq, exists_eq_left', hbound, hl]
  rw [hfirst]
  rcases h.eraseFirst_cases ha hw (keyOf row) hl hbound with ⟨w', hrun, -, hv, hcase⟩ |
    ⟨-, -, -, -, -, -, -, hno, -⟩ | ⟨hprev, e, w', he, hval, hrun, -, hv⟩ | ⟨hprev, he, hrun⟩
  · rw [hruns w' _ hrun hv, eraseP_eq_erase_iff hrow (by simp)]
    have hseen : m.prev ≠ a ∨ ∃ e, bound = some e ∧ e.2.validAt m.ver = true := by
      rcases hcase with hprev | ⟨e, he, hval, -⟩
      · exact .inl hprev
      · exact .inr ⟨e, he, hval⟩
    exact (and_iff_left hseen).symm
  · exact absurd rfl (hno _ hrow)
  · apply iff_of_false
    · intro hf
      have hr := (hruns w' l hrun hv).mp hf
      exact List.erase_eq_self_iff.mp hr.symm hrow
    · rintro ⟨-, hne | ⟨e', he', hval'⟩⟩
      · exact hne hprev
      · obtain rfl := Option.some.inj (he.symm.trans he')
        rw [hval] at hval'
        cases hval'
  · apply iff_of_false
    · rintro ⟨l', w', -, hrun', -⟩
      rw [World.removeRow, World.eraseFlag, if_pos rfl, hrun] at hrun'
      cases hrun'
    · rintro ⟨-, hne | ⟨e', he', -⟩⟩
      · exact hne hprev
      · rw [he] at he'
        cases he'

end Linked

variable [DecidableEq V]

theorem Sim.act {w w' : World K V} {s : Maps K V} (h : Sim w s) {x : Action K V}
    (hx : x.ordered = true) (he : w.act x = some w') : ∃ s', Sim w' s' := by
  cases x with
  | op o =>
    obtain ⟨⟨w₁, out⟩, e₁, rfl⟩ := Option.map_eq_some_iff.mp he
    have hordered : o.ordered = true := hx
    have hagree := h.exec hordered
    rw [e₁] at hagree
    cases hs : s.exec o with
    | none =>
      simp only [Agree, hs] at hagree
      cases hagree
    | some r =>
      simp only [Agree, hs] at hagree
      obtain ⟨w₂, e₂, h₂⟩ := hagree
      obtain rfl := (Prod.mk.inj (Option.some.inj e₂)).1
      exact ⟨_, h₂⟩
  | eraseFirst a key =>
    have hrun : w.eraseFirst (.object a) key = some w' := he
    obtain ⟨flag, hflag, -⟩ := Option.bind_eq_some_iff.mp hrun
    obtain ⟨m, ha, hw⟩ := Option.bind_eq_some_iff.mp hflag
    have hwr : (w.groups m.ssg).writer = some (.object a) := by
      cases flag with
      | true => exact beq_iff_eq.mp (Option.some.inj hw)
      | false =>
        rw [World.eraseFirst, hflag] at hrun
        cases hrun
    obtain ⟨rings, hl⟩ := h.wellFormed
    have hview : ∃ r, WellFormed w' ∧
        w'.view = Function.update w.view (.object a) (some (true, r)) := by
      rcases hl.eraseFirst_cases ha hwr key rfl rfl with ⟨w₁, e₁, hl₁, hv₁, -⟩ |
        ⟨-, e, w₁, r, -, -, -, -, e₁, hl₁, hv₁, -⟩ | ⟨-, e, w₁, -, -, e₁, hl₁, hv₁⟩ | ⟨-, -, e₁⟩
      · obtain rfl := Option.some.inj (e₁.symm.trans hrun)
        exact ⟨_, ⟨rings, hl₁⟩, hv₁⟩
      · obtain rfl := Option.some.inj (e₁.symm.trans hrun)
        exact ⟨_, ⟨rings, hl₁⟩, hv₁⟩
      · obtain rfl := Option.some.inj (e₁.symm.trans hrun)
        exact ⟨_, ⟨rings, hl₁⟩, hv₁⟩
      · rw [e₁] at hrun
        cases hrun
    obtain ⟨r, hwf, hv⟩ := hview
    exact ⟨_, h.update hwf hv⟩

theorem Sim.acts {w w' : World K V} {s : Maps K V} (h : Sim w s) {acts : List (Action K V)}
    (hacts : ∀ x ∈ acts, x.ordered = true) (he : acts.foldlM World.act w = some w') :
    ∃ s', Sim w' s' := by
  induction acts generalizing w s with
  | nil =>
    obtain rfl := Option.some.inj he
    exact ⟨s, h⟩
  | cons x acts ih =>
    rw [List.foldlM_cons] at he
    obtain ⟨w₁, e₁, he⟩ := Option.bind_eq_some_iff.mp he
    obtain ⟨s₁, h₁⟩ := h.act (hacts x List.mem_cons_self) e₁
    exact ih h₁ (fun y hy => hacts y (List.mem_cons_of_mem x hy)) he

/-- Wherever a program has brought its maps, erasing the first match of a key does what its name
says exactly when `FirstFound` holds, and removing a row removes that row exactly when `RowFirst`
does. -/
theorem first_match_exact (keyOf : V → K) {acts : List (Action K V)}
    (hacts : ∀ x ∈ acts, x.ordered = true) {w : World K V}
    (hrun : acts.foldlM World.act {} = some w) {a : Addr} {l : List (K × V)}
    (ha : w.view a = some (true, l)) :
    (∀ key, ErasesFirst w a key ↔ FirstFound w a key) ∧
      ∀ row, (keyOf row, row) ∈ l → (RemovesRow keyOf w a row ↔ RowFirst keyOf w a row) := by
  obtain ⟨s, hs⟩ := Sim.init.acts hacts hrun
  obtain ⟨rings, hl⟩ := hs.wellFormed
  obtain ⟨m, hm, hflag, hvis⟩ := map_of_view ha
  have hw : (w.groups m.ssg).writer = some a := beq_iff_eq.mp hflag
  exact ⟨hl.erasesFirst_iff hm hw, fun row hrow => hl.removesRow_iff hm hw keyOf hvis hrow⟩

/-- Rows of key `row / 10`. A table with the rows 10 and 11; with a removed row that a snapshot
kept; and with a row of another key. -/
def rowKey (row : Nat) : Nat := row / 10

def insertRow (a row : Nat) : Action Nat Nat := .op (.insert a [(rowKey row, row)])

def twoRows : List (Action Nat Nat) := [.op (.create 0), insertRow 0 10, insertRow 0 11]

def deadRow : List (Action Nat Nat) :=
  twoRows ++ [.op (.snapshot 1 0), .eraseFirst 0 1, .op (.destroy 1)]

def otherKey : List (Action Nat Nat) := [.op (.create 0), insertRow 0 20]

theorem first_match_exact_twoRows :
    ∃ w, twoRows.foldlM World.act {} = some w ∧
      (RemovesRow rowKey w (.object 0) 10 ↔ RowFirst rowKey w (.object 0) 10) := by
  have hacts : ∀ x ∈ twoRows, x.ordered = true := by decide
  refine ⟨_, rfl, ?_⟩
  exact (first_match_exact rowKey hacts rfl (l := [(1, 10), (1, 11)]) rfl).2 10 (by decide)

/-- Removing the second row removes the first; with a hidden row before it, the row stays; and
erasing a key that is not there removes a row of another key, or the end of an empty table. -/
theorem remove_misses :
    (∃ w w', twoRows.foldlM World.act {} = some w ∧
      w.view (.object 0) = some (true, [(1, 10), (1, 11)]) ∧
      w.removeRow rowKey (.object 0) 11 = some w' ∧
      w'.view (.object 0) = some (true, [(1, 11)])) ∧
    (∃ w w', deadRow.foldlM World.act {} = some w ∧
      w.view (.object 0) = some (true, [(1, 11)]) ∧
      w.removeRow rowKey (.object 0) 11 = some w' ∧
      w'.view (.object 0) = some (true, [(1, 11)])) ∧
    (∃ w w', otherKey.foldlM World.act {} = some w ∧
      w.eraseFirst (.object 0) 1 = some w' ∧ w'.view (.object 0) = some (true, [])) ∧
    ∃ w, [Action.op (.create 0)].foldlM World.act {} = some w ∧
      (w : World Nat Nat).eraseFirst (.object 0) 1 = none := by
  refine ⟨⟨_, _, rfl, ?_, rfl, ?_⟩, ⟨_, _, rfl, ?_, rfl, ?_⟩, ⟨_, _, rfl, rfl, ?_⟩, ⟨_, rfl, ?_⟩⟩
  all_goals rfl

end Jetpack.Memdb
