import Jetpack.Memdb.Links

/-! A map shows the entries of an ordinary multimap, and a snapshot those that its source had. -/

namespace Jetpack.Memdb

open Multimap

variable {K V : Type} [LinearOrder K]

def Query.mem (q : Query K) (k : K) : Bool :=
  match q with
  | .all => true
  | .query key => k = key
  | .queryLt key => k < key
  | .queryGt key => key < k
  | .queryIn low high => low < k && k < high

theorem Query.holds_eq (q : Query K) (k : K) : q.holds k = q.mem k := by
  rw [Bool.eq_iff_iff]
  cases q with
  | all => simp [holds, mem, upto, before]
  | query key =>
    simp only [holds, mem, upto, before, Bool.and_eq_true, decide_eq_true_eq, Bool.not_eq_true',
      decide_eq_false_iff_not, not_lt]
    exact le_antisymm_iff.symm
  | queryLt key => simp [holds, mem, upto, before]
  | queryGt key => simp [holds, mem, upto, before]
  | queryIn low high =>
    simp only [holds, mem, upto, before, Bool.and_eq_true, decide_eq_true_eq, Bool.not_eq_true',
      decide_eq_false_iff_not, not_le]
    exact and_comm

/-- The ordinary multimaps of a program: whether each can be written to, and its entries. -/
abbrev Maps (K V : Type) := Nat → Option (Bool × List (K × V))

namespace Maps

variable [DecidableEq V]

/-- What an operation means for ordinary multimaps. A snapshot is a copy that nobody writes to. -/
def exec (s : Maps K V) : Op K V → Option (Maps K V × List (K × V))
  | .create a =>
    match s a with
    | none => some (Function.update s a (some (true, [])), [])
    | some _ => none
  | .insert a entries =>
    match s a with
    | some (true, l) => some (Function.update s a (some (true, insertAll l entries)), [])
    | _ => none
  | .insertRange a src q =>
    match s a, s src with
    | some (true, l), some (_, l') =>
      some (Function.update s a (some (true, insertAll l (l'.filter fun e => q.mem e.1))), [])
    | _, _ => none
  | .eraseKey a key =>
    match s a with
    | some (true, l) => some (Function.update s a (some (true, l.filter fun e => e.1 ≠ key)), [])
    | _ => none
  | .eraseKeyValue a key value =>
    match s a with
    | some (true, l) =>
      some (Function.update s a (some (true, l.filter fun e => ¬ (e.1 = key ∧ e.2 = value))), [])
    | _ => none
  | .eraseRange a q =>
    match s a with
    | some (true, l) => some (Function.update s a (some (true, l.filter fun e => !q.mem e.1)), [])
    | _ => none
  | .snapshot a src =>
    match s a, s src with
    | none, some (_, l) => some (Function.update s a (some (false, l)), [])
    | _, _ => none
  | .copy a src =>
    match s a, s src with
    | none, some v => some (Function.update s a (some v), [])
    | _, _ => none
  | .assign a src =>
    match s a, s src with
    | some _, some v => some (Function.update s a (some v), [])
    | _, _ => none
  | .destroy a =>
    match s a with
    | some _ => some (Function.update s a none, [])
    | none => none
  | .gcRun a =>
    match s a with
    | some _ => some (s, [])
    | none => none
  | .enumerate a q reverse =>
    match s a with
    | some (_, l) =>
      some (s, if reverse then (l.filter fun e => q.mem e.1).reverse
        else l.filter fun e => q.mem e.1)
    | none => none

def run (s : Maps K V) : List (Op K V) → Option (Maps K V × List (List (K × V)))
  | [] => some (s, [])
  | op :: ops => do
    let (s, out) ← s.exec op
    let (s, outs) ← run s ops
    return (s, out :: outs)

end Maps

section Views

variable {w : World K V} {a src : Addr} {l l' : List (K × V)} {flag : Bool}

omit [LinearOrder K] in
theorem map_of_view (h : w.view a = some (flag, l)) :
    ∃ m, w.maps a = some m ∧ ((w.groups m.ssg).writer == some a) = flag ∧
      visible m.ver (w.groups m.ssg).data = l := by
  obtain ⟨m, hm, he⟩ := Option.map_eq_some_iff.mp h
  exact ⟨m, hm, (Prod.mk.inj he).1, (Prod.mk.inj he).2⟩

omit [LinearOrder K] in
theorem map_none_of_view (h : w.view a = none) : w.maps a = none := by
  simpa [World.view] using h

theorem WellFormed.sorted_view (h : WellFormed w) (ha : w.view a = some (flag, l)) : Sorted l := by
  obtain ⟨rings, hl⟩ := h
  obtain ⟨m, -, -, rfl⟩ := map_of_view ha
  exact sorted_visible (hl.sorted m.ssg)

omit [LinearOrder K] in
theorem writable_of_view (ha : w.view a = some (flag, l)) : w.writable a = some flag := by
  obtain ⟨m, hm, hf, -⟩ := map_of_view ha
  rw [World.writable_eq hm, hf]

theorem insert_view (h : WellFormed w) (ha : w.view a = some (true, l)) (entries : List (K × V)) :
    ∃ w', w.insert a entries = some w' ∧ WellFormed w' ∧
      w'.view = Function.update w.view a (some (true, insertAll l entries)) := by
  obtain ⟨rings, hl⟩ := h
  obtain ⟨m, hm, hf, rfl⟩ := map_of_view ha
  obtain ⟨w', hi, hl', hv⟩ := hl.insert hm (beq_iff_eq.mp hf) entries
  exact ⟨w', hi, ⟨rings, hl'⟩, hv⟩

omit [LinearOrder K] in
theorem writable_of_view_none (ha : w.view a = none) : w.writable a = none := by
  simp [World.writable, map_none_of_view ha]

theorem insert_fails (h : w.writable a ≠ some true) (entries : List (K × V)) :
    w.insert a entries = none := by
  cases hw : w.writable a with
  | none => simp [World.insert, hw]
  | some flag =>
    cases flag with
    | true => exact absurd hw h
    | false => simp [World.insert, hw]

omit [LinearOrder K] in
theorem erase_fails (h : w.writable a ≠ some true) (i j : Nat) (matched : V → Bool)
    (counted : Bool) : w.erase a i j matched counted = none := by
  cases hw : w.writable a with
  | none => simp [World.erase, hw]
  | some flag =>
    cases flag with
    | true => exact absurd hw h
    | false => simp [World.erase, hw]

theorem erase_view (h : WellFormed w) (ha : w.view a = some (true, l)) {q : Query K}
    (hq : q.ordered = true) (matched : V → Bool) (counted : Bool) :
    ∃ m w', w.maps a = some m ∧ w.erase a (q.first (w.groups m.ssg).data)
        (q.last (w.groups m.ssg).data) matched counted = some w' ∧ WellFormed w' ∧
      w'.view = Function.update w.view a
        (some (true, l.filter fun e => !(q.mem e.1 && matched e.2))) := by
  obtain ⟨rings, hl⟩ := h
  obtain ⟨m, hm, hf, rfl⟩ := map_of_view ha
  obtain ⟨w', he, hl', hv⟩ := hl.erase hm (beq_iff_eq.mp hf) hq matched counted
  simp only [Query.holds_eq] at hv
  exact ⟨m, w', hm, he, ⟨rings, hl'⟩, hv⟩

theorem gcRun_view (h : WellFormed w) (ha : w.view a = some (flag, l)) :
    ∃ w', w.gcRun a = some w' ∧ WellFormed w' ∧ w'.view = w.view := by
  obtain ⟨rings, hl⟩ := h
  obtain ⟨m, hm, -, -⟩ := map_of_view ha
  obtain ⟨w', hg, hl', hv⟩ := hl.gcRun hm
  exact ⟨w', hg, ⟨rings, hl'⟩, hv⟩

theorem newGroup_view (h : WellFormed w) (ha : w.view a = none) :
    WellFormed (w.newGroup a) ∧
      (w.newGroup a).view = Function.update w.view a (some (true, [])) := by
  obtain ⟨rings, hl⟩ := h
  exact hl.newGroup (map_none_of_view ha)

theorem makeMeSnapshotOf_view (h : WellFormed w) (ha : w.view a = none)
    (hsrc : w.view src = some (flag, l)) :
    ∃ w', w.makeMeSnapshotOf a src = some w' ∧ WellFormed w' ∧
      w'.view = Function.update w.view a (some (false, l)) := by
  obtain ⟨rings, hl⟩ := h
  obtain ⟨s, hs, -, rfl⟩ := map_of_view hsrc
  exact hl.makeMeSnapshotOf (map_none_of_view ha) hs

theorem destroyMe_view (h : WellFormed w) (ha : w.view a = some (flag, l)) :
    ∃ w', w.destroyMe a = some w' ∧ WellFormed w' ∧
      w'.view = Function.update w.view a none := by
  obtain ⟨rings, hl⟩ := h
  obtain ⟨m, hm, -, -⟩ := map_of_view ha
  exact hl.destroyMe hm

theorem openRange_view (h : WellFormed w) (ht : w.view .temporary = none)
    (hr : w.view .range = none) (hsrc : w.view src = some (flag, l)) :
    ∃ w', w.openRange src = some w' ∧ WellFormed w' ∧
      w'.view = Function.update w.view .range (some (false, l)) := by
  obtain ⟨w₁, e₁, h₁, v₁⟩ := makeMeSnapshotOf_view h ht hsrc
  have ht₁ : w₁.view .temporary = some (false, l) := by rw [v₁, Function.update_self]
  have hr₁ : w₁.view .range = none := by
    rw [v₁, Function.update_of_ne (by decide), hr]
  obtain ⟨w₂, e₂, h₂, v₂⟩ := makeMeSnapshotOf_view h₁ hr₁ ht₁
  have ht₂ : w₂.view .temporary = some (false, l) := by
    rw [v₂, Function.update_of_ne (by decide), ht₁]
  obtain ⟨w₃, e₃, h₃, v₃⟩ := destroyMe_view h₂ ht₂
  refine ⟨w₃, ?_, h₃, ?_⟩
  · simp only [World.openRange, e₁, World.copySnapshot, writable_of_view ht₁, e₂,
      Option.bind_eq_bind, Option.bind_some]
    exact e₃
  · rw [v₃, v₂, v₁]
    funext b
    cases b with
    | temporary => simp [ht]
    | range => simp
    | object i =>
      rw [Function.update_of_ne (by simp), Function.update_of_ne (by simp),
        Function.update_of_ne (by simp), Function.update_of_ne (by simp)]

omit [LinearOrder K] in
theorem openRange_fails (hsrc : w.view src = none) : w.openRange src = none := by
  simp [World.openRange, World.makeMeSnapshotOf, map_none_of_view hsrc]

theorem rangeEntries_view (h : WellFormed w) (hr : w.view .range = some (flag, l)) {q : Query K}
    (hq : q.ordered = true) (reverse : Bool) :
    w.rangeEntries q reverse = some (if reverse then (l.filter fun e => q.mem e.1).reverse
      else l.filter fun e => q.mem e.1) := by
  obtain ⟨rings, hl⟩ := h
  obtain ⟨m, hm, -, rfl⟩ := map_of_view hr
  have hs := hl.sorted m.ssg
  have hbounds : ¬ q.last (w.groups m.ssg).data < q.first (w.groups m.ssg).data :=
    Nat.not_lt.mpr (Query.first_le_last hq hs)
  have hvis : visible m.ver (slice (q.first (w.groups m.ssg).data) (q.last (w.groups m.ssg).data)
      (w.groups m.ssg).data) =
      (visible m.ver (w.groups m.ssg).data).filter fun e => q.mem e.1 := by
    rw [Query.slice_eq hq hs]
    have hfilter : visible m.ver ((w.groups m.ssg).data.filter fun e => !!q.holds e.1) =
        (visible m.ver (w.groups m.ssg).data).filter fun e => !!q.holds e.1 :=
      visible_filter fun k _ => !q.holds k
    simpa [Query.holds_eq] using hfilter
  simp only [World.rangeEntries, hm, Option.bind_eq_bind, Option.bind_some, if_neg hbounds]
  rw [← hvis]
  rfl

omit [LinearOrder K] in
/-- Closing a range that was opened before a map changed. -/
theorem update_close {f : Addr → Option (Bool × List (K × V))} (hr : f .range = none) (i : Nat)
    (x v : Option (Bool × List (K × V))) :
    Function.update (Function.update (Function.update f .range x) (.object i) v) .range none =
      Function.update f (.object i) v := by
  rw [Function.update_comm (by simp), Function.update_idem]
  rw [show Function.update f .range none = f by rw [← hr, Function.update_eq_self]]

theorem insertRange_view (h : WellFormed w) (ht : w.view .temporary = none)
    (hr : w.view .range = none) {i : Nat} (ha : w.view (.object i) = some (true, l))
    (hsrc : w.view src = some (flag, l')) {q : Query K} (hq : q.ordered = true) :
    ∃ w', w.insertRange (.object i) src q = some w' ∧ WellFormed w' ∧
      w'.view = Function.update w.view (.object i)
        (some (true, insertAll l (l'.filter fun e => q.mem e.1))) := by
  obtain ⟨w₁, e₁, h₁, v₁⟩ := openRange_view h ht hr hsrc
  have hr₁ : w₁.view .range = some (false, l') := by rw [v₁, Function.update_self]
  have ha₁ : w₁.view (.object i) = some (true, l) := by
    rw [v₁, Function.update_of_ne (by simp), ha]
  have he := rangeEntries_view h₁ hr₁ hq false
  obtain ⟨w₂, e₂, h₂, v₂⟩ := insert_view h₁ ha₁ (l'.filter fun e => q.mem e.1)
  have hr₂ : w₂.view .range = some (false, l') := by
    rw [v₂, Function.update_of_ne (by simp), hr₁]
  obtain ⟨w₃, e₃, h₃, v₃⟩ := destroyMe_view h₂ hr₂
  refine ⟨w₃, ?_, h₃, ?_⟩
  · simp only [World.insertRange, e₁, he, Option.bind_eq_bind, Option.bind_some]
    rw [if_neg Bool.false_ne_true, e₂]
    exact e₃
  · rw [v₃, v₂, v₁, update_close hr]

/-- A writable map is copied entry by entry into a group of its own. -/
theorem copyAll_view (h : WellFormed w) (ht : w.view .temporary = none)
    (hr : w.view .range = none) {i : Nat} (ha : w.view (.object i) = none)
    (hsrc : w.view src = some (flag, l)) :
    ∃ w', (w.newGroup (.object i)).insertRange (.object i) src .all = some w' ∧ WellFormed w' ∧
      w'.view = Function.update w.view (.object i) (some (true, l)) := by
  obtain ⟨h₁, v₁⟩ := newGroup_view h ha
  have hne : src ≠ .object i := by
    rintro rfl
    rw [ha] at hsrc
    cases hsrc
  have ha₁ : (w.newGroup (.object i)).view (.object i) = some (true, []) := by
    rw [v₁, Function.update_self]
  have hsrc₁ : (w.newGroup (.object i)).view src = some (flag, l) := by
    rw [v₁, Function.update_of_ne hne, hsrc]
  obtain ⟨w', e, h', v'⟩ := insertRange_view h₁ (by rw [v₁, Function.update_of_ne (by simp), ht])
    (by rw [v₁, Function.update_of_ne (by simp), hr]) ha₁ hsrc₁ (q := .all) rfl
  have hcopy : insertAll [] (l.filter fun e => Query.mem .all e.1) = l := by
    have hfilter : (l.filter fun e => Query.mem .all e.1) = l := List.filter_eq_self.mpr (by simp [Query.mem])
    rw [hfilter]
    exact insertAll_append (by simpa using h.sorted_view hsrc)
  refine ⟨w', e, h', ?_⟩
  rw [v', v₁, hcopy, Function.update_idem]

theorem copy_view (h : WellFormed w) (ht : w.view .temporary = none) (hr : w.view .range = none)
    {i : Nat} (ha : w.view (.object i) = none) (hsrc : w.view src = some (flag, l)) :
    ∃ w', w.copy (.object i) src = some w' ∧ WellFormed w' ∧
      w'.view = Function.update w.view (.object i) (some (flag, l)) := by
  have hwr := writable_of_view hsrc
  cases flag with
  | false =>
    obtain ⟨w', e, hw, hv⟩ := makeMeSnapshotOf_view h ha hsrc
    refine ⟨w', ?_, hw, hv⟩
    simp only [World.copy, hwr, Option.bind_eq_bind, Option.bind_some]
    exact e
  | true =>
    -- a writable map has a writer in its group, so the copy never joins that group
    obtain ⟨m, hm, hf, -⟩ := map_of_view hsrc
    obtain ⟨n, hn⟩ : ∃ n, w.maps m.next = some n := by
      obtain ⟨rings, hl⟩ := h
      obtain ⟨n, hn, -⟩ := hl.next_alive hm
      exact ⟨n, hn⟩
    have hhas : w.hasWritableSnapshot src = some true := by
      simp [World.hasWritableSnapshot, hm, beq_iff_eq.mp hf]
    obtain ⟨w', e, hw, hv⟩ := copyAll_view h ht hr ha hsrc
    refine ⟨w', ?_, hw, hv⟩
    simp only [World.copy, hwr, hm, hn, hhas, Option.bind_eq_bind, Option.bind_some, if_true,
      Bool.not_true, Bool.false_and]
    exact e

end Views

/-- The program sees the same through the shared groups as with ordinary multimaps. -/
structure Sim (w : World K V) (s : Maps K V) : Prop where
  wellFormed : WellFormed w
  temporary : w.view .temporary = none
  range : w.view .range = none
  objects : ∀ i, w.view (.object i) = s i

def Agree (x : Option (World K V × List (K × V))) (y : Option (Maps K V × List (K × V))) : Prop :=
  match y with
  | none => x = none
  | some (s, out) => ∃ w, x = some (w, out) ∧ Sim w s

namespace Sim

variable {w w' : World K V} {s : Maps K V}

theorem update (h : Sim w s) (hw : WellFormed w') {a : Nat} {v : Option (Bool × List (K × V))}
    (hv : w'.view = Function.update w.view (.object a) v) : Sim w' (Function.update s a v) := by
  refine ⟨hw, ?_, ?_, ?_⟩
  · rw [hv, Function.update_of_ne (by simp), h.temporary]
  · rw [hv, Function.update_of_ne (by simp), h.range]
  · intro i
    by_cases hi : i = a
    · subst hi
      rw [hv, Function.update_self, Function.update_self]
    · have hne : (Addr.object i : Addr) ≠ .object a := by simpa using hi
      rw [hv, Function.update_of_ne hne, Function.update_of_ne hi, h.objects]

theorem unused_none (h : Sim w s) {a : Nat} (ha : s a = none) : w.unused a = some () := by
  have hm := map_none_of_view ((h.objects a).trans ha)
  simp [World.unused, hm]

theorem unused_some (h : Sim w s) {a : Nat} {v : Bool × List (K × V)} (ha : s a = some v) :
    w.unused a = none := by
  obtain ⟨flag, l⟩ := v
  obtain ⟨m, hm, -⟩ := map_of_view ((h.objects a).trans ha)
  simp [World.unused, hm]

theorem not_writable (h : Sim w s) {a : Nat} (ha : ∀ l, s a ≠ some (true, l)) :
    w.writable (.object a) ≠ some true := by
  cases hs : s a with
  | none =>
    rw [writable_of_view_none ((h.objects a).trans hs)]
    simp
  | some v =>
    obtain ⟨flag, l⟩ := v
    cases flag with
    | true => exact absurd hs (ha l)
    | false =>
      rw [writable_of_view ((h.objects a).trans hs)]
      simp

variable [DecidableEq V]

theorem exec_create (h : Sim w s) (a : Nat) : Agree (w.exec (.create a)) (s.exec (.create a)) := by
  cases hs : s a with
  | none =>
    obtain ⟨hw, hv⟩ := newGroup_view h.wellFormed ((h.objects a).trans hs)
    simp only [Agree, Maps.exec, hs, World.exec, h.unused_none hs]
    exact ⟨_, rfl, h.update hw hv⟩
  | some v =>
    simp only [Agree, Maps.exec, hs, World.exec, h.unused_some hs]
    rfl

theorem exec_insert (h : Sim w s) (a : Nat) (entries : List (K × V)) :
    Agree (w.exec (.insert a entries)) (s.exec (.insert a entries)) := by
  by_cases hs : ∃ l, s a = some (true, l)
  · obtain ⟨l, hs⟩ := hs
    obtain ⟨w', e, hw, hv⟩ := insert_view h.wellFormed ((h.objects a).trans hs) entries
    simp only [Agree, Maps.exec, hs, World.exec, e]
    exact ⟨w', rfl, h.update hw hv⟩
  · have hfail := insert_fails (h.not_writable fun l hl => hs ⟨l, hl⟩) entries
    have hnone : s.exec (.insert a entries) = none := by
      simp only [Maps.exec]
      split
      · next l hl => exact absurd ⟨l, hl⟩ hs
      · rfl
    simp only [Agree, hnone, World.exec, hfail]
    rfl

theorem exec_insertRange (h : Sim w s) (a src : Nat) {q : Query K} (hq : q.ordered = true) :
    Agree (w.exec (.insertRange a src q)) (s.exec (.insertRange a src q)) := by
  cases hsrc : s src with
  | none =>
    have hfail := openRange_fails ((h.objects src).trans hsrc)
    have hnone : s.exec (.insertRange a src q) = none := by
      simp only [Maps.exec, hsrc]
      split <;> simp_all
    simp only [Agree, hnone, World.exec, World.insertRange, hfail]
    rfl
  | some v =>
    obtain ⟨flag, l'⟩ := v
    have hvsrc := (h.objects src).trans hsrc
    by_cases hs : ∃ l, s a = some (true, l)
    · obtain ⟨l, hs⟩ := hs
      obtain ⟨w', e, hw, hv⟩ := insertRange_view h.wellFormed h.temporary h.range
        ((h.objects a).trans hs) hvsrc hq
      simp only [Agree, Maps.exec, hs, hsrc, World.exec, e]
      exact ⟨w', rfl, h.update hw hv⟩
    · obtain ⟨w₁, e₁, h₁, v₁⟩ := openRange_view h.wellFormed h.temporary h.range hvsrc
      have hr₁ : w₁.view .range = some (false, l') := by rw [v₁, Function.update_self]
      have hnw : w₁.writable (.object a) ≠ some true := by
        have hva : w₁.view (.object a) = w.view (.object a) := by
          rw [v₁, Function.update_of_ne (by simp)]
        have hold := h.not_writable fun l hl => hs ⟨l, hl⟩
        cases hview : w.view (.object a) with
        | none =>
          rw [writable_of_view_none (hva.trans hview)]
          simp
        | some v =>
          rw [writable_of_view (hva.trans hview), ← writable_of_view hview]
          exact hold
      have hnone : s.exec (.insertRange a src q) = none := by
        simp only [Maps.exec, hsrc]
        split
        · next l _ _ hl _ => exact absurd ⟨l, hl⟩ hs
        · rfl
      simp only [Agree, hnone, World.exec, World.insertRange, e₁, Option.bind_eq_bind,
        Option.bind_some, rangeEntries_view h₁ hr₁ hq false, insert_fails hnw]
      rfl

omit [DecidableEq V] in
theorem erase_agree (h : Sim w s) (a : Nat) {q : Query K} (hq : q.ordered = true)
    (matched : V → Bool) (counted : Bool) {keep : K × V → Bool}
    (hkeep : ∀ e, keep e = !(q.mem e.1 && matched e.2)) :
    Agree
      (((w.maps (.object a)).bind fun m => w.erase (.object a) (q.first (w.groups m.ssg).data)
        (q.last (w.groups m.ssg).data) matched counted).bind fun w => some (w, []))
      (match s a with
      | some (true, l) => some (Function.update s a (some (true, l.filter keep)), [])
      | _ => none) := by
  by_cases hs : ∃ l, s a = some (true, l)
  · obtain ⟨l, hs⟩ := hs
    obtain ⟨m, w', hm, e, hw, hv⟩ := erase_view h.wellFormed ((h.objects a).trans hs) hq matched
      counted
    have hfilter : (l.filter fun e => !(q.mem e.1 && matched e.2)) = l.filter keep := by
      apply List.filter_congr
      intro e _
      exact (hkeep e).symm
    rw [hfilter] at hv
    simp only [Agree, hs, hm, Option.bind_some, e]
    exact ⟨w', rfl, h.update hw hv⟩
  · have hnw := h.not_writable fun l hl => hs ⟨l, hl⟩
    have hnone : (match s a with
        | some (true, l) => some (Function.update s a (some (true, l.filter keep)), [])
        | _ => (none : Option (Maps K V × List (K × V)))) = none := by
      split
      · next l hl => exact absurd ⟨l, hl⟩ hs
      · rfl
    rw [hnone]
    show _ = none
    cases hm : w.maps (.object a) with
    | none => rfl
    | some m => simp [erase_fails hnw]

theorem exec_eraseKey (h : Sim w s) (a : Nat) (key : K) :
    Agree (w.exec (.eraseKey a key)) (s.exec (.eraseKey a key)) := by
  refine h.erase_agree a (q := .query key) rfl (fun _ => true) true ?_
  intro e
  simp [Query.mem]

theorem exec_eraseKeyValue (h : Sim w s) (a : Nat) (key : K) (value : V) :
    Agree (w.exec (.eraseKeyValue a key value)) (s.exec (.eraseKeyValue a key value)) := by
  refine h.erase_agree a (q := .query key) rfl (fun v => v == value) true ?_
  intro e
  rw [Bool.eq_iff_iff]
  simp [Query.mem]

/-- The range keeps a snapshot, so the entries are marked and the snapshot then goes. -/
theorem exec_eraseRange (h : Sim w s) (a : Nat) {q : Query K} (hq : q.ordered = true) :
    Agree (w.exec (.eraseRange a q)) (s.exec (.eraseRange a q)) := by
  cases hs : s a with
  | none =>
    have hfail := openRange_fails ((h.objects a).trans hs)
    simp only [Agree, Maps.exec, hs, World.exec, hfail]
    rfl
  | some v =>
    obtain ⟨flag, l⟩ := v
    obtain ⟨w₁, e₁, h₁, v₁⟩ := openRange_view h.wellFormed h.temporary h.range
      ((h.objects a).trans hs)
    have hr₁ : w₁.view .range = some (false, l) := by rw [v₁, Function.update_self]
    have ha₁ : w₁.view (.object a) = some (flag, l) := by
      rw [v₁, Function.update_of_ne (by simp), h.objects, hs]
    cases flag with
    | false =>
      have hnw : w₁.writable (.object a) ≠ some true := by
        rw [writable_of_view ha₁]
        simp
      obtain ⟨m, hm, -⟩ := map_of_view ha₁
      simp only [Agree, Maps.exec, hs, World.exec, e₁, Option.bind_eq_bind, Option.bind_some,
        World.eraseRange, hm, erase_fails hnw]
      rfl
    | true =>
      obtain ⟨m, w₂, hm, e₂, h₂, v₂⟩ := erase_view h₁ ha₁ hq (fun _ => true) false
      have hr₂ : w₂.view .range = some (false, l) := by
        rw [v₂, Function.update_of_ne (by simp), hr₁]
      obtain ⟨w₃, e₃, h₃, v₃⟩ := destroyMe_view h₂ hr₂
      have hv : w₃.view = Function.update w.view (.object a)
          (some (true, l.filter fun e => !q.mem e.1)) := by
        rw [v₃, v₂, v₁, update_close h.range]
        simp only [Bool.and_true]
      simp only [Agree, Maps.exec, hs, World.exec, e₁, Option.bind_eq_bind, Option.bind_some,
        World.eraseRange, hm, e₂, World.closeRange, e₃]
      exact ⟨w₃, rfl, h.update h₃ hv⟩

theorem exec_snapshot (h : Sim w s) (a src : Nat) :
    Agree (w.exec (.snapshot a src)) (s.exec (.snapshot a src)) := by
  cases hs : s a with
  | some v =>
    simp only [Agree, Maps.exec, hs, World.exec, h.unused_some hs]
    rfl
  | none =>
    cases hsrc : s src with
    | none =>
      have hm := map_none_of_view ((h.objects src).trans hsrc)
      simp only [Agree, Maps.exec, hs, hsrc, World.exec, h.unused_none hs, World.makeMeSnapshotOf, hm]
      rfl
    | some v =>
      obtain ⟨flag, l⟩ := v
      obtain ⟨w', e, hw, hv⟩ := makeMeSnapshotOf_view h.wellFormed ((h.objects a).trans hs)
        ((h.objects src).trans hsrc)
      simp only [Agree, Maps.exec, hs, hsrc, World.exec, h.unused_none hs, e]
      exact ⟨w', rfl, h.update hw hv⟩

theorem exec_copy (h : Sim w s) (a src : Nat) :
    Agree (w.exec (.copy a src)) (s.exec (.copy a src)) := by
  cases hs : s a with
  | some v =>
    simp only [Agree, Maps.exec, hs, World.exec, h.unused_some hs]
    rfl
  | none =>
    cases hsrc : s src with
    | none =>
      have hwr := writable_of_view_none ((h.objects src).trans hsrc)
      simp only [Agree, Maps.exec, hs, hsrc, World.exec, h.unused_none hs, World.copy, hwr]
      rfl
    | some v =>
      obtain ⟨flag, l⟩ := v
      obtain ⟨w', e, hw, hv⟩ := copy_view h.wellFormed h.temporary h.range
        ((h.objects a).trans hs) ((h.objects src).trans hsrc)
      simp only [Agree, Maps.exec, hs, hsrc, World.exec, h.unused_none hs, e]
      exact ⟨w', rfl, h.update hw hv⟩

/-- The old value goes first, and its group may collect garbage before the source is read. -/
theorem exec_assign (h : Sim w s) (a src : Nat) :
    Agree (w.exec (.assign a src)) (s.exec (.assign a src)) := by
  cases hs : s a with
  | none =>
    have hm := map_none_of_view ((h.objects a).trans hs)
    simp only [Agree, Maps.exec, hs, World.exec, World.assign, hm]
    rfl
  | some u =>
    obtain ⟨flag, l⟩ := u
    have hva := (h.objects a).trans hs
    obtain ⟨m, hm, -⟩ := map_of_view hva
    by_cases hne : a = src
    · subst hne
      simp only [Agree, Maps.exec, hs, World.exec, World.assign, hm, Option.bind_eq_bind,
        Option.bind_some, if_true]
      refine ⟨w, rfl, ?_⟩
      rw [← hs, Function.update_eq_self]
      exact h
    · have hne' : (Addr.object src : Addr) ≠ .object a := by
        simpa [eq_comm] using hne
      have hif : ¬ (Addr.object a : Addr) = .object src := fun he => hne' he.symm
      obtain ⟨w₁, e₁, h₁, v₁⟩ := destroyMe_view h.wellFormed hva
      have ha₁ : w₁.view (.object a) = none := by rw [v₁, Function.update_self]
      have hsrc₁ : w₁.view (.object src) = s src := by
        rw [v₁, Function.update_of_ne hne', h.objects]
      cases hsrc : s src with
      | none =>
        have hwr := writable_of_view_none (hsrc₁.trans hsrc)
        simp only [Agree, Maps.exec, hs, hsrc, World.exec, World.assign, hm, Option.bind_eq_bind,
          Option.bind_some, if_neg hif, e₁, hwr]
        rfl
      | some v =>
        obtain ⟨flag', l'⟩ := v
        have hv₁ := hsrc₁.trans hsrc
        have hwr := writable_of_view hv₁
        have hcopy : ∃ w', (if flag' then
            (w₁.newGroup (.object a)).insertRange (.object a) (.object src) .all
            else w₁.makeMeSnapshotOf (.object a) (.object src)) = some w' ∧ WellFormed w' ∧
            w'.view = Function.update w₁.view (.object a) (some (flag', l')) := by
          cases flag' with
          | true =>
            exact copyAll_view h₁ (by rw [v₁, Function.update_of_ne (by simp), h.temporary])
              (by rw [v₁, Function.update_of_ne (by simp), h.range]) ha₁ hv₁
          | false => exact makeMeSnapshotOf_view h₁ ha₁ hv₁
        obtain ⟨w', e, hw, hv⟩ := hcopy
        rw [v₁, Function.update_idem] at hv
        simp only [Agree, Maps.exec, hs, hsrc, World.exec, World.assign, hm, Option.bind_eq_bind,
          Option.bind_some, if_neg hif, e₁, hwr, e]
        exact ⟨w', rfl, h.update hw hv⟩

theorem exec_destroy (h : Sim w s) (a : Nat) :
    Agree (w.exec (.destroy a)) (s.exec (.destroy a)) := by
  cases hs : s a with
  | none =>
    have hm := map_none_of_view ((h.objects a).trans hs)
    simp only [Agree, Maps.exec, hs, World.exec, World.destroyMe, hm]
    rfl
  | some v =>
    obtain ⟨flag, l⟩ := v
    obtain ⟨w', e, hw, hv⟩ := destroyMe_view h.wellFormed ((h.objects a).trans hs)
    simp only [Agree, Maps.exec, hs, World.exec, e]
    exact ⟨w', rfl, h.update hw hv⟩

theorem exec_gcRun (h : Sim w s) (a : Nat) : Agree (w.exec (.gcRun a)) (s.exec (.gcRun a)) := by
  cases hs : s a with
  | none =>
    have hm := map_none_of_view ((h.objects a).trans hs)
    simp only [Agree, Maps.exec, hs, World.exec, World.gcRun, hm]
    rfl
  | some v =>
    obtain ⟨flag, l⟩ := v
    obtain ⟨w', e, hw, hv⟩ := gcRun_view h.wellFormed ((h.objects a).trans hs)
    simp only [Agree, Maps.exec, hs, World.exec, e]
    refine ⟨w', rfl, hw, ?_, ?_, ?_⟩
    · rw [hv, h.temporary]
    · rw [hv, h.range]
    · intro i
      rw [hv, h.objects]

theorem exec_enumerate (h : Sim w s) (a : Nat) {q : Query K} (hq : q.ordered = true)
    (reverse : Bool) : Agree (w.exec (.enumerate a q reverse)) (s.exec (.enumerate a q reverse)) := by
  cases hs : s a with
  | none =>
    have hfail := openRange_fails ((h.objects a).trans hs)
    simp only [Agree, Maps.exec, hs, World.exec, hfail]
    rfl
  | some v =>
    obtain ⟨flag, l⟩ := v
    obtain ⟨w₁, e₁, h₁, v₁⟩ := openRange_view h.wellFormed h.temporary h.range
      ((h.objects a).trans hs)
    have hr₁ : w₁.view .range = some (false, l) := by rw [v₁, Function.update_self]
    have hentries := rangeEntries_view h₁ hr₁ hq reverse
    obtain ⟨w₂, e₂, h₂, v₂⟩ := destroyMe_view h₁ hr₁
    have hv : w₂.view = w.view := by
      rw [v₂, v₁, Function.update_idem, ← h.range, Function.update_eq_self]
    simp only [Agree, Maps.exec, hs, World.exec, e₁, Option.bind_eq_bind, Option.bind_some, hentries,
      World.closeRange, e₂]
    refine ⟨w₂, rfl, h₂, ?_, ?_, ?_⟩
    · rw [hv, h.temporary]
    · rw [hv, h.range]
    · intro i
      rw [hv, h.objects]

end Sim

def Op.ordered : Op K V → Bool
  | .insertRange _ _ q => q.ordered
  | .eraseRange _ q => q.ordered
  | .enumerate _ q _ => q.ordered
  | _ => true

variable [DecidableEq V]

theorem Sim.exec {w : World K V} {s : Maps K V} (h : Sim w s) {op : Op K V}
    (hop : op.ordered = true) : Agree (w.exec op) (s.exec op) := by
  cases op with
  | create a => exact h.exec_create a
  | insert a entries => exact h.exec_insert a entries
  | insertRange a src q => exact h.exec_insertRange a src hop
  | eraseKey a key => exact h.exec_eraseKey a key
  | eraseKeyValue a key value => exact h.exec_eraseKeyValue a key value
  | eraseRange a q => exact h.exec_eraseRange a hop
  | snapshot a src => exact h.exec_snapshot a src
  | copy a src => exact h.exec_copy a src
  | assign a src => exact h.exec_assign a src
  | destroy a => exact h.exec_destroy a
  | gcRun a => exact h.exec_gcRun a
  | enumerate a q reverse => exact h.exec_enumerate a hop reverse

theorem Sim.run {w : World K V} {s : Maps K V} (h : Sim w s) {ops : List (Op K V)}
    (hops : ∀ op ∈ ops, op.ordered = true) :
    (w.run ops).map Prod.snd = (s.run ops).map Prod.snd ∧
      ∀ w' outs, w.run ops = some (w', outs) → ∃ s', Sim w' s' := by
  induction ops generalizing w s with
  | nil =>
    refine ⟨rfl, ?_⟩
    intro w' outs hrun
    cases hrun
    exact ⟨s, h⟩
  | cons op ops ih =>
    have hstep := h.exec (hops op List.mem_cons_self)
    have hrest : ∀ op' ∈ ops, op'.ordered = true := fun op' hm => hops op' (List.mem_cons_of_mem op hm)
    cases hs : s.exec op with
    | none =>
      simp only [Agree, hs] at hstep
      simp [World.run, Maps.run, hstep, hs]
    | some r =>
      obtain ⟨s', out⟩ := r
      simp only [Agree, hs] at hstep
      obtain ⟨w', hw, h'⟩ := hstep
      obtain ⟨hout, hsim⟩ := ih h' hrest
      constructor
      · simp only [World.run, Maps.run, hw, hs, Option.bind_eq_bind, Option.bind_some]
        cases hwr : w'.run ops with
        | none =>
          cases hsr : s'.run ops with
          | none => rfl
          | some x => simp [hwr, hsr] at hout
        | some y =>
          cases hsr : s'.run ops with
          | none => simp [hwr, hsr] at hout
          | some x =>
            have he : y.2 = x.2 := by simpa [hwr, hsr] using hout
            simp [he]
      · intro w'' outs hrun
        simp only [World.run, hw, Option.bind_eq_bind, Option.bind_some] at hrun
        obtain ⟨y, hy, hend⟩ := Option.bind_eq_some_iff.mp hrun
        have he : y.1 = w'' := congrArg Prod.fst (Option.some.inj hend)
        exact he ▸ hsim y.1 y.2 hy

omit [DecidableEq V] in
theorem Sim.init : Sim ({} : World K V) (fun _ => none) := by
  refine ⟨⟨fun _ => [], ?_⟩, rfl, rfl, fun _ => rfl⟩
  refine ⟨fun _ => Ring.IsRing.nil, ?_, ?_, fun _ => Nat.le_refl _, fun _ _ => rfl,
    fun _ => List.Pairwise.nil, ?_, ?_⟩
  · intro a m h
    cases h
  · intro g a h
    cases h
  · intro g a h
    cases h
  · intro a m h
    cases h

theorem Sim.enumerate_sorted {w w' : World K V} {s : Maps K V} (h : Sim w s) {a : Nat}
    {q : Query K} (hq : q.ordered = true) {reverse : Bool} {out : List (K × V)}
    (he : w.exec (.enumerate a q reverse) = some (w', out)) :
    Sorted (if reverse then out.reverse else out) := by
  have hagree := h.exec_enumerate a hq reverse
  cases hs : s a with
  | none =>
    simp only [Agree, Maps.exec, hs, he] at hagree
    cases hagree
  | some v =>
    obtain ⟨flag, l⟩ := v
    simp only [Agree, Maps.exec, hs, he] at hagree
    obtain ⟨w'', hw'', -⟩ := hagree
    have hl : Sorted (l.filter fun e => q.mem e.1) :=
      (h.wellFormed.sorted_view ((h.objects a).trans hs)).sublist List.filter_sublist
    have hout := (Prod.mk.inj (Option.some.inj hw'')).2
    rw [hout]
    cases reverse with
    | false => exact hl
    | true => simpa using hl

/-- Whatever a program does with its maps, it fails and enumerates as with ordinary multimaps and
with snapshots that are copies; and what it enumerates is in the order of the keys. -/
theorem snapshot_isolation (ops : List (Op K V)) (hops : ∀ op ∈ ops, op.ordered = true) :
    (World.run {} ops).map Prod.snd = (Maps.run (fun _ => none) ops).map Prod.snd ∧
      ∀ (w : World K V) outs, World.run {} ops = some (w, outs) →
        ∀ a q reverse w' out, q.ordered = true →
          w.exec (.enumerate a q reverse) = some (w', out) →
            Sorted (if reverse then out.reverse else out) := by
  obtain ⟨hout, hsim⟩ := Sim.init.run hops
  refine ⟨hout, ?_⟩
  intro w outs hrun a q reverse w' out hq he
  obtain ⟨s, h⟩ := hsim w outs hrun
  exact h.enumerate_sorted hq he

/-- A snapshot taken between two erasures, read after its source was erased from and assigned to. -/
def isolationProgram : List (Op Nat Nat) :=
  [.create 0, .insert 0 [(3, 1), (1, 2), (3, 4)], .snapshot 1 0, .eraseKeyValue 0 3 1,
    .eraseRange 0 (.queryLt 2), .copy 2 0, .insert 2 [(2, 9)], .gcRun 0,
    .enumerate 0 .all false, .enumerate 1 .all false, .enumerate 2 (.queryIn 1 9) true,
    .assign 0 1, .enumerate 0 (.query 3) false]

theorem snapshot_isolation_program :
    (∀ op ∈ isolationProgram, op.ordered = true) ∧
    (World.run {} isolationProgram).map Prod.snd =
      some [[], [], [], [], [], [], [], [], [(3, 4)], [(1, 2), (3, 1), (3, 4)], [(3, 4), (2, 9)],
        [], [(3, 1), (3, 4)]] := by
  have hops : ∀ op ∈ isolationProgram, op.ordered = true := by decide
  refine ⟨hops, ?_⟩
  rw [(snapshot_isolation isolationProgram hops).1]
  decide +kernel

end Jetpack.Memdb
