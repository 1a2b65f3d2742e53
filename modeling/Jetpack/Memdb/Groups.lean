import Jetpack.Memdb.Visibility

/-! Every operation keeps the groups of maps well formed, and changes what one map shows. -/

namespace Jetpack.Memdb

open Multimap Ring

variable {K V : Type}

namespace World

def nextOf (w : World K V) (a : Addr) : Option Addr := (w.maps a).map SortedMap.next

def prevOf (w : World K V) (a : Addr) : Option Addr := (w.maps a).map SortedMap.prev

def view (w : World K V) (a : Addr) : Option (Bool × List (K × V)) :=
  (w.maps a).map fun m =>
    ((w.groups m.ssg).writer == some a, visible m.ver (w.groups m.ssg).data)

end World

namespace World

variable {w : World K V} {a : Addr} {m : SortedMap}

theorem view_eq (ha : w.maps a = some m) :
    w.view a = some ((w.groups m.ssg).writer == some a, visible m.ver (w.groups m.ssg).data) := by
  simp [view, ha]

theorem view_eq_none (ha : w.maps a = none) : w.view a = none := by
  simp [view, ha]

theorem nextOf_eq (ha : w.maps a = some m) : w.nextOf a = some m.next := by
  simp [nextOf, ha]

theorem prevOf_eq (ha : w.maps a = some m) : w.prevOf a = some m.prev := by
  simp [prevOf, ha]

theorem writable_eq (ha : w.maps a = some m) :
    w.writable a = some ((w.groups m.ssg).writer == some a) := by
  simp [writable, ha]

theorem writable_of_writer (ha : w.maps a = some m) (hw : (w.groups m.ssg).writer = some a) :
    w.writable a = some true := by
  simp [writable_eq ha, hw]

theorem view_setGroup {g : Nat} {group : Group K V}
    (hwr : ∀ b n, w.maps b = some n → n.ssg = g →
      (group.writer == some b) = ((w.groups g).writer == some b))
    (hvis : ∀ b n, w.maps b = some n → n.ssg = g →
      visible n.ver group.data = visible n.ver (w.groups g).data) :
    (w.setGroup g group).view = w.view := by
  funext b
  cases hb : w.maps b with
  | none => rw [view_eq_none hb, view_eq_none (w := w.setGroup g group) hb]
  | some n =>
    rw [view_eq hb, view_eq (w := w.setGroup g group) hb]
    by_cases hg : n.ssg = g
    · subst hg
      simp only [setGroup, Function.update_self, hwr b n hb rfl, hvis b n hb rfl]
    · simp only [setGroup, Function.update_of_ne hg]

end World

variable [LinearOrder K]

/-- The members of group `g` are linked in the ring `rings g`, and its writer has the last version. -/
structure Linked (w : World K V) (rings : Nat → List Addr) : Prop where
  ring : ∀ g, IsRing w.nextOf w.prevOf (rings g)
  mem : ∀ a m, w.maps a = some m → a ∈ rings m.ssg
  alive : ∀ g, ∀ a ∈ rings g, ∃ m, w.maps a = some m ∧ m.ssg = g
  fuel : ∀ g, (rings g).length ≤ w.created
  fresh : ∀ g, w.nextGroup ≤ g → rings g = []
  sorted : ∀ g, Sorted (w.groups g).data
  writer : ∀ g a, (w.groups g).writer = some a → a ∈ rings g
  latest : ∀ a m, w.maps a = some m → (w.groups m.ssg).writer = some a →
    (∀ b n, w.maps b = some n → n.ssg = m.ssg → n.ver ≤ m.ver) ∧
      ∀ e ∈ (w.groups m.ssg).data, e.2.createdAt ≤ m.ver ∧ ∀ r ∈ e.2.removedAt, r ≤ m.ver

def WellFormed (w : World K V) : Prop := ∃ rings, Linked w rings

namespace Linked

variable {w : World K V} {rings : Nat → List Addr} {a b : Addr} {m n : SortedMap}

theorem mem_iff (h : Linked w rings) (ha : w.maps a = some m) {g : Nat} :
    a ∈ rings g ↔ m.ssg = g := by
  constructor
  · intro hg
    obtain ⟨n, hn, hng⟩ := h.alive g a hg
    rw [ha] at hn
    cases hn
    exact hng
  · rintro rfl
    exact h.mem a m ha

theorem not_mem (h : Linked w rings) (ha : w.maps a = none) (g : Nat) : a ∉ rings g := by
  intro hg
  obtain ⟨n, hn, -⟩ := h.alive g a hg
  rw [ha] at hn
  cases hn

theorem writer_alive (h : Linked w rings) {g : Nat} (hw : (w.groups g).writer = some a) :
    ∃ m, w.maps a = some m ∧ m.ssg = g := h.alive g a (h.writer g a hw)

theorem setGroup (h : Linked w rings) {g : Nat} {group : Group K V}
    (hwr : ∀ a, group.writer = some a → (w.groups g).writer = some a)
    (hsub : ∀ e ∈ group.data, e ∈ (w.groups g).data) (hs : Sorted group.data) :
    Linked (w.setGroup g group) rings := by
  refine ⟨h.ring, h.mem, h.alive, h.fuel, h.fresh, ?_, ?_, ?_⟩
  · intro g'
    by_cases hg : g' = g
    · subst hg
      simpa [World.setGroup] using hs
    · simpa [World.setGroup, Function.update_of_ne hg] using h.sorted g'
  · intro g' a hw
    by_cases hg : g' = g
    · subst hg
      exact h.writer g' a (hwr a (by simpa [World.setGroup] using hw))
    · exact h.writer g' a (by simpa [World.setGroup, Function.update_of_ne hg] using hw)
  · intro a m ha hw
    by_cases hg : m.ssg = g
    · subst hg
      simp only [World.setGroup, Function.update_self] at hw ⊢
      obtain ⟨h1, h2⟩ := h.latest a m ha (hwr a hw)
      exact ⟨h1, fun e he => h2 e (hsub e he)⟩
    · simp only [World.setGroup, Function.update_of_ne hg] at hw ⊢
      exact h.latest a m ha hw

/-- The writer gets a new version and changes the entries, such that nobody else notices. -/
theorem write (h : Linked w rings) (ha : w.maps a = some m)
    (hw : (w.groups m.ssg).writer = some a) (group : Group K V) (hwr : group.writer = some a)
    (hs : Sorted group.data)
    (hle : ∀ e ∈ group.data, e.2.createdAt ≤ m.ver + 1 ∧ ∀ r ∈ e.2.removedAt, r ≤ m.ver + 1)
    (hold : ∀ b n, w.maps b = some n → n.ssg = m.ssg → b ≠ a →
      visible n.ver group.data = visible n.ver (w.groups m.ssg).data) :
    Linked ((w.setMap a (some { m with ver := m.ver + 1 })).setGroup m.ssg group) rings ∧
      ((w.setMap a (some { m with ver := m.ver + 1 })).setGroup m.ssg group).view =
        Function.update w.view a (some (true, visible (m.ver + 1) group.data)) := by
  set w' := (w.setMap a (some { m with ver := m.ver + 1 })).setGroup m.ssg group with hw'
  have hmaps : ∀ b, w'.maps b = if b = a then some { m with ver := m.ver + 1 } else w.maps b :=
    fun b => Function.update_apply _ _ _ _
  have hgroups : ∀ g, w'.groups g = if g = m.ssg then group else w.groups g :=
    fun g => Function.update_apply _ _ _ _
  have hnext : w'.nextOf = w.nextOf := by
    funext b
    simp only [World.nextOf, hmaps]
    split
    · next hb => simp [hb, ha]
    · rfl
  have hprev : w'.prevOf = w.prevOf := by
    funext b
    simp only [World.prevOf, hmaps]
    split
    · next hb => simp [hb, ha]
    · rfl
  -- every map keeps its group, and no version but that of the writer changes
  have hback : ∀ b n, w'.maps b = some n → ∃ n', w.maps b = some n' ∧ n'.ssg = n.ssg ∧
      ((b = a ∧ n.ver = m.ver + 1) ∨ (b ≠ a ∧ n = n')) := by
    intro b n hb
    rw [hmaps] at hb
    split at hb
    · next hba =>
      subst hba
      cases hb
      exact ⟨m, ha, rfl, .inl ⟨rfl, rfl⟩⟩
    · next hba => exact ⟨n, hb, rfl, .inr ⟨hba, rfl⟩⟩
  obtain ⟨hver, -⟩ := h.latest a m ha hw
  refine ⟨⟨?_, ?_, ?_, h.fuel, h.fresh, ?_, ?_, ?_⟩, ?_⟩
  · intro g
    rw [hnext, hprev]
    exact h.ring g
  · intro b n hb
    obtain ⟨n', hb', hg, -⟩ := hback b n hb
    rw [← hg]
    exact h.mem b n' hb'
  · intro g b hb
    obtain ⟨n, hn, hg⟩ := h.alive g b hb
    rw [hmaps]
    split
    · next hba =>
      subst hba
      rw [ha] at hn
      cases hn
      exact ⟨_, rfl, hg⟩
    · exact ⟨n, hn, hg⟩
  · intro g
    rw [hgroups]
    split
    · exact hs
    · exact h.sorted g
  · intro g b hb
    rw [hgroups] at hb
    split at hb
    · next hg =>
      rw [hwr] at hb
      cases hb
      rw [hg]
      exact h.writer m.ssg a hw
    · exact h.writer g b hb
  · intro b n hb hbw
    obtain ⟨n', hb', hg, hcase⟩ := hback b n hb
    rw [hgroups] at hbw ⊢
    split at hbw
    · next hng =>
      rw [hwr] at hbw
      cases hbw
      have hnv : n.ver = m.ver + 1 := by
        rcases hcase with ⟨-, hv⟩ | ⟨hne, -⟩
        · exact hv
        · exact absurd rfl hne
      rw [if_pos hng, hnv]
      refine ⟨?_, hle⟩
      intro c k hc hk
      obtain ⟨k', hc', hkg, hkc⟩ := hback c k hc
      rcases hkc with ⟨-, hv⟩ | ⟨-, rfl⟩
      · exact Nat.le_of_eq hv
      · exact Nat.le_succ_of_le (hver c k hc' (hk.trans hng))
    · next hng =>
      have hba : b ≠ a := by
        rintro rfl
        rw [ha] at hb'
        cases hb'
        exact hng hg.symm
      obtain rfl : n = n' := by
        rcases hcase with ⟨he, -⟩ | ⟨-, he⟩
        · exact absurd he hba
        · exact he
      rw [if_neg hng]
      obtain ⟨h1, h2⟩ := h.latest b n hb' hbw
      refine ⟨?_, h2⟩
      intro c k hc hk
      obtain ⟨k', hc', hkg, hkc⟩ := hback c k hc
      rcases hkc with ⟨rfl, -⟩ | ⟨-, rfl⟩
      · rw [ha] at hc'
        cases hc'
        exact absurd (hk.symm.trans hkg.symm) hng
      · exact h1 c k hc' hk
  · funext b
    by_cases hba : b = a
    · subst hba
      rw [Function.update_self, World.view, hmaps, if_pos rfl]
      simp [hgroups, hwr]
    · rw [Function.update_of_ne hba]
      simp only [World.view, hmaps, if_neg hba]
      cases hb : w.maps b with
      | none => rfl
      | some n =>
        simp only [Option.map_some, hgroups]
        split
        · next hg =>
          rw [hold b n hb hg hba, hg, hwr, hw]
        · rfl

theorem insert (h : Linked w rings) (ha : w.maps a = some m)
    (hw : (w.groups m.ssg).writer = some a) (entries : List (K × V)) :
    ∃ w', w.insert a entries = some w' ∧ Linked w' rings ∧
      w'.view = Function.update w.view a
        (some (true, insertAll (visible m.ver (w.groups m.ssg).data) entries)) := by
  obtain ⟨hver, hle⟩ := h.latest a m ha hw
  have hs := h.sorted m.ssg
  let vvs := entries.map fun e => (e.1, { createdAt := m.ver + 1, val := e.2 : VersionedValue V })
  let group : Group K V :=
    { w.groups m.ssg with
      data := insertAll (w.groups m.ssg).data vvs
      gcInsertCounter := (w.groups m.ssg).gcInsertCounter + entries.length }
  have hle' : ∀ e ∈ group.data,
      e.2.createdAt ≤ m.ver + 1 ∧ ∀ r ∈ e.2.removedAt, r ≤ m.ver + 1 := by
    intro e he
    rcases mem_insertAll.mp he with he | he
    · obtain ⟨hc, hr⟩ := hle e he
      exact ⟨Nat.le_succ_of_le hc, fun r hrm => Nat.le_succ_of_le (hr r hrm)⟩
    · obtain ⟨e', -, rfl⟩ := List.mem_map.mp he
      exact ⟨Nat.le_refl _, by simp⟩
  have hold : ∀ b n, w.maps b = some n → n.ssg = m.ssg → b ≠ a →
      visible n.ver group.data = visible n.ver (w.groups m.ssg).data := by
    intro b n hb hg _
    exact visible_insertAll_old (Nat.lt_succ_of_le (hver b n hb hg)) entries
  have hnew : visible (m.ver + 1) group.data =
      insertAll (visible m.ver (w.groups m.ssg).data) entries := by
    rw [← visible_succ hle]
    exact visible_insertAll_new hs entries
  obtain ⟨hl, hv⟩ := h.write ha hw group hw (hs.insertAll vvs) hle' hold
  refine ⟨_, ?_, hl, by rw [hv, hnew]⟩
  simp only [World.insert, World.writable_of_writer ha hw, ha, Option.bind_eq_bind, Option.bind_some,
    if_true]
  rfl

theorem prev_alive (h : Linked w rings) (ha : w.maps a = some m) :
    ∃ p, w.maps m.prev = some p ∧ p.ssg = m.ssg := by
  obtain ⟨t, hring, hperm⟩ := (h.ring m.ssg).from_mem (h.mem a m ha)
  obtain ⟨u, p, hu, -, -, hpa, -⟩ := hring.cons
  rw [World.prevOf_eq ha] at hpa
  obtain rfl := Option.some.inj hpa
  exact h.alive m.ssg m.prev (hperm.mem_iff.mp (by simp [hu]))

/-- The writer has no snapshot next to it exactly when it is alone in its group. -/
theorem hasReadonlySnapshot_eq (h : Linked w rings) (ha : w.maps a = some m)
    (hw : (w.groups m.ssg).writer = some a) :
    w.hasReadonlySnapshot a = some (decide (m.prev ≠ a)) := by
  obtain ⟨p, hp, hpg⟩ := h.prev_alive ha
  have hpw : w.writable m.prev = some (decide (m.prev = a)) := by
    rw [World.writable_eq hp, hpg, hw, Option.some.injEq, Bool.eq_iff_iff]
    simp only [beq_iff_eq, Option.some.injEq, decide_eq_true_eq]
    exact eq_comm
  simp only [World.hasReadonlySnapshot, World.writable_of_writer ha hw, ha, hpw,
    Option.bind_eq_bind, Option.bind_some, if_true]
  rw [decide_not]
  rfl

theorem alone (h : Linked w rings) (ha : w.maps a = some m) (hprev : m.prev = a)
    (hb : w.maps b = some n) (hg : n.ssg = m.ssg) : b = a := by
  obtain ⟨t, hring, hperm⟩ := (h.ring m.ssg).from_mem (h.mem a m ha)
  have ht := hring.eq_nil (by rw [World.prevOf_eq ha, hprev])
  have hbm : b ∈ a :: t := hperm.mem_iff.mpr (hg ▸ h.mem b n hb)
  simpa [ht] using hbm

theorem erase (h : Linked w rings) (ha : w.maps a = some m)
    (hw : (w.groups m.ssg).writer = some a) {q : Query K} (hq : q.ordered = true)
    (matched : V → Bool) (counted : Bool) :
    ∃ w', w.erase a (q.first (w.groups m.ssg).data) (q.last (w.groups m.ssg).data) matched
        counted = some w' ∧ Linked w' rings ∧
      w'.view = Function.update w.view a (some (true,
        (visible m.ver (w.groups m.ssg).data).filter fun e => !(q.holds e.1 && matched e.2))) := by
  obtain ⟨hver, hle⟩ := h.latest a m ha hw
  have hs := h.sorted m.ssg
  have hbounds : ¬ q.last (w.groups m.ssg).data < q.first (w.groups m.ssg).data :=
    Nat.not_lt.mpr (Query.first_le_last hq hs)
  have hunfold := h.hasReadonlySnapshot_eq ha hw
  by_cases hprev : m.prev = a
  · -- alone in the group: the entries are dropped
    let data := (w.groups m.ssg).data.filter fun e => !(q.holds e.1 && matched e.2.val)
    have hdata : filterRange (fun e : K × VersionedValue V => !matched e.2.val)
        (q.first (w.groups m.ssg).data) (q.last (w.groups m.ssg).data) (w.groups m.ssg).data =
        data := by
      rw [Query.filterRange_eq hq _ hs]
      apply List.filter_congr
      intro e _
      rw [Bool.not_and]
    have hle' : ∀ e ∈ data, e.2.createdAt ≤ m.ver + 1 ∧ ∀ r ∈ e.2.removedAt, r ≤ m.ver + 1 := by
      intro e he
      obtain ⟨hc, hr⟩ := hle e (List.mem_of_mem_filter he)
      exact ⟨Nat.le_succ_of_le hc, fun r hrm => Nat.le_succ_of_le (hr r hrm)⟩
    have hold : ∀ b n, w.maps b = some n → n.ssg = m.ssg → b ≠ a →
        visible n.ver data = visible n.ver (w.groups m.ssg).data := by
      intro b n hb hg hne
      exact absurd (h.alone ha hprev hb hg) hne
    have hnew : visible (m.ver + 1) data = (visible m.ver (w.groups m.ssg).data).filter
        fun e => !(q.holds e.1 && matched e.2) := by
      rw [← visible_succ hle]
      exact visible_filter fun k v => q.holds k && matched v
    obtain ⟨hl, hv⟩ := h.write ha hw { w.groups m.ssg with data } hw
      (hs.sublist List.filter_sublist) hle' hold
    refine ⟨_, ?_, hl, by rw [hv, hnew]⟩
    simp only [World.erase, World.writable_of_writer ha hw, ha, Option.bind_eq_bind,
      Option.bind_some, if_true, if_neg hbounds, hunfold, hprev, ne_eq, not_true_eq_false,
      decide_false, hdata]
    rfl
  · -- the entries are marked with a version that the snapshots do not reach
    let data := (w.groups m.ssg).data.map fun e =>
      if (q.holds e.1 && matched e.2.val) && e.2.validAt m.ver then (e.1, e.2.remove (m.ver + 1))
      else e
    have hdata : mapRange (fun e : K × VersionedValue V =>
          if e.2.validAt m.ver && matched e.2.val then (e.1, e.2.remove (m.ver + 1)) else e)
        (q.first (w.groups m.ssg).data) (q.last (w.groups m.ssg).data) (w.groups m.ssg).data =
        data := by
      rw [Query.mapRange_eq hq _ hs]
      apply List.map_congr_left
      intro e _
      cases q.holds e.1 <;> cases matched e.2.val <;> cases e.2.validAt m.ver <;> rfl
    have hkey : ∀ e : K × VersionedValue V,
        (if (q.holds e.1 && matched e.2.val) && e.2.validAt m.ver then
          (e.1, e.2.remove (m.ver + 1)) else e).1 = e.1 := by
      intro e
      split <;> rfl
    have hsort : Sorted data := by
      refine List.pairwise_map.mpr (hs.imp ?_)
      intro e e' hee
      rw [hkey, hkey]
      exact hee
    have hle' : ∀ e ∈ data, e.2.createdAt ≤ m.ver + 1 ∧ ∀ r ∈ e.2.removedAt, r ≤ m.ver + 1 := by
      intro e he
      obtain ⟨e', he', rfl⟩ := List.mem_map.mp he
      obtain ⟨hc, hr⟩ := hle e' he'
      split
      · refine ⟨Nat.le_succ_of_le hc, ?_⟩
        intro r hrm
        exact Nat.le_of_eq (Option.some.inj hrm).symm
      · exact ⟨Nat.le_succ_of_le hc, fun r hrm => Nat.le_succ_of_le (hr r hrm)⟩
    have hold : ∀ b n, w.maps b = some n → n.ssg = m.ssg → b ≠ a →
        visible n.ver data = visible n.ver (w.groups m.ssg).data := by
      intro b n hb hg _
      exact visible_marked_old (hver b n hb hg) fun e => q.holds e.1 && matched e.2.val
    have hnew : visible (m.ver + 1) data = (visible m.ver (w.groups m.ssg).data).filter
        fun e => !(q.holds e.1 && matched e.2) :=
      visible_marked_new hle fun k v => q.holds k && matched v
    obtain ⟨marked, hmarked⟩ : ∃ k, k = ((slice (q.first (w.groups m.ssg).data)
        (q.last (w.groups m.ssg).data) (w.groups m.ssg).data).filter
          fun e => e.2.validAt m.ver && matched e.2.val).length := ⟨_, rfl⟩
    obtain ⟨hl, hv⟩ := h.write ha hw
      { w.groups m.ssg with
        data
        gcEraseCounter := if counted then (w.groups m.ssg).gcEraseCounter + marked
          else (w.groups m.ssg).gcEraseCounter } hw hsort hle' hold
    refine ⟨_, ?_, hl, by rw [hv, hnew]⟩
    simp only [World.erase, World.writable_of_writer ha hw, ha, Option.bind_eq_bind,
      Option.bind_some, if_true, if_neg hbounds, hunfold, ne_eq, hprev, not_false_eq_true,
      decide_true, hdata, ← hmarked]
    rfl

end Linked

omit [LinearOrder K] in
theorem gcLoop_ring {w : World K V} {p : Addr} {t : List Addr}
    (hring : IsRing w.nextOf w.prevOf (p :: t)) (halive : ∀ b ∈ p :: t, ∃ n, w.maps b = some n)
    {u s : List Addr} {q : Addr} (hs : p :: t = u ++ q :: s) {fuel : Nat}
    (hfuel : s.length < fuel) (low high : Nat) :
    ∃ low' high', w.gcLoop p fuel q low high = some (low', high') ∧ low' ≤ low ∧ high ≤ high' ∧
      ∀ b ∈ q :: s, ∀ n, w.maps b = some n → low' ≤ n.ver ∧ n.ver ≤ high' := by
  induction s generalizing u q fuel low high with
  | nil =>
    obtain ⟨k, rfl⟩ : ∃ k, fuel = k + 1 := ⟨fuel - 1, by simp at hfuel; omega⟩
    obtain ⟨n, hn⟩ := halive q (by rw [hs]; simp)
    have hnext : n.next = p := by
      have := hring.next_eq hs
      rw [World.nextOf_eq hn] at this
      exact Option.some.inj this
    refine ⟨if n.ver < low then n.ver else low, if n.ver > high then n.ver else high, ?_, ?_, ?_, ?_⟩
    · simp only [World.gcLoop, hn, Option.bind_eq_bind, Option.bind_some, hnext, if_true]
      rfl
    · split <;> omega
    · split <;> omega
    · intro b hb n' hn'
      obtain rfl := List.mem_singleton.mp hb
      rw [hn] at hn'
      cases hn'
      constructor
      · split <;> omega
      · split <;> omega
  | cons c s ih =>
    obtain ⟨k, rfl⟩ : ∃ k, fuel = k + 1 := ⟨fuel - 1, by simp at hfuel; omega⟩
    obtain ⟨n, hn⟩ := halive q (by rw [hs]; simp)
    have hnext : n.next = c := by
      have := hring.next_eq hs
      rw [World.nextOf_eq hn] at this
      exact Option.some.inj this
    have hcp : c ≠ p := by
      rintro rfl
      have hnd := hring.nodup
      cases u with
      | nil =>
        simp only [List.nil_append, List.cons.injEq] at hs
        rw [hs.2] at hnd
        simp at hnd
      | cons d u =>
        simp only [List.cons_append, List.cons.injEq] at hs
        rw [hs.2] at hnd
        simp at hnd
    have hs' : p :: t = (u ++ [q]) ++ c :: s := by simpa using hs
    obtain ⟨low', high', hloop, hl, hh, hall⟩ := ih hs' (show s.length < k by simp at hfuel; omega)
      (if n.ver < low then n.ver else low) (if n.ver > high then n.ver else high)
    refine ⟨low', high', ?_, ?_, ?_, ?_⟩
    · simp only [World.gcLoop, hn, Option.bind_eq_bind, Option.bind_some, hnext, if_neg hcp]
      exact hloop
    · split at hl <;> omega
    · split at hh <;> omega
    · intro b hb n' hn'
      rcases List.mem_cons.mp hb with rfl | hb
      · rw [hn] at hn'
        cases hn'
        constructor
        · split at hl <;> omega
        · split at hh <;> omega
      · exact hall b hb n' hn'

namespace Linked

variable {w : World K V} {rings : Nat → List Addr} {a b : Addr} {m n : SortedMap}

theorem collect (h : Linked w rings) {g low high : Nat}
    (hver : ∀ b n, w.maps b = some n → n.ssg = g → low ≤ n.ver ∧ n.ver ≤ high) :
    ∀ w', w' = w.setGroup g
      { w.groups g with
        data := (w.groups g).data.filter fun e =>
          !(e.2.createdAt > high || e.2.removedAt.any fun r => r < low)
        gcInsertCounter := 0
        gcEraseCounter := 0 } → Linked w' rings ∧ w'.view = w.view := by
  rintro w' rfl
  refine ⟨h.setGroup (fun _ hw => hw) (fun e he => List.mem_of_mem_filter he)
    ((h.sorted g).sublist List.filter_sublist), World.view_setGroup (fun _ _ _ _ => rfl) ?_⟩
  intro b n hb hg
  obtain ⟨hlow, hhigh⟩ := hver b n hb hg
  apply visible_filter_invisible
  intro e _ hdrop
  rw [Bool.eq_false_iff]
  intro hval
  obtain ⟨hc, hr⟩ := VersionedValue.validAt_iff.mp hval
  simp only [Bool.not_eq_false', Bool.or_eq_true, decide_eq_true_eq, Option.any_eq_true] at hdrop
  rcases hdrop with hdrop | ⟨r, hrm, hrl⟩
  · omega
  · have := hr r hrm
    omega

theorem gcRun (h : Linked w rings) (ha : w.maps a = some m) :
    ∃ w', w.gcRun a = some w' ∧ Linked w' rings ∧ w'.view = w.view := by
  obtain ⟨t, hring, hperm⟩ := (h.ring m.ssg).from_mem (h.mem a m ha)
  have halive : ∀ b ∈ a :: t, ∃ n, w.maps b = some n := by
    intro b hb
    obtain ⟨n, hn, -⟩ := h.alive m.ssg b (hperm.mem_iff.mp hb)
    exact ⟨n, hn⟩
  have hfuel : t.length < w.created := by
    have h1 := h.fuel m.ssg
    have h2 := hperm.length_eq
    simp only [List.length_cons] at h2
    omega
  obtain ⟨low, high, hloop, -, -, hall⟩ := gcLoop_ring hring halive (u := []) rfl hfuel m.ver
    (2 ^ 64 - 1)
  have hver : ∀ b n, w.maps b = some n → n.ssg = m.ssg → low ≤ n.ver ∧ n.ver ≤ high := by
    intro b n hb hg
    exact hall b (hperm.mem_iff.mpr (hg ▸ h.mem b n hb)) n hb
  obtain ⟨hl, hv⟩ := h.collect hver _ rfl
  refine ⟨_, ?_, hl, hv⟩
  simp only [World.gcRun, ha, hloop, Option.bind_eq_bind, Option.bind_some]
  rfl

theorem newGroup (h : Linked w rings) (ha : w.maps a = none) :
    (∃ rings', Linked (w.newGroup a) rings') ∧
      (w.newGroup a).view = Function.update w.view a (some (true, [])) := by
  set w' := w.newGroup a with hw'
  have hmaps : ∀ b, w'.maps b =
      if b = a then some ⟨0, w.nextGroup, a, a⟩ else w.maps b :=
    fun b => Function.update_apply _ _ _ _
  have hgroups : ∀ g, w'.groups g = if g = w.nextGroup then { writer := some a } else w.groups g :=
    fun g => Function.update_apply _ _ _ _
  have hout : ∀ b n, w.maps b = some n → b ≠ a ∧ n.ssg ≠ w.nextGroup := by
    intro b n hb
    constructor
    · rintro rfl
      rw [ha] at hb
      cases hb
    · intro hg
      have := h.mem b n hb
      rw [h.fresh n.ssg (Nat.le_of_eq hg.symm)] at this
      cases this
  have hold : ∀ b n, w'.maps b = some n → b ≠ a → w.maps b = some n := by
    intro b n hb hne
    rwa [hmaps, if_neg hne] at hb
  have hkeep : ∀ b n, w.maps b = some n → w'.maps b = some n := by
    intro b n hb
    rw [hmaps, if_neg (hout b n hb).1]
    exact hb
  have hself : w'.maps a = some ⟨0, w.nextGroup, a, a⟩ := by rw [hmaps, if_pos rfl]
  refine ⟨⟨Function.update rings w.nextGroup [a], ?_, ?_, ?_, ?_, ?_, ?_, ?_, ?_⟩, ?_⟩
  · intro g
    rw [Function.update_apply]
    split
    · exact IsRing.single (World.nextOf_eq hself) (World.prevOf_eq hself)
    · refine (h.ring g).congr ?_ ?_
      all_goals
        intro b hb
        obtain ⟨n, hn, -⟩ := h.alive g b hb
      · rw [World.nextOf_eq hn, World.nextOf_eq (hkeep b n hn)]
      · rw [World.prevOf_eq hn, World.prevOf_eq (hkeep b n hn)]
  · intro b n hb
    by_cases hba : b = a
    · subst hba
      rw [hself] at hb
      cases hb
      simp
    · have hb' := hold b n hb hba
      rw [Function.update_of_ne (hout b n hb').2]
      exact h.mem b n hb'
  · intro g b hb
    rw [Function.update_apply] at hb
    split at hb
    · next hg =>
      obtain rfl := List.mem_singleton.mp hb
      exact ⟨_, hself, hg.symm⟩
    · obtain ⟨n, hn, hg⟩ := h.alive g b hb
      exact ⟨n, hkeep b n hn, hg⟩
  · intro g
    rw [Function.update_apply]
    split
    · exact Nat.succ_le_succ (Nat.zero_le _)
    · exact Nat.le_succ_of_le (h.fuel g)
  · intro g hg
    have hlt : w.nextGroup < g := hg
    rw [Function.update_of_ne (Nat.ne_of_gt hlt)]
    exact h.fresh g hlt.le
  · intro g
    rw [hgroups]
    split
    · exact List.Pairwise.nil
    · exact h.sorted g
  · intro g b hb
    rw [hgroups] at hb
    rw [Function.update_apply]
    split at hb
    · next hg =>
      rw [if_pos hg]
      cases hb
      simp
    · next hg =>
      rw [if_neg hg]
      exact h.writer g b hb
  · intro b n hb hbw
    by_cases hba : b = a
    · subst hba
      rw [hself] at hb
      cases hb
      rw [hgroups, if_pos rfl]
      refine ⟨?_, by simp⟩
      intro c k hc hk
      by_cases hcb : c = b
      · subst hcb
        rw [hself] at hc
        cases hc
        exact Nat.le_refl _
      · exact absurd hk (hout c k (hold c k hc hcb)).2
    · have hb' := hold b n hb hba
      have hne := (hout b n hb').2
      rw [hgroups, if_neg hne] at hbw ⊢
      obtain ⟨h1, h2⟩ := h.latest b n hb' hbw
      refine ⟨?_, h2⟩
      intro c k hc hk
      by_cases hca : c = a
      · subst hca
        rw [hself] at hc
        cases hc
        exact absurd hk.symm hne
      · exact h1 c k (hold c k hc hca) hk
  · funext b
    by_cases hba : b = a
    · subst hba
      rw [Function.update_self, World.view_eq hself, hgroups, if_pos rfl]
      simp [visible]
    · rw [Function.update_of_ne hba]
      cases hb : w.maps b with
      | none =>
        rw [World.view_eq_none hb, World.view_eq_none]
        rw [hmaps, if_neg hba]
        exact hb
      | some n =>
        rw [World.view_eq hb, World.view_eq (hkeep b n hb), hgroups, if_neg (hout b n hb).2]

end Linked

end Jetpack.Memdb
