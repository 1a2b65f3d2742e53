import Jetpack.Memdb.Isolation

/-! What the garbage collection of a group leaves, and the assertions on the way. -/

namespace Jetpack.Memdb

open Multimap

variable {K V : Type}

/-- The version of a map that is being built: -1 of an unsigned type. -/
def freshVer : BitVec 64 := -1

def freshAssertion : Bool := freshVer < 0

def VersionedValue.removeAsserts (vv : VersionedValue V) (v : Nat) : Bool :=
  vv.removedAt.isNone && vv.createdAt < v

variable [LinearOrder K]

namespace World

def eraseAsserts (w : World K V) (a : Addr) (q : Query K) (matched : V → Bool) : Bool :=
  match w.maps a with
  | none => true
  | some m =>
    let data := (w.groups m.ssg).data
    w.writable a != some true || w.hasReadonlySnapshot a != some true ||
      (slice (q.first data) (q.last data) data).all fun e =>
        !(e.2.validAt m.ver && matched e.2.val) || e.2.removeAsserts (m.ver + 1)

/-- The assertions on the versions that an operation comes to. Every range is built from a snapshot,
and so is the copy of a map that can be written to. -/
def asserts [DecidableEq V] (w : World K V) : Op K V → Bool
  | .eraseKey a key => w.eraseAsserts (.object a) (.query key) fun _ => true
  | .eraseKeyValue a key value => w.eraseAsserts (.object a) (.query key) fun v => v == value
  | .eraseRange a q =>
    freshAssertion && (w.openRange (.object a)).all fun w =>
      w.eraseAsserts (.object a) q fun _ => true
  | .insertRange _ _ _ | .snapshot _ _ | .copy _ _ | .enumerate _ _ _ => freshAssertion
  | .assign a src => a == src || freshAssertion
  | .create _ | .insert _ _ | .destroy _ | .gcRun _ => true

/-- The group that collects garbage when the map at `a` goes. -/
def autoGc (w : World K V) (a : Addr) : Option Nat := do
  let m ← w.maps a
  let group := w.groups m.ssg
  let gcCounter := group.gcInsertCounter + group.gcEraseCounter
  if group.writer = some a ∧ m.prev ≠ a ∧ gcCounter ≥ 16 ∧ gcCounter ≥ group.data.length / 2 then
    return m.ssg
  else none

/-- The group that an operation lets collect garbage. -/
def collects (w : World K V) : Op K V → Option Nat
  | .gcRun a => (w.maps (.object a)).map SortedMap.ssg
  | .destroy a => w.autoGc (.object a)
  | .assign a src => if a = src then none else w.autoGc (.object a)
  | _ => none

/-- The maps and the groups once the garbage is collected. -/
def afterGc (w : World K V) : Op K V → Option (World K V)
  | .gcRun a => w.gcRun (.object a)
  | .destroy a | .assign a _ => w.destroyMe (.object a)
  | _ => none

end World

def Op.leaves : Op K V → Addr → Bool
  | .destroy a, b | .assign a _, b => b == .object a
  | _, _ => false

/-- The operations that take no snapshot, neither of their own nor for a range. -/
def Op.plain : Op K V → Bool
  | .create _ | .insert _ _ | .eraseKey _ _ | .eraseKeyValue _ _ _ | .destroy _ | .gcRun _ => true
  | .assign a src => a == src
  | .insertRange _ _ _ | .eraseRange _ _ | .snapshot _ _ | .copy _ _ | .enumerate _ _ _ => false

def World.HasVersion (w : World K V) (g v : Nat) : Prop :=
  ∃ b n, w.maps b = some n ∧ n.ssg = g ∧ n.ver = v

/-- No entry of the group was created after its last version or removed before its first. -/
def Collected (w : World K V) (g : Nat) : Prop :=
  ∀ e ∈ (w.groups g).data, ¬ (∀ v, w.HasVersion g v → v < e.2.createdAt) ∧
    ∀ r ∈ e.2.removedAt, ¬ ∀ v, w.HasVersion g v → r < v

/-- The assertions of an operation hold; the group that it lets collect garbage has none left, and
its members see what they saw. -/
def Sound [DecidableEq V] (w : World K V) (op : Op K V) : Prop :=
  w.asserts op = true ∧ ∀ g, w.collects op = some g →
    ∃ w₁, w.afterGc op = some w₁ ∧ Collected w₁ g ∧
      ∀ v, w₁.HasVersion g v → visible v (w₁.groups g).data = visible v (w.groups g).data

/-- The operation takes no snapshot, and if it lets a group collect garbage then no entry there is
newer than all the members that stay. -/
def Careful (w : World K V) (op : Op K V) : Prop :=
  op.plain = true ∧ ∀ g, w.collects op = some g → ∀ e ∈ (w.groups g).data,
    ∃ b n, w.maps b = some n ∧ n.ssg = g ∧ op.leaves b = false ∧ e.2.createdAt ≤ n.ver

/-- Versions are at most `n`, and an entry is created before it is removed. -/
structure Dated (w : World K V) (n : Nat) : Prop where
  ver : ∀ a m, w.maps a = some m → m.ver ≤ n
  created : ∀ g, ∀ e ∈ (w.groups g).data, e.2.createdAt ≤ n
  spans : ∀ g, ∀ e ∈ (w.groups g).data, ∀ r ∈ e.2.removedAt, e.2.createdAt < r

namespace Dated

variable {w w' : World K V} {a b src : Addr} {n n' : Nat}

section Shared

omit [LinearOrder K]

theorem mono (h : Dated w n) (hn : n ≤ n') : Dated w n' :=
  ⟨fun a m ha => (h.ver a m ha).trans hn, fun g e he => (h.created g e he).trans hn, h.spans⟩

theorem setMap (h : Dated w n) {m : Option SortedMap} (hm : ∀ k ∈ m, k.ver ≤ n) :
    Dated (w.setMap a m) n := by
  refine ⟨?_, h.created, h.spans⟩
  intro b k hb
  by_cases hba : b = a
  · subst hba
    exact hm k (by simpa [World.setMap] using hb)
  · exact h.ver b k (by simpa [World.setMap, Function.update_of_ne hba] using hb)

theorem setGroup (h : Dated w n) {g : Nat} {group : Group K V}
    (hg : ∀ e ∈ group.data, e.2.createdAt ≤ n ∧ ∀ r ∈ e.2.removedAt, e.2.createdAt < r) :
    Dated (w.setGroup g group) n := by
  have hcase : ∀ g', ((w.setGroup g group).groups g').data = group.data ∨
      ((w.setGroup g group).groups g').data = (w.groups g').data := by
    intro g'
    by_cases he : g' = g
    · subst he
      exact .inl (by simp [World.setGroup])
    · exact .inr (by simp [World.setGroup, Function.update_of_ne he])
  refine ⟨h.ver, ?_, ?_⟩
  · intro g' e he
    rcases hcase g' with hd | hd
    · exact (hg e (hd ▸ he)).1
    · exact h.created g' e (hd ▸ he)
  · intro g' e he
    rcases hcase g' with hd | hd
    · exact (hg e (hd ▸ he)).2
    · exact h.spans g' e (hd ▸ he)

theorem setGroup_subset (h : Dated w n) {g : Nat} {group : Group K V}
    (hg : ∀ e ∈ group.data, e ∈ (w.groups g).data) : Dated (w.setGroup g group) n :=
  h.setGroup fun e he => ⟨h.created g e (hg e he), h.spans g e (hg e he)⟩

theorem created_eq (h : Dated w n) (k : Nat) : Dated { w with created := k } n :=
  ⟨h.ver, h.created, h.spans⟩

theorem setNext (h : Dated w n) (he : w.setNext a b = some w') : Dated w' n := by
  obtain ⟨m, hm, he⟩ := Option.bind_eq_some_iff.mp he
  obtain rfl := Option.some.inj he
  exact h.setMap fun k hk => Option.some.inj hk ▸ h.ver a m hm

theorem setPrev (h : Dated w n) (he : w.setPrev a b = some w') : Dated w' n := by
  obtain ⟨m, hm, he⟩ := Option.bind_eq_some_iff.mp he
  obtain rfl := Option.some.inj he
  exact h.setMap fun k hk => Option.some.inj hk ▸ h.ver a m hm

theorem newGroup (h : Dated w n) (a : Addr) : Dated (w.newGroup a) n := by
  have h₁ : Dated (w.setMap a (some ⟨0, w.nextGroup, a, a⟩)) n :=
    h.setMap fun k hk => Option.some.inj hk ▸ Nat.zero_le n
  have h₂ : Dated ((w.setMap a (some ⟨0, w.nextGroup, a, a⟩)).setGroup w.nextGroup
      { writer := some a }) n := h₁.setGroup (by simp)
  exact ⟨h₂.ver, h₂.created, h₂.spans⟩

theorem gcRun (h : Dated w n) (he : w.gcRun a = some w') : Dated w' n := by
  obtain ⟨m, -, he⟩ := Option.bind_eq_some_iff.mp he
  obtain ⟨r, -, he⟩ := Option.bind_eq_some_iff.mp he
  obtain rfl := Option.some.inj he
  exact h.setGroup_subset fun e hin => List.mem_of_mem_filter hin

theorem makeMeSnapshotOf (h : Dated w n) (he : w.makeMeSnapshotOf a src = some w') :
    Dated w' n := by
  obtain ⟨s, hs, he⟩ := Option.bind_eq_some_iff.mp he
  obtain ⟨w₂, e₂, he⟩ := Option.bind_eq_some_iff.mp he
  obtain ⟨w₃, e₃, he⟩ := Option.bind_eq_some_iff.mp he
  have h₁ : Dated (w.setMap a (some ⟨s.ver, s.ssg, s.prev, src⟩)) n :=
    h.setMap fun k hk => Option.some.inj hk ▸ h.ver src s hs
  have h₃ := ((h₁.created_eq (w.created + 1)).setNext e₂).setPrev e₃
  simp only at he
  split at he
  · obtain rfl := Option.some.inj he
    exact h₃.setGroup_subset fun e hin => hin
  · obtain rfl := Option.some.inj he
    exact h₃

theorem unlink (h : Dated w n) {m : SortedMap} {gc : Bool} (he : w.unlink a m gc = some w') :
    Dated w' n := by
  rw [World.unlink] at he
  split at he
  · obtain ⟨w₁, e₁, he⟩ := Option.bind_eq_some_iff.mp he
    obtain ⟨w₂, e₂, he⟩ := Option.bind_eq_some_iff.mp he
    have h₂ := (h.setNext e₁).setPrev e₂
    split at he
    · exact h₂.gcRun he
    · exact Option.some.inj he ▸ h₂
  · exact Option.some.inj he ▸ h

theorem destroyMe (h : Dated w n) (he : w.destroyMe a = some w') : Dated w' n := by
  obtain ⟨m, -, he⟩ := Option.bind_eq_some_iff.mp he
  simp only at he
  split at he
  · obtain ⟨w₁, e₁, he⟩ := Option.bind_eq_some_iff.mp he
    have h₀ : Dated (w.setGroup m.ssg { w.groups m.ssg with writer := none }) n :=
      h.setGroup_subset fun e hin => hin
    exact Option.some.inj he ▸ (h₀.unlink e₁).setMap (by simp)
  · obtain ⟨w₁, e₁, he⟩ := Option.bind_eq_some_iff.mp he
    exact Option.some.inj he ▸ (h.unlink e₁).setMap (by simp)

theorem openRange (h : Dated w n) (he : w.openRange src = some w') : Dated w' n := by
  obtain ⟨w₁, e₁, he⟩ := Option.bind_eq_some_iff.mp he
  obtain ⟨w₂, e₂, he⟩ := Option.bind_eq_some_iff.mp he
  obtain ⟨flag, -, e₂⟩ := Option.bind_eq_some_iff.mp e₂
  cases flag with
  | true => cases e₂
  | false => exact ((h.makeMeSnapshotOf e₁).makeMeSnapshotOf e₂).destroyMe he

theorem joinRight (h : Dated w n) (he : w.joinRight a src = some w') : Dated w' n := by
  obtain ⟨s, hs, he⟩ := Option.bind_eq_some_iff.mp he
  obtain ⟨w₂, e₂, he⟩ := Option.bind_eq_some_iff.mp he
  have h₁ : Dated (w.setMap a (some ⟨s.ver, s.ssg, src, s.next⟩)) n :=
    h.setMap fun k hk => Option.some.inj hk ▸ h.ver src s hs
  exact ((h₁.created_eq (w.created + 1)).setNext e₂).setPrev he

theorem erase (h : Dated w n) {i j : Nat} {matched : V → Bool} {counted : Bool}
    (he : w.erase a i j matched counted = some w') : Dated w' (n + 1) := by
  obtain ⟨flag, -, he⟩ := Option.bind_eq_some_iff.mp he
  cases flag with
  | false => cases he
  | true =>
    obtain ⟨m, hm, he⟩ := Option.bind_eq_some_iff.mp he
    have hver := h.ver a m hm
    have h₁ := h.mono (Nat.le_succ n)
    have h₂ : Dated (w.setMap a (some { m with ver := m.ver + 1 })) (n + 1) := by
      apply h₁.setMap
      intro k hk
      obtain rfl := Option.some.inj hk
      exact Nat.succ_le_succ hver
    simp only at he
    split at he
    · cases he
    · obtain ⟨shared, -, he⟩ := Option.bind_eq_some_iff.mp he
      cases shared with
      | true =>
        obtain rfl := Option.some.inj he
        apply h₂.setGroup
        intro e hin
        obtain ⟨x, hx, hcase⟩ := mem_mapRange hin
        rcases hcase with rfl | rfl
        · exact ⟨h₁.created m.ssg e hx, h.spans m.ssg e hx⟩
        · split
          · next hit =>
            have hc := (VersionedValue.validAt_iff.mp (Bool.and_eq_true_iff.mp hit).1).1
            refine ⟨h₁.created m.ssg x hx, ?_⟩
            intro r hr
            obtain rfl := Option.some.inj hr
            exact Nat.lt_succ_of_le hc
          · exact ⟨h₁.created m.ssg x hx, h.spans m.ssg x hx⟩
      | false =>
        obtain rfl := Option.some.inj he
        exact h₂.setGroup_subset fun e hin => mem_of_mem_filterRange hin

end Shared

theorem insert (h : Dated w n) {entries : List (K × V)} (he : w.insert a entries = some w') :
    Dated w' (n + 1) := by
  obtain ⟨flag, -, he⟩ := Option.bind_eq_some_iff.mp he
  cases flag with
  | false => cases he
  | true =>
    obtain ⟨m, hm, he⟩ := Option.bind_eq_some_iff.mp he
    obtain rfl := Option.some.inj he
    have hver := h.ver a m hm
    have h₁ := h.mono (Nat.le_succ n)
    have h₂ : Dated (w.setMap a (some { m with ver := m.ver + 1 })) (n + 1) := by
      apply h₁.setMap
      intro k hk
      obtain rfl := Option.some.inj hk
      exact Nat.succ_le_succ hver
    apply h₂.setGroup
    intro e hin
    rcases mem_insertAll.mp hin with hin | hin
    · exact ⟨h₁.created m.ssg e hin, h.spans m.ssg e hin⟩
    · obtain ⟨x, -, rfl⟩ := List.mem_map.mp hin
      exact ⟨Nat.succ_le_succ hver, by simp⟩

theorem insertRange (h : Dated w n) {q : Query K} (he : w.insertRange a src q = some w') :
    Dated w' (n + 1) := by
  obtain ⟨w₁, e₁, he⟩ := Option.bind_eq_some_iff.mp he
  obtain ⟨entries, -, he⟩ := Option.bind_eq_some_iff.mp he
  obtain ⟨w₂, e₂, he⟩ := Option.bind_eq_some_iff.mp he
  exact ((h.openRange e₁).insert e₂).destroyMe he

theorem copy (h : Dated w n) (he : w.copy a src = some w') : Dated w' (n + 1) := by
  obtain ⟨flag, -, he⟩ := Option.bind_eq_some_iff.mp he
  cases flag with
  | false => exact (h.makeMeSnapshotOf he).mono (Nat.le_succ n)
  | true =>
    obtain ⟨s, -, he⟩ := Option.bind_eq_some_iff.mp he
    obtain ⟨k, -, he⟩ := Option.bind_eq_some_iff.mp he
    obtain ⟨shared, -, he⟩ := Option.bind_eq_some_iff.mp he
    split at he
    · exact (h.joinRight he).mono (Nat.le_succ n)
    · exact (h.newGroup a).insertRange he

theorem assign (h : Dated w n) (he : w.assign a src = some w') : Dated w' (n + 1) := by
  obtain ⟨m, -, he⟩ := Option.bind_eq_some_iff.mp he
  split at he
  · exact Option.some.inj he ▸ h.mono (Nat.le_succ n)
  · obtain ⟨w₁, e₁, he⟩ := Option.bind_eq_some_iff.mp he
    obtain ⟨flag, -, he⟩ := Option.bind_eq_some_iff.mp he
    have h₁ := h.destroyMe e₁
    cases flag with
    | true => exact (h₁.newGroup a).insertRange he
    | false => exact (h₁.makeMeSnapshotOf he).mono (Nat.le_succ n)

variable [DecidableEq V]

theorem exec (h : Dated w n) {op : Op K V} {out : List (K × V)} (he : w.exec op = some (w', out)) :
    Dated w' (n + 1) := by
  have hsucc := Nat.le_succ n
  cases op with
  | create a =>
    obtain ⟨-, -, he⟩ := Option.bind_eq_some_iff.mp he
    obtain ⟨rfl, -⟩ := Prod.mk.inj (Option.some.inj he)
    exact (h.newGroup _).mono hsucc
  | insert a entries =>
    obtain ⟨w₁, e₁, he⟩ := Option.bind_eq_some_iff.mp he
    obtain ⟨rfl, -⟩ := Prod.mk.inj (Option.some.inj he)
    exact h.insert e₁
  | insertRange a src q =>
    obtain ⟨w₁, e₁, he⟩ := Option.bind_eq_some_iff.mp he
    obtain ⟨rfl, -⟩ := Prod.mk.inj (Option.some.inj he)
    exact h.insertRange e₁
  | eraseKey a key =>
    obtain ⟨w₁, e₁, he⟩ := Option.bind_eq_some_iff.mp he
    obtain ⟨rfl, -⟩ := Prod.mk.inj (Option.some.inj he)
    obtain ⟨m, -, e₁⟩ := Option.bind_eq_some_iff.mp e₁
    exact h.erase e₁
  | eraseKeyValue a key value =>
    obtain ⟨w₁, e₁, he⟩ := Option.bind_eq_some_iff.mp he
    obtain ⟨rfl, -⟩ := Prod.mk.inj (Option.some.inj he)
    obtain ⟨m, -, e₁⟩ := Option.bind_eq_some_iff.mp e₁
    exact h.erase e₁
  | eraseRange a q =>
    obtain ⟨w₁, e₁, he⟩ := Option.bind_eq_some_iff.mp he
    obtain ⟨w₂, e₂, he⟩ := Option.bind_eq_some_iff.mp he
    obtain ⟨w₃, e₃, he⟩ := Option.bind_eq_some_iff.mp he
    obtain ⟨rfl, -⟩ := Prod.mk.inj (Option.some.inj he)
    obtain ⟨m, -, e₂⟩ := Option.bind_eq_some_iff.mp e₂
    exact ((h.openRange e₁).erase e₂).destroyMe e₃
  | snapshot a src =>
    obtain ⟨-, -, he⟩ := Option.bind_eq_some_iff.mp he
    obtain ⟨w₁, e₁, he⟩ := Option.bind_eq_some_iff.mp he
    obtain ⟨rfl, -⟩ := Prod.mk.inj (Option.some.inj he)
    exact (h.makeMeSnapshotOf e₁).mono hsucc
  | copy a src =>
    obtain ⟨-, -, he⟩ := Option.bind_eq_some_iff.mp he
    obtain ⟨w₁, e₁, he⟩ := Option.bind_eq_some_iff.mp he
    obtain ⟨rfl, -⟩ := Prod.mk.inj (Option.some.inj he)
    exact h.copy e₁
  | assign a src =>
    obtain ⟨w₁, e₁, he⟩ := Option.bind_eq_some_iff.mp he
    obtain ⟨rfl, -⟩ := Prod.mk.inj (Option.some.inj he)
    exact h.assign e₁
  | destroy a =>
    obtain ⟨w₁, e₁, he⟩ := Option.bind_eq_some_iff.mp he
    obtain ⟨rfl, -⟩ := Prod.mk.inj (Option.some.inj he)
    exact (h.destroyMe e₁).mono hsucc
  | gcRun a =>
    obtain ⟨w₁, e₁, he⟩ := Option.bind_eq_some_iff.mp he
    obtain ⟨rfl, -⟩ := Prod.mk.inj (Option.some.inj he)
    exact (h.gcRun e₁).mono hsucc
  | enumerate a q reverse =>
    obtain ⟨w₁, e₁, he⟩ := Option.bind_eq_some_iff.mp he
    obtain ⟨entries, -, he⟩ := Option.bind_eq_some_iff.mp he
    obtain ⟨w₂, e₂, he⟩ := Option.bind_eq_some_iff.mp he
    obtain ⟨rfl, -⟩ := Prod.mk.inj (Option.some.inj he)
    exact ((h.openRange e₁).destroyMe e₂).mono hsucc

theorem run (h : Dated w n) {ops : List (Op K V)} {outs : List (List (K × V))}
    (he : w.run ops = some (w', outs)) : Dated w' (n + ops.length) := by
  induction ops generalizing w n outs with
  | nil =>
    obtain ⟨rfl, -⟩ := Prod.mk.inj (Option.some.inj he)
    exact h
  | cons op ops ih =>
    obtain ⟨⟨w₁, out⟩, e₁, he⟩ := Option.bind_eq_some_iff.mp he
    obtain ⟨⟨w₂, outs'⟩, e₂, he⟩ := Option.bind_eq_some_iff.mp he
    obtain ⟨rfl, -⟩ := Prod.mk.inj (Option.some.inj he)
    have hrest := ih (h.exec e₁) e₂
    have hlen : n + 1 + ops.length = n + (op :: ops).length := by
      simp only [List.length_cons]
      omega
    exact hlen ▸ hrest

end Dated

omit [LinearOrder K] in
/-- A collection up to the last version of the type leaves no garbage exactly when no entry is newer
than every member: such an entry was not removed before the first version either. -/
theorem collection_complete_iff {member : Nat → Prop} {low high : Nat} (hlow : member low)
    {data : List (K × VersionedValue V)}
    (hcreated : ∀ e ∈ data, e.2.createdAt ≤ high)
    (hspans : ∀ e ∈ data, ∀ r ∈ e.2.removedAt, e.2.createdAt < r) :
    (∀ e ∈ data.filter fun e => !(e.2.createdAt > high || e.2.removedAt.any fun r => r < low),
      ¬ (∀ v, member v → v < e.2.createdAt) ∧ ∀ r ∈ e.2.removedAt, ¬ ∀ v, member v → r < v) ↔
      ∀ e ∈ data, ∃ v, member v ∧ e.2.createdAt ≤ v := by
  constructor
  · intro h e he
    by_cases hkept : (e.2.removedAt.any fun r => r < low) = true
    · obtain ⟨r, hr, hrl⟩ := (Option.any_eq_true _ _).mp hkept
      have hcr := hspans e he r hr
      have hrlow : r < low := of_decide_eq_true hrl
      exact ⟨low, hlow, by omega⟩
    · have hc := hcreated e he
      have hin : e ∈ data.filter fun e =>
          !(e.2.createdAt > high || e.2.removedAt.any fun r => r < low) := by
        apply List.mem_filter.mpr
        refine ⟨he, ?_⟩
        simp only [Bool.not_eq_true', Bool.or_eq_false_iff, decide_eq_false_iff_not, not_lt, gt_iff_lt]
        exact ⟨hc, Bool.eq_false_iff.mpr hkept⟩
      have hnew := (h e hin).1
      push Not at hnew
      exact hnew
  · intro h e he
    obtain ⟨hin, hkeep⟩ := List.mem_filter.mp he
    simp only [Bool.not_eq_true', Bool.or_eq_false_iff] at hkeep
    constructor
    · intro hnew
      obtain ⟨v, hv, hcv⟩ := h e hin
      have := hnew v hv
      omega
    · intro r hr hold
      have hrl : r < low := hold low hlow
      exact Bool.eq_false_iff.mp hkeep.2 ((Option.any_eq_true _ _).mpr ⟨r, hr, decide_eq_true hrl⟩)

omit [LinearOrder K] in
theorem gcLoop_high {w : World K V} {p q : Addr} {k low high : Nat} {r : Nat × Nat}
    (hver : ∀ b n, w.maps b = some n → n.ver ≤ high) (hloop : w.gcLoop p k q low high = some r) :
    r.2 = high := by
  induction k generalizing q low with
  | zero => cases hloop
  | succ k ih =>
    obtain ⟨n, hn, hloop⟩ := Option.bind_eq_some_iff.mp hloop
    have hhigh : (if n.ver > high then n.ver else high) = high :=
      if_neg (Nat.not_lt.mpr (hver q n hn))
    simp only [hhigh] at hloop
    split at hloop
    · exact Option.some.inj hloop ▸ rfl
    · exact ih hloop

namespace Linked

variable {w : World K V} {rings : Nat → List Addr} {a : Addr} {m : SortedMap}

theorem gcLoop_attained (h : Linked w rings) {g : Nat} {p q : Addr} {n : SortedMap}
    {k low high : Nat} {r : Nat × Nat} (hq : w.maps q = some n) (hg : n.ssg = g)
    (hlow : w.HasVersion g low) (hloop : w.gcLoop p k q low high = some r) :
    w.HasVersion g r.1 := by
  induction k generalizing q n low high with
  | zero => cases hloop
  | succ k ih =>
    have hlow' : w.HasVersion g (if n.ver < low then n.ver else low) := by
      split
      · exact ⟨q, n, hq, hg, rfl⟩
      · exact hlow
    obtain ⟨q', hq', hg'⟩ := h.next_alive hq
    simp only [World.gcLoop, hq, Option.bind_eq_bind, Option.bind_some] at hloop
    split at hloop
    · exact Option.some.inj hloop ▸ hlow'
    · exact ih hq' (hg'.trans hg) hlow' hloop

theorem gcRun_finds (h : Linked w rings) (hd : Dated w (2 ^ 64 - 1)) (ha : w.maps a = some m) :
    ∃ w' low, w.gcRun a = some w' ∧ w'.maps = w.maps ∧ w.HasVersion m.ssg low ∧
      (∀ v, w.HasVersion m.ssg v → low ≤ v) ∧
      (w'.groups m.ssg).data = ((w.groups m.ssg).data.filter fun e =>
        !(e.2.createdAt > 2 ^ 64 - 1 || e.2.removedAt.any fun r => r < low)) := by
  obtain ⟨t, hring, hperm⟩ := (h.ring m.ssg).from_mem (h.mem a m ha)
  have halive : ∀ b ∈ a :: t, ∃ n, w.maps b = some n := by
    intro b hb
    obtain ⟨n, hn, -⟩ := h.alive m.ssg b (hperm.mem_iff.mp hb)
    exact ⟨n, hn⟩
  have hfuel : t.length < w.created := by
    have h1 := h.fuel m.ssg
    have h2 := hperm.length_eq
    simp only [List.length_cons] at h2
    omega
  obtain ⟨low, high, hloop, -, -, hall⟩ := gcLoop_ring hring halive (u := []) rfl hfuel m.ver
    (2 ^ 64 - 1)
  have hhigh : high = 2 ^ 64 - 1 := gcLoop_high hd.ver hloop
  have hlow : w.HasVersion m.ssg low :=
    h.gcLoop_attained ha rfl ⟨a, m, ha, rfl, rfl⟩ hloop
  let group : Group K V :=
    { w.groups m.ssg with
      data := (w.groups m.ssg).data.filter fun e =>
        !(e.2.createdAt > high || e.2.removedAt.any fun r => r < low)
      gcInsertCounter := 0
      gcEraseCounter := 0 }
  refine ⟨w.setGroup m.ssg group, low, ?_, rfl, hlow, ?_, ?_⟩
  · simp only [World.gcRun, ha, hloop, Option.bind_eq_bind, Option.bind_some]
    rfl
  · rintro v ⟨b, n, hb, hg, rfl⟩
    exact (hall b (hperm.mem_iff.mpr (hg ▸ h.mem b n hb)) n hb).1
  · simp only [World.setGroup, Function.update_self, group, hhigh]

theorem gcRun_exact (h : Linked w rings) (hd : Dated w (2 ^ 64 - 1)) (ha : w.maps a = some m) :
    ∃ w', w.gcRun a = some w' ∧
      (Collected w' m.ssg ↔ ∀ e ∈ (w.groups m.ssg).data, ∃ v, w.HasVersion m.ssg v ∧
        e.2.createdAt ≤ v) ∧
      ∀ v, w'.HasVersion m.ssg v →
        visible v (w'.groups m.ssg).data = visible v (w.groups m.ssg).data := by
  obtain ⟨w', low, hrun, hmaps, hlow, hle, hdata⟩ := h.gcRun_finds hd ha
  have hversion : ∀ v, w'.HasVersion m.ssg v ↔ w.HasVersion m.ssg v := by
    intro v
    simp only [World.HasVersion, hmaps]
  refine ⟨w', hrun, ?_, ?_⟩
  · simp only [Collected, hversion, hdata]
    exact collection_complete_iff hlow (hd.created m.ssg) (hd.spans m.ssg)
  · intro v hv
    have hlv := hle v ((hversion v).mp hv)
    rw [hdata]
    apply visible_filter_invisible
    intro e he hdrop
    rw [Bool.eq_false_iff]
    intro hval
    obtain ⟨-, hr⟩ := VersionedValue.validAt_iff.mp hval
    have hcreated := hd.created m.ssg e he
    simp only [Bool.not_eq_false', Bool.or_eq_true, decide_eq_true_eq, Option.any_eq_true] at hdrop
    rcases hdrop with hdrop | ⟨r, hrm, hrl⟩
    · omega
    · have := hr r hrm
      omega

theorem eraseAsserts (h : Linked w rings) (a : Addr) (q : Query K) (matched : V → Bool) :
    w.eraseAsserts a q matched = true := by
  cases ha : w.maps a with
  | none => simp [World.eraseAsserts, ha]
  | some m =>
    by_cases hw : (w.groups m.ssg).writer = some a
    · obtain ⟨-, hlatest⟩ := h.latest a m ha hw
      have hall : ((slice (q.first (w.groups m.ssg).data) (q.last (w.groups m.ssg).data)
          (w.groups m.ssg).data).all fun e =>
            !(e.2.validAt m.ver && matched e.2.val) || e.2.removeAsserts (m.ver + 1)) = true := by
        apply List.all_eq_true.mpr
        intro e he
        obtain ⟨hc, hr⟩ := hlatest e (mem_of_mem_slice he)
        by_cases hval : e.2.validAt m.ver = true
        · obtain ⟨-, hafter⟩ := VersionedValue.validAt_iff.mp hval
          have hnone : e.2.removedAt = none := by
            by_contra hsome
            obtain ⟨r, hrm⟩ := Option.ne_none_iff_exists'.mp hsome
            have h1 := hr r hrm
            have h2 := hafter r hrm
            omega
          have hlt : e.2.createdAt < m.ver + 1 := Nat.lt_succ_of_le hc
          simp [VersionedValue.removeAsserts, hnone, hlt]
        · simp [Bool.eq_false_iff.mpr hval]
      simp only [World.eraseAsserts, ha, hall, Bool.or_true]
    · have hwr : w.writable a = some false := by
        rw [World.writable_eq ha, beq_eq_false_iff_ne.mpr hw]
      simp [World.eraseAsserts, ha, hwr]

/-- The writer goes, and the maps that stay collect garbage. -/
theorem destroyMe_exact (h : Linked w rings) (hd : Dated w (2 ^ 64 - 1)) {g : Nat}
    (hgc : w.autoGc a = some g) :
    ∃ w', w.destroyMe a = some w' ∧
      (Collected w' g ↔ ∀ e ∈ (w.groups g).data,
        ∃ b n, w.maps b = some n ∧ n.ssg = g ∧ b ≠ a ∧ e.2.createdAt ≤ n.ver) ∧
      ∀ v, w'.HasVersion g v →
        visible v (w'.groups g).data = visible v (w.groups g).data := by
  obtain ⟨m, ha, hgc⟩ := Option.bind_eq_some_iff.mp hgc
  simp only at hgc
  split at hgc
  · next hcond =>
    obtain ⟨hw, hprev, hcount, hsize⟩ := hcond
    obtain rfl := Option.some.inj hgc
    let w₀ := w.setGroup m.ssg { w.groups m.ssg with writer := none }
    have h₀ : Linked w₀ rings :=
      h.setGroup (fun _ hn => by cases hn) (fun _ he => he) (h.sorted m.ssg)
    have hd₀ : Dated w₀ (2 ^ 64 - 1) := hd.setGroup_subset fun _ he => he
    have hdata₀ : (w₀.groups m.ssg).data = (w.groups m.ssg).data := by
      simp [w₀, World.setGroup]
    have hwriter : ∀ g, (w₀.groups g).writer ≠ some a := h.writer_gone ha
    obtain ⟨w₁, ⟨rings₁, h₁⟩, -, hgroups, hself, hspliced, hnext, e⟩ :=
      h₀.unlinked ha hwriter true
    have r : Relinked w₀ w₁ a := hspliced.relinked hgroups hwriter
    have hne : ∀ b n, w₁.maps b = some n → b ≠ a := by
      rintro b n hb rfl
      rw [hself] at hb
      cases hb
    have hd₁ : Dated w₁ (2 ^ 64 - 1) := by
      refine ⟨?_, fun g => hgroups ▸ hd₀.created g, fun g => hgroups ▸ hd₀.spans g⟩
      intro b n hb
      obtain ⟨k, hk, hver, -⟩ := r.back b n hb (hne b n hb)
      exact hver ▸ hd.ver b k hk
    obtain ⟨q, hq, hqg⟩ := h.next_alive ha
    obtain ⟨q₁, hq₁, -, hqg₁⟩ := r.forth m.next q hq (hnext hprev)
    have hssg : q₁.ssg = m.ssg := hqg₁.trans hqg
    obtain ⟨w', hrun, hcollected, hvisible⟩ := h₁.gcRun_exact hd₁ hq₁
    rw [hssg, hgroups, hdata₀] at hcollected hvisible
    refine ⟨w', ?_, hcollected.trans ?_, hvisible⟩
    · rw [if_pos ⟨hprev, rfl⟩, hrun] at e
      have hauto : (decide ((w.groups m.ssg).gcInsertCounter + (w.groups m.ssg).gcEraseCounter ≥ 16) &&
          decide ((w.groups m.ssg).gcInsertCounter + (w.groups m.ssg).gcEraseCounter ≥
            (w.groups m.ssg).data.length / 2)) = true := by
        rw [decide_eq_true hcount, decide_eq_true hsize]
        rfl
      simp only [World.destroyMe, ha, Option.bind_eq_bind, Option.bind_some, if_pos hw, hauto]
      rw [← e]
      cases w₀.unlink a m true <;> rfl
    · apply forall_congr'
      intro x
      apply imp_congr_right
      intro _
      constructor
      · rintro ⟨v, ⟨b, n, hb, hg, rfl⟩, hle⟩
        obtain ⟨k, hk, hver, hkg⟩ := r.back b n hb (hne b n hb)
        exact ⟨b, k, hk, hkg ▸ hg, hne b n hb, hver ▸ hle⟩
      · rintro ⟨b, k, hk, hg, hba, hle⟩
        obtain ⟨n, hn, hver, hng⟩ := r.forth b k hk hba
        exact ⟨n.ver, ⟨b, n, hn, hng.trans hg, rfl⟩, hver ▸ hle⟩
  · cases hgc

variable [DecidableEq V]

/-- The erasing assertions always hold, and that of a fresh snapshot never does. -/
theorem asserts_eq (h : Linked w rings) (op : Op K V) : w.asserts op = op.plain := by
  have hfresh : freshAssertion = false := by decide
  cases op with
  | eraseKey a key => exact h.eraseAsserts (.object a) (.query key) fun _ => true
  | eraseKeyValue a key value => exact h.eraseAsserts (.object a) (.query key) fun v => v == value
  | eraseRange a q => simp only [World.asserts, hfresh, Bool.false_and, Op.plain]
  | assign a src => simp only [World.asserts, hfresh, Bool.or_false, Op.plain]
  | insertRange a src q => exact hfresh
  | snapshot a src => exact hfresh
  | copy a src => exact hfresh
  | enumerate a q reverse => exact hfresh
  | create a => rfl
  | insert a entries => rfl
  | destroy a => rfl
  | gcRun a => rfl

omit [DecidableEq V] in
theorem afterGc_exact (h : Linked w rings) (hd : Dated w (2 ^ 64 - 1)) {op : Op K V} {g : Nat}
    (hg : w.collects op = some g) :
    ∃ w', w.afterGc op = some w' ∧
      (Collected w' g ↔ ∀ e ∈ (w.groups g).data,
        ∃ b n, w.maps b = some n ∧ n.ssg = g ∧ op.leaves b = false ∧ e.2.createdAt ≤ n.ver) ∧
      ∀ v, w'.HasVersion g v →
        visible v (w'.groups g).data = visible v (w.groups g).data := by
  have hgone : ∀ (a : Nat), w.autoGc (.object a) = some g →
      ∃ w', w.destroyMe (.object a) = some w' ∧
        (Collected w' g ↔ ∀ e ∈ (w.groups g).data, ∃ b n, w.maps b = some n ∧ n.ssg = g ∧
          (b == Addr.object a) = false ∧ e.2.createdAt ≤ n.ver) ∧
        ∀ v, w'.HasVersion g v →
          visible v (w'.groups g).data = visible v (w.groups g).data := by
    intro a hgc
    obtain ⟨w', e, hcollected, hvisible⟩ := h.destroyMe_exact hd hgc
    refine ⟨w', e, ?_, hvisible⟩
    simpa only [beq_eq_false_iff_ne] using hcollected
  cases op with
  | gcRun a =>
    obtain ⟨m, ha, rfl⟩ := Option.map_eq_some_iff.mp hg
    obtain ⟨w', e, hcollected, hvisible⟩ := h.gcRun_exact hd ha
    refine ⟨w', e, hcollected.trans ?_, hvisible⟩
    apply forall_congr'
    intro x
    apply imp_congr_right
    intro _
    constructor
    · rintro ⟨v, ⟨b, n, hb, hbg, rfl⟩, hle⟩
      exact ⟨b, n, hb, hbg, rfl, hle⟩
    · rintro ⟨b, n, hb, hbg, -, hle⟩
      exact ⟨n.ver, ⟨b, n, hb, hbg, rfl⟩, hle⟩
  | destroy a => exact hgone a hg
  | assign a src =>
    simp only [World.collects] at hg
    split at hg
    · cases hg
    · exact hgone a hg
  | _ => cases hg

theorem sound_iff_careful (h : Linked w rings) (hd : Dated w (2 ^ 64 - 1)) (op : Op K V) :
    Sound w op ↔ Careful w op := by
  rw [Sound, Careful, h.asserts_eq op]
  apply and_congr_right
  intro _
  apply forall_congr'
  intro g
  apply imp_congr_right
  intro hg
  obtain ⟨w', e, hcollected, hvisible⟩ := h.afterGc_exact hd hg
  constructor
  · rintro ⟨w₁, e₁, hc, -⟩
    obtain rfl := Option.some.inj (e.symm.trans e₁)
    exact hcollected.mp hc
  · intro hc
    exact ⟨w', e, hcollected.mpr hc, hvisible⟩

end Linked

variable [DecidableEq V]

omit [LinearOrder K] [DecidableEq V] in
theorem Dated.init : Dated ({} : World K V) 0 := by
  refine ⟨?_, ?_, ?_⟩
  · intro a m h
    cases h
  · intro g e h
    cases h
  · intro g e h
    cases h

/-- Wherever a program has brought its maps, the assertions of its next operation hold and a
collection leaves no garbage exactly when the operation takes no snapshot and no entry of the group
that it lets collect is newer than every map that stays. What a member sees is never dropped. -/
theorem collection_exact {ops : List (Op K V)} (hops : ∀ op ∈ ops, op.ordered = true)
    (hlen : ops.length + 1 < 2 ^ 64 - 1) {w : World K V} {outs : List (List (K × V))}
    (hrun : World.run {} ops = some (w, outs)) (op : Op K V) : Sound w op ↔ Careful w op := by
  obtain ⟨-, hsim⟩ := Sim.init.run hops
  obtain ⟨s, hs⟩ := hsim w outs hrun
  obtain ⟨rings, hl⟩ := hs.wellFormed
  have hd : Dated w (0 + ops.length) := Dated.init.run hrun
  exact hl.sound_iff_careful (hd.mono (by omega)) op

def newerProgram : List (Op Nat Nat) :=
  [.create 0, .insert 0 [(0, 0)], .snapshot 1 0, .insert 0 [(1, 1)], .destroy 0]

theorem collection_exact_newer :
    ∃ w outs, World.run {} newerProgram = some (w, outs) ∧
      (Sound w (.gcRun 1) ↔ Careful w (.gcRun 1)) :=
  have hops : ∀ op ∈ newerProgram, op.ordered = true := by decide
  ⟨_, _, rfl, collection_exact hops (by decide) rfl (.gcRun 1)⟩

/-- What it inserted is left by a collection of the snapshot; and the snapshot was already no fresh
one to its assertion. -/
theorem collection_incomplete :
    (∃ w outs, World.run {} newerProgram = some (w, outs) ∧ ¬ Sound w (.gcRun 1)) ∧
      ∃ w outs, World.run {} (newerProgram.take 2) = some (w, outs) ∧
        ¬ Sound w (.snapshot 1 0) := by
  refine ⟨⟨_, _, rfl, ?_⟩, ⟨_, _, rfl, ?_⟩⟩
  · rintro ⟨-, hgc⟩
    obtain ⟨w', e, hcollected, -⟩ := hgc 0 rfl
    have he := Option.some.inj e
    have hdata : (w'.groups 0).data = [(0, { createdAt := 1, val := 0 }),
        (1, { createdAt := 2, val := 1 })] := he ▸ rfl
    have hin : (1, { createdAt := 2, val := 1 }) ∈ (w'.groups 0).data := by simp [hdata]
    obtain ⟨hnew, -⟩ := hcollected _ hin
    subst he
    apply hnew
    rintro v ⟨b, n, hb, -, rfl⟩
    match b, hb with
    | .object 0, hb => cases hb
    | .object 1, hb =>
      obtain rfl := Option.some.inj hb
      exact Nat.one_lt_two
    | .object (i + 2), hb => cases hb
    | .temporary, hb => cases hb
    | .range, hb => cases hb
  · rintro ⟨hfresh, -⟩
    exact Bool.false_ne_true hfresh

end Jetpack.Memdb
