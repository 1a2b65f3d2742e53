import Jetpack.Memdb.Groups

/-! Maps join and leave the ring of their group. -/

namespace Jetpack.Memdb

open Multimap Ring

variable {K V : Type}

/-- All maps but `a` keep their version and their group, and the groups their entries. -/
structure Relinked (w w' : World K V) (a : Addr) : Prop where
  forth : ∀ b n, w.maps b = some n → b ≠ a →
    ∃ n', w'.maps b = some n' ∧ n'.ver = n.ver ∧ n'.ssg = n.ssg
  back : ∀ b n', w'.maps b = some n' → b ≠ a →
    ∃ n, w.maps b = some n ∧ n'.ver = n.ver ∧ n'.ssg = n.ssg
  data : ∀ g, (w'.groups g).data = (w.groups g).data
  writer : ∀ g b, b ≠ a → ((w'.groups g).writer = some b ↔ (w.groups g).writer = some b)
  readonly : ∀ g, (w'.groups g).writer ≠ some a

theorem Relinked.view {w w' : World K V} {a b : Addr} (r : Relinked w w' a) (hb : b ≠ a) :
    w'.view b = w.view b := by
  cases hm : w.maps b with
  | none =>
    have hm' : w'.maps b = none := by
      by_contra hne
      obtain ⟨n', hn'⟩ := Option.ne_none_iff_exists'.mp hne
      obtain ⟨n, hn, -⟩ := r.back b n' hn' hb
      rw [hm] at hn
      cases hn
    rw [World.view_eq_none hm, World.view_eq_none hm']
  | some n =>
    obtain ⟨n', hn', hver, hg⟩ := r.forth b n hm hb
    have hw : ((w'.groups n.ssg).writer == some b) = ((w.groups n.ssg).writer == some b) := by
      rw [Bool.eq_iff_iff, beq_iff_eq, beq_iff_eq]
      exact r.writer n.ssg b hb
    rw [World.view_eq hm, World.view_eq hn', hver, hg, r.data, hw]

/-- The other maps are as before, but for two links: after `p` comes `x`, and before `q` comes `y`. -/
def Spliced (w w' : World K V) (a p q x y : Addr) : Prop :=
  ∀ b, b ≠ a → w'.maps b = (w.maps b).map fun n =>
    { n with
      next := if b = p then x else n.next
      prev := if b = q then y else n.prev }

namespace Spliced

variable {w w' : World K V} {a b p q x y : Addr} {n : SortedMap}

theorem keep (hs : Spliced w w' a p q x y) (hb : w.maps b = some n) (hba : b ≠ a) :
    w'.maps b = some
      { n with
        next := if b = p then x else n.next
        prev := if b = q then y else n.prev } := by
  rw [hs b hba, hb]
  rfl

theorem nextOf_self (hs : Spliced w w' a p q x y) (hp : w.maps p = some n) (hpa : p ≠ a) :
    w'.nextOf p = some x := by
  rw [World.nextOf_eq (hs.keep hp hpa), if_pos rfl]

theorem nextOf_ne (hs : Spliced w w' a p q x y) (hb : w.maps b = some n) (hba : b ≠ a)
    (hbp : b ≠ p) : w'.nextOf b = w.nextOf b := by
  rw [World.nextOf_eq (hs.keep hb hba), World.nextOf_eq hb, if_neg hbp]

theorem prevOf_self (hs : Spliced w w' a p q x y) (hq : w.maps q = some n) (hqa : q ≠ a) :
    w'.prevOf q = some y := by
  rw [World.prevOf_eq (hs.keep hq hqa), if_pos rfl]

theorem prevOf_ne (hs : Spliced w w' a p q x y) (hb : w.maps b = some n) (hba : b ≠ a)
    (hbq : b ≠ q) : w'.prevOf b = w.prevOf b := by
  rw [World.prevOf_eq (hs.keep hb hba), World.prevOf_eq hb, if_neg hbq]

theorem relinked (hs : Spliced w w' a p q x y) (hgroups : w'.groups = w.groups)
    (hwriter : ∀ g, (w.groups g).writer ≠ some a) : Relinked w w' a := by
  constructor
  case forth => exact fun b n hb hba => ⟨_, hs.keep hb hba, rfl, rfl⟩
  case back =>
    intro b n' hb hba
    rw [hs b hba] at hb
    obtain ⟨n, hn, rfl⟩ := Option.map_eq_some_iff.mp hb
    exact ⟨n, hn, rfl, rfl⟩
  case data => exact fun g => by rw [hgroups]
  case writer => exact fun g b _ => by rw [hgroups]
  case readonly =>
    intro g
    rw [hgroups]
    exact hwriter g

end Spliced

theorem maps_of_setMap_none {w : World K V} {a b : Addr} {n : SortedMap}
    (h : (w.setMap a none).maps b = some n) : w.maps b = some n := by
  have h' : Function.update w.maps a none b = some n := h
  rw [Function.update_apply] at h'
  split at h'
  · cases h'
  · exact h'

/-- A loop that succeeds without the map `a` does the same with it. -/
theorem gcLoop_of_setMap_none {w : World K V} {a p q : Addr} {k low high : Nat} {r : Nat × Nat}
    (h : (w.setMap a none).gcLoop p k q low high = some r) :
    w.gcLoop p k q low high = some r := by
  induction k generalizing q low high with
  | zero => cases h
  | succ k ih =>
    simp only [World.gcLoop, Option.bind_eq_bind] at h ⊢
    obtain ⟨n, hn, h⟩ := Option.bind_eq_some_iff.mp h
    rw [maps_of_setMap_none hn, Option.bind_some]
    split at h
    · next hp =>
      rw [if_pos hp]
      exact h
    · next hp =>
      rw [if_neg hp]
      exact ih h

theorem gcRun_of_setMap_none {w w' : World K V} {a b : Addr}
    (h : (w.setMap a none).gcRun b = some w') :
    (w.gcRun b).map (fun u => u.setMap a none) = some w' := by
  simp only [World.gcRun, Option.bind_eq_bind] at h ⊢
  obtain ⟨n, hn, h⟩ := Option.bind_eq_some_iff.mp h
  obtain ⟨r, hr, h⟩ := Option.bind_eq_some_iff.mp h
  have hr' : w.gcLoop b w.created b n.ver (2 ^ 64 - 1) = some r := gcLoop_of_setMap_none hr
  rw [maps_of_setMap_none hn, Option.bind_some, hr', Option.bind_some]
  exact h

variable [LinearOrder K]

namespace Linked

variable {w w' : World K V} {rings rings' : Nat → List Addr} {a b : Addr} {m n : SortedMap}

theorem relink (h : Linked w rings) (r : Relinked w w' a)
    (hring : ∀ g, IsRing w'.nextOf w'.prevOf (rings' g))
    (hmem : ∀ g b, b ≠ a → (b ∈ rings' g ↔ b ∈ rings g))
    (hself : ∀ g, a ∈ rings' g ↔ ∃ m, w'.maps a = some m ∧ m.ssg = g)
    (hfuel : ∀ g, (rings' g).length ≤ w'.created)
    (hfresh : ∀ g, w'.nextGroup ≤ g → rings' g = [])
    (hver : ∀ m, w'.maps a = some m →
      ∃ c k, w.maps c = some k ∧ k.ssg = m.ssg ∧ k.ver = m.ver) :
    Linked w' rings' := by
  refine ⟨hring, ?_, ?_, hfuel, hfresh, ?_, ?_, ?_⟩
  · intro b n hb
    by_cases hba : b = a
    · subst hba
      exact (hself n.ssg).mpr ⟨n, hb, rfl⟩
    · obtain ⟨k, hk, -, hg⟩ := r.back b n hb hba
      rw [hg]
      exact (hmem k.ssg b hba).mpr (h.mem b k hk)
  · intro g b hb
    by_cases hba : b = a
    · subst hba
      exact (hself g).mp hb
    · obtain ⟨k, hk, hkg⟩ := h.alive g b ((hmem g b hba).mp hb)
      obtain ⟨n, hn, -, hg⟩ := r.forth b k hk hba
      exact ⟨n, hn, hg.trans hkg⟩
  · intro g
    rw [r.data]
    exact h.sorted g
  · intro g b hb
    have hba : b ≠ a := by
      rintro rfl
      exact r.readonly g hb
    exact (hmem g b hba).mpr (h.writer g b ((r.writer g b hba).mp hb))
  · intro b n hb hbw
    have hba : b ≠ a := by
      rintro rfl
      exact r.readonly _ hbw
    obtain ⟨k, hk, hkv, hkg⟩ := r.back b n hb hba
    rw [hkg] at hbw ⊢
    rw [hkv, r.data]
    obtain ⟨h1, h2⟩ := h.latest b k hk ((r.writer k.ssg b hba).mp hbw)
    refine ⟨?_, h2⟩
    intro c j hc hj
    by_cases hca : c = a
    · subst hca
      obtain ⟨d, i, hd, hdg, hdv⟩ := hver j hc
      rw [← hdv]
      exact h1 d i hd (hdg.trans hj)
    · obtain ⟨i, hi, hiv, hig⟩ := r.back c j hc hca
      rw [hiv]
      exact h1 c i hi (hig.symm.trans hj)

/-- The rings of the other groups do not meet the two links. -/
theorem splice_other (h : Linked w rings) {p q x y : Addr} {k l : SortedMap}
    (hs : Spliced w w' a p q x y) (hp : w.maps p = some k) (hq : w.maps q = some l) {g g' : Nat}
    (hpg : k.ssg = g) (hqg : l.ssg = g) (hg : g' ≠ g) (ha : a ∉ rings g') :
    IsRing w'.nextOf w'.prevOf (rings g') := by
  have hne : ∀ b ∈ rings g', b ≠ a ∧ b ≠ p ∧ b ≠ q := by
    intro b hb
    refine ⟨?_, ?_, ?_⟩
    · rintro rfl
      exact ha hb
    · rintro rfl
      exact hg (((h.mem_iff hp).mp hb).symm.trans hpg)
    · rintro rfl
      exact hg (((h.mem_iff hq).mp hb).symm.trans hqg)
  refine (h.ring g').congr ?_ ?_
  · intro b hb
    obtain ⟨n, hn, -⟩ := h.alive g' b hb
    exact hs.nextOf_ne hn (hne b hb).1 (hne b hb).2.1
  · intro b hb
    obtain ⟨n, hn, -⟩ := h.alive g' b hb
    exact hs.prevOf_ne hn (hne b hb).1 (hne b hb).2.2

theorem join_ring (h : Linked w rings) {src : Addr} {s : SortedMap} (ha : w.maps a = none)
    (hsrc : w.maps src = some s) (hself : w'.maps a = some ⟨s.ver, s.ssg, s.prev, src⟩)
    (hs : Spliced w w' a s.prev src a a) {t : List Addr}
    (hring : IsRing w.nextOf w.prevOf (src :: t)) (hperm : (src :: t).Perm (rings s.ssg)) :
    IsRing w'.nextOf w'.prevOf (src :: t ++ [a]) := by
  have hout : ∀ b n, w.maps b = some n → b ≠ a := by
    rintro b n hb rfl
    rw [ha] at hb
    cases hb
  have halive : ∀ b ∈ src :: t, ∃ n, w.maps b = some n ∧ n.ssg = s.ssg := fun b hb =>
    h.alive s.ssg b (hperm.mem_iff.mp hb)
  obtain ⟨p, hp, -⟩ := h.prev_alive hsrc
  have hat : a ∉ src :: t := fun hm => h.not_mem ha s.ssg (hperm.mem_iff.mp hm)
  refine hring.insert hat (World.prevOf_eq hsrc) (hs.nextOf_self hp (hout _ p hp))
    (World.nextOf_eq hself) ?_ (hs.prevOf_self hsrc (hout src s hsrc))
    (by rw [World.prevOf_eq hself]) ?_
  · intro b hb hne
    obtain ⟨n, hn, -⟩ := halive b hb
    exact hs.nextOf_ne hn (hout b n hn) hne
  · intro b hb
    have hne : b ≠ src := by
      rintro rfl
      exact (List.nodup_cons.mp hring.nodup).1 hb
    obtain ⟨n, hn, -⟩ := halive b (List.mem_cons_of_mem src hb)
    exact hs.prevOf_ne hn (hout b n hn) hne

theorem joined (h : Linked w rings) {src : Addr} {s : SortedMap} (ha : w.maps a = none)
    (hsrc : w.maps src = some s) (hself : w'.maps a = some ⟨s.ver, s.ssg, s.prev, src⟩)
    (hs : Spliced w w' a s.prev src a a)
    (hgroups : w'.groups = w.groups) (hnextGroup : w'.nextGroup = w.nextGroup)
    (hcreated : w'.created = w.created + 1) :
    (∃ rings', Linked w' rings') ∧
      w'.view = Function.update w.view a
        (some (false, visible s.ver (w.groups s.ssg).data)) := by
  obtain ⟨p, hp, hpg⟩ := h.prev_alive hsrc
  have hwriter : ∀ g, (w.groups g).writer ≠ some a := by
    intro g hw
    obtain ⟨n, hn, -⟩ := h.writer_alive hw
    rw [ha] at hn
    cases hn
  have r := hs.relinked hgroups hwriter
  obtain ⟨t, hring, hperm⟩ := (h.ring s.ssg).from_mem (h.mem src s hsrc)
  refine ⟨⟨Function.update rings s.ssg (src :: t ++ [a]), h.relink r ?_ ?_ ?_ ?_ ?_ ?_⟩, ?_⟩
  · intro g
    rw [Function.update_apply]
    split
    · exact h.join_ring ha hsrc hself hs hring hperm
    · next hg => exact h.splice_other hs hp hsrc hpg rfl hg (h.not_mem ha g)
  · intro g b hba
    rw [Function.update_apply]
    split
    · next hg =>
      subst hg
      rw [← hperm.mem_iff, List.mem_append, List.mem_singleton, or_iff_left hba]
    · rfl
  · intro g
    rw [Function.update_apply, hself]
    constructor
    · intro hm
      split at hm
      · next hg => exact ⟨_, rfl, hg.symm⟩
      · exact absurd hm (h.not_mem ha g)
    · rintro ⟨n, hn, rfl⟩
      cases hn
      simp
  · intro g
    rw [Function.update_apply, hcreated]
    split
    · have h1 := h.fuel s.ssg
      have h2 := hperm.length_eq
      simp only [List.length_append, List.length_singleton]
      omega
    · exact Nat.le_succ_of_le (h.fuel g)
  · intro g hg
    rw [hnextGroup] at hg
    have hne : g ≠ s.ssg := by
      rintro rfl
      have := h.mem src s hsrc
      rw [h.fresh s.ssg hg] at this
      cases this
    rw [Function.update_of_ne hne]
    exact h.fresh g hg
  · intro n hn
    rw [hself] at hn
    cases hn
    exact ⟨src, s, hsrc, rfl, rfl⟩
  · funext b
    by_cases hba : b = a
    · subst hba
      rw [Function.update_self, World.view_eq hself, hgroups]
      have hne : ((w.groups s.ssg).writer == some b) = false := by
        rw [beq_eq_false_iff_ne]
        exact hwriter s.ssg
      rw [hne]
    · rw [Function.update_of_ne hba]
      exact r.view hba

theorem makeMeSnapshotOf (h : Linked w rings) {src : Addr} {s : SortedMap} (ha : w.maps a = none)
    (hsrc : w.maps src = some s) :
    ∃ w', w.makeMeSnapshotOf a src = some w' ∧ (∃ rings', Linked w' rings') ∧
      w'.view = Function.update w.view a
        (some (false, visible s.ver (w.groups s.ssg).data)) := by
  obtain ⟨p, hp, hpg⟩ := h.prev_alive hsrc
  have hsa : src ≠ a := by
    rintro rfl
    rw [ha] at hsrc
    cases hsrc
  have hpa : s.prev ≠ a := by
    intro he
    rw [he, ha] at hp
    cases hp
  let w₁ : World K V :=
    { w.setMap a (some ⟨s.ver, s.ssg, s.prev, src⟩) with created := w.created + 1 }
  have h₁ : w₁.maps s.prev = some p := by
    show Function.update w.maps a _ s.prev = _
    rw [Function.update_of_ne hpa, hp]
  let w₂ := w₁.setMap s.prev (some { p with next := a })
  have h₂ : ∃ s₂, w₂.maps src = some s₂ ∧ s₂ = { s with next := if src = s.prev then a else s.next } := by
    by_cases he : src = s.prev
    · have hps : p = s := by
        rw [← he, hsrc] at hp
        exact (Option.some.inj hp).symm
      refine ⟨{ p with next := a }, ?_, ?_⟩
      · show Function.update w₁.maps s.prev _ src = _
        rw [he, Function.update_self]
      · rw [if_pos he, hps]
    · refine ⟨s, ?_, by rw [if_neg he]⟩
      show Function.update w₁.maps s.prev _ src = _
      rw [Function.update_of_ne he]
      show Function.update w.maps a _ src = _
      rw [Function.update_of_ne hsa, hsrc]
  obtain ⟨s₂, h₂, hs₂⟩ := h₂
  let w₃ := w₂.setMap src (some { s₂ with prev := a })
  have hself : w₃.maps a = some ⟨s.ver, s.ssg, s.prev, src⟩ := by
    show Function.update w₂.maps src _ a = _
    rw [Function.update_of_ne hsa.symm]
    show Function.update w₁.maps s.prev _ a = _
    rw [Function.update_of_ne hpa.symm]
    exact Function.update_self ..
  have hspliced : Spliced w w₃ a s.prev src a a := by
    intro b hba
    show Function.update w₂.maps src _ b = _
    by_cases hbs : b = src
    · subst hbs
      rw [Function.update_self, hsrc, hs₂]
      simp
    · rw [Function.update_of_ne hbs]
      show Function.update w₁.maps s.prev _ b = _
      by_cases hbp : b = s.prev
      · subst hbp
        rw [Function.update_self, hp]
        simp [hbs]
      · rw [Function.update_of_ne hbp]
        show Function.update w.maps a _ b = _
        rw [Function.update_of_ne hba]
        cases w.maps b with
        | none => rfl
        | some n => simp [hbs, hbp]
  obtain ⟨⟨rings', hl⟩, hv⟩ := h.joined ha hsrc hself hspliced rfl rfl rfl
  have e₁ : w₁.setNext s.prev a = some w₂ := by
    rw [World.setNext, h₁]
    rfl
  have e₂ : w₂.setPrev src a = some w₃ := by
    rw [World.setPrev, h₂]
    rfl
  have hunfold : w.makeMeSnapshotOf a src =
      (w₁.setNext s.prev a).bind fun w => (w.setPrev src a).bind fun w =>
        if (w.groups s.ssg).writer = some src then
          some (w.setGroup s.ssg
            { w.groups s.ssg with gcInsertCounter := 0, gcEraseCounter := 0 })
        else some w := by
    rw [World.makeMeSnapshotOf, hsrc]
    rfl
  rw [e₁, Option.bind_some, e₂, Option.bind_some] at hunfold
  by_cases hwr : (w.groups s.ssg).writer = some src
  · refine ⟨w₃.setGroup s.ssg { w.groups s.ssg with gcInsertCounter := 0, gcEraseCounter := 0 }, ?_,
      ⟨rings', hl.setGroup (fun _ hw => hw) (fun _ he => he) (hl.sorted s.ssg)⟩, ?_⟩
    · rw [hunfold]
      exact if_pos hwr
    · rw [← hv]
      exact World.view_setGroup (fun _ _ _ _ => rfl) (fun _ _ _ _ => rfl)
  · refine ⟨w₃, ?_, ⟨rings', hl⟩, hv⟩
    rw [hunfold]
    exact if_neg hwr

theorem next_alive (h : Linked w rings) (ha : w.maps a = some m) :
    ∃ q, w.maps m.next = some q ∧ q.ssg = m.ssg := by
  obtain ⟨t, hring, hperm⟩ := (h.ring m.ssg).from_mem (h.mem a m ha)
  have hnext := hring.next_eq (u := []) rfl
  rw [World.nextOf_eq ha] at hnext
  have hin : m.next ∈ a :: t := by
    rw [Option.some.inj hnext]
    cases t with
    | nil => simp
    | cons c t => simp
  exact h.alive m.ssg m.next (hperm.mem_iff.mp hin)

theorem leave_ring (h : Linked w rings) (ha : w.maps a = some m)
    (hs : Spliced w w' a m.prev m.next m.next m.prev) {t : List Addr}
    (hring : IsRing w.nextOf w.prevOf (a :: t)) (hperm : (a :: t).Perm (rings m.ssg)) :
    IsRing w'.nextOf w'.prevOf t := by
  have hnd := List.nodup_cons.mp hring.nodup
  have hne : ∀ b ∈ t, b ≠ a := by
    rintro b hb rfl
    exact hnd.1 hb
  have halive : ∀ b ∈ t, ∃ n, w.maps b = some n ∧ n.ssg = m.ssg := by
    intro b hb
    exact h.alive m.ssg b (hperm.mem_iff.mp (List.mem_cons_of_mem a hb))
  cases t with
  | nil => exact IsRing.nil
  | cons c t =>
    have hnext : m.next = c := by
      have := hring.next_eq (u := []) rfl
      rw [World.nextOf_eq ha] at this
      exact Option.some.inj this
    subst hnext
    obtain ⟨p, hp, -⟩ := h.prev_alive ha
    have hprev : m.prev ≠ a := by
      intro he
      have := hring.eq_nil (by rw [World.prevOf_eq ha, he])
      cases this
    obtain ⟨q, hq, -⟩ := halive m.next List.mem_cons_self
    refine hring.remove (World.prevOf_eq ha) (hs.nextOf_self hp hprev) ?_
      (hs.prevOf_self hq (hne m.next List.mem_cons_self)) ?_
    · intro b hb hbp
      obtain ⟨n, hn, -⟩ := halive b hb
      exact hs.nextOf_ne hn (hne b hb) hbp
    · intro b hb
      have hbm := List.mem_cons_of_mem m.next hb
      have hbn : b ≠ m.next := by
        rintro rfl
        exact (List.nodup_cons.mp hnd.2).1 hb
      obtain ⟨n, hn, -⟩ := halive b hbm
      exact hs.prevOf_ne hn (hne b hbm) hbn

theorem departed (h : Linked w rings) (ha : w.maps a = some m)
    (hwriter : ∀ g, (w.groups g).writer ≠ some a) (hself : w'.maps a = none)
    (hs : Spliced w w' a m.prev m.next m.next m.prev)
    (hgroups : w'.groups = w.groups) (hnextGroup : w'.nextGroup = w.nextGroup)
    (hcreated : w'.created = w.created) :
    (∃ rings', Linked w' rings') ∧ w'.view = Function.update w.view a none := by
  have r := hs.relinked hgroups hwriter
  obtain ⟨t, hring, hperm⟩ := (h.ring m.ssg).from_mem (h.mem a m ha)
  have hat : a ∉ t := (List.nodup_cons.mp hring.nodup).1
  refine ⟨⟨Function.update rings m.ssg t, h.relink r ?_ ?_ ?_ ?_ ?_ ?_⟩, ?_⟩
  · intro g
    rw [Function.update_apply]
    split
    · exact h.leave_ring ha hs hring hperm
    · next hg =>
      obtain ⟨p, hp, hpg⟩ := h.prev_alive ha
      obtain ⟨q, hq, hqg⟩ := h.next_alive ha
      exact h.splice_other hs hp hq hpg hqg hg fun hm => hg ((h.mem_iff ha).mp hm).symm
  · intro g b hba
    rw [Function.update_apply]
    split
    · next hg =>
      subst hg
      rw [← hperm.mem_iff, List.mem_cons, or_iff_right hba]
    · rfl
  · intro g
    rw [Function.update_apply, hself]
    constructor
    · intro hm
      split at hm
      · exact absurd hm hat
      · next hg => exact absurd ((h.mem_iff ha).mp hm).symm hg
    · rintro ⟨n, hn, -⟩
      cases hn
  · intro g
    rw [Function.update_apply, hcreated]
    split
    · have h1 := h.fuel m.ssg
      have h2 := hperm.length_eq
      simp only [List.length_cons] at h2
      omega
    · exact h.fuel g
  · intro g hg
    rw [hnextGroup] at hg
    have hne : g ≠ m.ssg := by
      rintro rfl
      have := h.mem a m ha
      rw [h.fresh m.ssg hg] at this
      cases this
    rw [Function.update_of_ne hne]
    exact h.fresh g hg
  · intro n hn
    rw [hself] at hn
    cases hn
  · funext b
    by_cases hba : b = a
    · subst hba
      rw [Function.update_self, World.view_eq_none hself]
    · rw [Function.update_of_ne hba]
      exact r.view hba

/-- The map is out of the ring, before the rest of its group may collect garbage. -/
theorem unlinked (h : Linked w rings) (ha : w.maps a = some m)
    (hwriter : ∀ g, (w.groups g).writer ≠ some a) (autoGc : Bool) :
    ∃ w₁, (∃ rings', Linked w₁ rings') ∧ w₁.view = Function.update w.view a none ∧
      w₁.groups = w.groups ∧ w₁.maps a = none ∧
      Spliced w w₁ a m.prev m.next m.next m.prev ∧ (m.prev ≠ a → m.next ≠ a) ∧
      (w.unlink a m autoGc).map (fun u => u.setMap a none) =
        if m.prev ≠ a ∧ autoGc then w₁.gcRun m.next else some w₁ := by
  have hself : ∀ u : World K V, (u.setMap a none).maps a = none := fun u =>
    Function.update_self ..
  by_cases hprev : m.prev = a
  · -- nobody else is in the group
    obtain ⟨t, hring, hperm⟩ := (h.ring m.ssg).from_mem (h.mem a m ha)
    have ht := hring.eq_nil (by rw [World.prevOf_eq ha, hprev])
    have hnext : m.next = a := by
      have := hring.next_eq (u := []) rfl
      rw [World.nextOf_eq ha, ht] at this
      exact Option.some.inj this
    have hspliced : Spliced w (w.setMap a none) a m.prev m.next m.next m.prev := by
      intro b hba
      show Function.update w.maps a none b = _
      rw [Function.update_of_ne hba, hprev, hnext]
      cases w.maps b with
      | none => rfl
      | some n => simp [hba]
    obtain ⟨hl, hv⟩ := h.departed ha hwriter (hself w) hspliced rfl rfl rfl
    refine ⟨w.setMap a none, hl, hv, rfl, hself w, hspliced, fun hne => absurd hprev hne, ?_⟩
    rw [if_neg (fun hgc => hgc.1 hprev)]
    simp [World.unlink, hprev]
  · obtain ⟨p, hp, hpg⟩ := h.prev_alive ha
    obtain ⟨q, hq, hqg⟩ := h.next_alive ha
    let w₁ := w.setMap m.prev (some { p with next := m.next })
    obtain ⟨q₁, h₁, hq₁⟩ : ∃ q₁, w₁.maps m.next = some q₁ ∧
        q₁ = { q with next := if m.next = m.prev then m.next else q.next } := by
      by_cases he : m.next = m.prev
      · have hpq : p = q := by
          rw [← he, hq] at hp
          exact (Option.some.inj hp).symm
        refine ⟨{ p with next := m.next }, ?_, by rw [if_pos he, hpq]⟩
        show Function.update w.maps m.prev _ m.next = _
        rw [he, Function.update_self]
      · refine ⟨q, ?_, by rw [if_neg he]⟩
        show Function.update w.maps m.prev _ m.next = _
        rw [Function.update_of_ne he, hq]
    let w₂ := w₁.setMap m.next (some { q₁ with prev := m.prev })
    have hspliced : Spliced w (w₂.setMap a none) a m.prev m.next m.next m.prev := by
      intro b hba
      show Function.update w₂.maps a none b = _
      rw [Function.update_of_ne hba]
      show Function.update w₁.maps m.next _ b = _
      by_cases hbn : b = m.next
      · rw [hbn, Function.update_self, hq, hq₁]
        simp
      · rw [Function.update_of_ne hbn]
        show Function.update w.maps m.prev _ b = _
        by_cases hbp : b = m.prev
        · rw [hbp, Function.update_self, hp]
          rw [hbp] at hbn
          simp [hbn]
        · rw [Function.update_of_ne hbp]
          cases w.maps b with
          | none => rfl
          | some n => simp [hbn, hbp]
    obtain ⟨⟨rings', hl⟩, hv⟩ := h.departed ha hwriter (hself w₂) hspliced rfl rfl rfl
    have e₁ : w.setNext m.prev m.next = some w₁ := by
      rw [World.setNext, hp]
      rfl
    have e₂ : w₁.setPrev m.next m.prev = some w₂ := by
      rw [World.setPrev, h₁]
      rfl
    have hunfold : w.unlink a m autoGc = if autoGc then w₂.gcRun m.next else some w₂ := by
      simp only [World.unlink, ne_eq, hprev, not_false_eq_true, if_true, e₁, e₂,
        Option.bind_eq_bind, Option.bind_some]
      rfl
    have hnext : m.next ≠ a := by
      intro he
      obtain ⟨t, hring, -⟩ := (h.ring m.ssg).from_mem (h.mem a m ha)
      have hp := hring.prev_of_next_self (by rw [World.nextOf_eq ha, he])
      rw [World.prevOf_eq ha] at hp
      exact hprev (Option.some.inj hp)
    refine ⟨w₂.setMap a none, ⟨rings', hl⟩, hv, rfl, hself w₂, hspliced, fun _ => hnext, ?_⟩
    rw [hunfold]
    cases autoGc with
    | false => simp
    | true =>
      obtain ⟨w', hgc, -, -⟩ := hl.gcRun (hspliced.keep hq hnext)
      rw [if_pos rfl, if_pos ⟨hprev, rfl⟩, hgc]
      exact gcRun_of_setMap_none hgc

theorem unlink (h : Linked w rings) (ha : w.maps a = some m)
    (hwriter : ∀ g, (w.groups g).writer ≠ some a) (autoGc : Bool) :
    ∃ w', (w.unlink a m autoGc).map (fun u => u.setMap a none) = some w' ∧
      (∃ rings', Linked w' rings') ∧ w'.view = Function.update w.view a none := by
  obtain ⟨w₁, ⟨rings', hl⟩, hv, -, -, hspliced, hnext, e⟩ := h.unlinked ha hwriter autoGc
  by_cases hgc : m.prev ≠ a ∧ autoGc
  · obtain ⟨q, hq, -⟩ := h.next_alive ha
    obtain ⟨w', hrun, hl', hv'⟩ := hl.gcRun (hspliced.keep hq (hnext hgc.1))
    refine ⟨w', ?_, ⟨rings', hl'⟩, hv'.trans hv⟩
    rw [e, if_pos hgc, hrun]
  · refine ⟨w₁, ?_, ⟨rings', hl⟩, hv⟩
    rw [e, if_neg hgc]

theorem writer_gone (h : Linked w rings) (ha : w.maps a = some m) (g : Nat) :
    ((w.setGroup m.ssg { w.groups m.ssg with writer := none }).groups g).writer ≠ some a := by
  by_cases hg : g = m.ssg
  · subst hg
    simp [World.setGroup]
  · simp only [World.setGroup, Function.update_of_ne hg]
    intro hg'
    exact hg ((h.mem_iff ha).mp (h.writer g a hg')).symm

theorem destroyMe (h : Linked w rings) (ha : w.maps a = some m) :
    ∃ w', w.destroyMe a = some w' ∧ (∃ rings', Linked w' rings') ∧
      w'.view = Function.update w.view a none := by
  have hfinish : ∀ x : Option (World K V),
      (x.bind fun u => some (u.setMap a none)) = x.map fun u => u.setMap a none := by
    intro x
    cases x <;> rfl
  by_cases hw : (w.groups m.ssg).writer = some a
  · -- the group loses its writer first
    have h₀ : Linked (w.setGroup m.ssg { w.groups m.ssg with writer := none }) rings :=
      h.setGroup (fun _ hn => by cases hn) (fun _ he => he) (h.sorted m.ssg)
    obtain ⟨w', hun, hl, hv⟩ := h₀.unlink (a := a) (m := m) ha (h.writer_gone ha)
      (decide ((w.groups m.ssg).gcInsertCounter + (w.groups m.ssg).gcEraseCounter ≥ 16) &&
        decide ((w.groups m.ssg).gcInsertCounter + (w.groups m.ssg).gcEraseCounter ≥
          (w.groups m.ssg).data.length / 2))
    refine ⟨w', ?_, hl, ?_⟩
    · rw [← hun, ← hfinish]
      simp only [World.destroyMe, ha, Option.bind_eq_bind, Option.bind_some, if_pos hw]
      rfl
    · rw [hv]
      funext b
      by_cases hba : b = a
      · subst hba
        rw [Function.update_self, Function.update_self]
      · rw [Function.update_of_ne hba, Function.update_of_ne hba]
        cases hb : w.maps b with
        | none => rw [World.view_eq_none hb, World.view_eq_none (w := w.setGroup _ _) hb]
        | some n =>
          rw [World.view_eq hb, World.view_eq (w := w.setGroup _ _) hb]
          by_cases hg : n.ssg = m.ssg
          · have hne : ((w.groups n.ssg).writer == some b) = false := by
              rw [hg, hw, beq_eq_false_iff_ne]
              exact fun he => hba (Option.some.inj he).symm
            rw [hne, hg]
            simp [World.setGroup]
          · simp [World.setGroup, Function.update_of_ne hg]
  · have hwriter : ∀ g, (w.groups g).writer ≠ some a := by
      intro g hg
      have := (h.mem_iff ha).mp (h.writer g a hg)
      subst this
      exact hw hg
    obtain ⟨w', hun, hl, hv⟩ := h.unlink ha hwriter false
    refine ⟨w', ?_, hl, hv⟩
    rw [← hun, ← hfinish]
    simp only [World.destroyMe, ha, Option.bind_eq_bind, Option.bind_some, if_neg hw]
    rfl

end Linked

end Jetpack.Memdb
