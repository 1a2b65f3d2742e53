import Jetpack.Carousel.Server

/-! What the pending maps hold: a count for each column that a prepared and undecided transaction
reads, and an entry for each that one writes. The balance is lost when a prepare is learned of twice,
when a fast prepare is aborted, and when two prepared transactions write one column. -/

namespace Jetpack.Carousel

open Transition

variable {κ ν η : Type} [DecidableEq η]

/-- The entry of a map that counts and holds no zero. -/
def entry (n : Nat) : Option Int := if n = 0 then none else some n

theorem entry_succ (n : Nat) : entry (n + 1) = some (((entry n).map (· + 1)).getD 1) := by
  unfold entry
  cases n with
  | zero => rfl
  | succ n => simp

theorem entry_pos {n : Nat} {m : Int} (h : entry n = some m) : 0 < m := by
  unfold entry at h
  split at h
  · cases h
  · cases h
    omega

section Loops

variable (hash : κ → η)

theorem hashKeys_keys (cols : List κ) : (hashKeys hash cols).map Prod.fst = (cols.map hash).dedup := by
  unfold hashKeys
  rw [List.map_map]
  exact List.map_id _

theorem hashKeys_one {cols : List κ} {e : η × Int} (he : e ∈ hashKeys hash cols) : e.2 = 1 := by
  obtain ⟨h, -, rfl⟩ := List.mem_map.mp he
  rfl

theorem lookup_addReads {l : List (η × Int)} (hnodup : (l.map Prod.fst).Nodup)
    (hone : ∀ e ∈ l, e.2 = 1) (m : RowMap η) (h : η) :
    (addReads m l).lookup h =
      if h ∈ l.map Prod.fst then some (((m.lookup h).map (· + 1)).getD 1) else m.lookup h := by
  induction l generalizing m with
  | nil => rfl
  | cons e l ih =>
    obtain ⟨k, n⟩ := e
    obtain ⟨hk, hrest⟩ := List.nodup_cons.mp hnodup
    have hn : n = 1 := hone (k, n) List.mem_cons_self
    subst hn
    rw [addReads, ih hrest fun e he => hone e (List.mem_cons_of_mem _ he)]
    by_cases hh : h = k
    · subst hh
      have hnot : h ∉ l.map Prod.fst := hk
      rw [if_neg hnot, if_pos (by simp), AList.lookup_insert]
    · have hmem : h ∈ ((k, 1) :: l).map Prod.fst ↔ h ∈ l.map Prod.fst :=
        List.mem_cons.trans (or_iff_right hh)
      rw [AList.lookup_insert_ne hh]
      simp only [hmem]

theorem lookup_addWrites {l : List (η × Int)} (hone : ∀ e ∈ l, e.2 = 1) (m : RowMap η) (h : η) :
    (addWrites m l).lookup h =
      (m.lookup h).or (if h ∈ l.map Prod.fst then some 1 else none) := by
  induction l generalizing m with
  | nil => simp [addWrites]
  | cons e l ih =>
    obtain ⟨k, n⟩ := e
    have hn : n = 1 := hone (k, n) List.mem_cons_self
    subst hn
    rw [addWrites, ih fun e he => hone e (List.mem_cons_of_mem _ he)]
    by_cases hh : h = k
    · subst hh
      cases hm : m.lookup h with
      | none => simp
      | some v => simp [hm]
    · have hsame : (if (m.lookup k).isSome then m else m.insert k 1).lookup h = m.lookup h := by
        split
        · rfl
        · exact AList.lookup_insert_ne hh
      have hmem : h ∈ ((k, 1) :: l).map Prod.fst ↔ h ∈ l.map Prod.fst :=
        List.mem_cons.trans (or_iff_right hh)
      rw [hsame]
      simp only [hmem]

theorem lookup_addReads_hashKeys (cols : List κ) (m : RowMap η) (h : η) :
    (addReads m (hashKeys hash cols)).lookup h =
      if h ∈ cols.map hash then some (((m.lookup h).map (· + 1)).getD 1) else m.lookup h := by
  have hnodup : ((hashKeys hash cols).map Prod.fst).Nodup := by
    rw [hashKeys_keys]
    exact List.nodup_dedup _
  rw [lookup_addReads hnodup fun e he => hashKeys_one hash he, hashKeys_keys]
  simp only [List.mem_dedup]

theorem lookup_addWrites_hashKeys (cols : List κ) (m : RowMap η) (h : η) :
    (addWrites m (hashKeys hash cols)).lookup h =
      (m.lookup h).or (if h ∈ cols.map hash then some 1 else none) := by
  rw [lookup_addWrites fun e he => hashKeys_one hash he, hashKeys_keys]
  simp only [List.mem_dedup]

theorem checkWrites_keeps {p m : RowMap η} (hpos : ∀ h n, m.lookup h = some n → 0 < n)
    (cols : List κ) : (checkWrites hash p m cols).2 = m := by
  induction cols with
  | nil => rfl
  | cons c cols ih =>
    unfold checkWrites
    split
    · next n hn =>
      rw [if_pos (hpos _ _ hn)]
    · split
      · rfl
      · exact ih

def lower (o : Option Int) : Option Int := o.bind fun n => if n - 1 = 0 then none else some (n - 1)

theorem lower_entry (n : Nat) : lower (entry (n + 1)) = entry n := by
  unfold lower entry
  cases n with
  | zero => rfl
  | succ n =>
    simp
    omega

theorem releaseReads_spec (seen : List η) (m : RowMap η) (cols : List κ)
    (hpos : ∀ c ∈ cols, hash c ∉ seen → ∃ n, m.lookup (hash c) = some n ∧ 0 < n) :
    ∃ m', releaseReads hash seen m cols = some m' ∧
      ∀ h, m'.lookup h =
        if h ∈ cols.map hash ∧ h ∉ seen then lower (m.lookup h) else m.lookup h := by
  induction cols generalizing seen m with
  | nil => exact ⟨m, rfl, fun h => by simp⟩
  | cons c cols ih =>
    unfold releaseReads
    by_cases hseen : hash c ∈ seen
    · rw [if_pos hseen]
      obtain ⟨m', hm', hlookup⟩ := ih seen m fun d hd => hpos d (List.mem_cons_of_mem c hd)
      refine ⟨m', hm', fun h => ?_⟩
      rw [hlookup h]
      by_cases hh : h = hash c
      · subst hh
        simp [hseen]
      · simp [hh]
    · rw [if_neg hseen]
      obtain ⟨n, hn, hlt⟩ := hpos c List.mem_cons_self hseen
      simp only [hn, if_pos hlt]
      have hother : ∀ h, h ≠ hash c →
          (if n - 1 = 0 then m.erase (hash c) else m.insert (hash c) (n - 1)).lookup h =
            m.lookup h := by
        intro h hh
        split
        · exact AList.lookup_erase_ne hh
        · exact AList.lookup_insert_ne hh
      have hself : (if n - 1 = 0 then m.erase (hash c) else m.insert (hash c) (n - 1)).lookup
          (hash c) = lower (m.lookup (hash c)) := by
        rw [hn]
        unfold lower
        by_cases hone : n - 1 = 0
        · rw [if_pos hone, AList.lookup_erase]
          simp [hone]
        · rw [if_neg hone, AList.lookup_insert]
          simp [hone]
      obtain ⟨m', hm', hlookup⟩ := ih (hash c :: seen)
        (if n - 1 = 0 then m.erase (hash c) else m.insert (hash c) (n - 1)) (by
          intro d hd hd'
          obtain ⟨hne, hnot⟩ := not_or.mp (mt List.mem_cons.mpr hd')
          rw [hother _ hne]
          exact hpos d (List.mem_cons_of_mem c hd) hnot)
      refine ⟨m', hm', fun h => ?_⟩
      rw [hlookup h]
      by_cases hh : h = hash c
      · subst hh
        rw [hself]
        simp [hseen]
      · rw [hother h hh]
        simp [hh]

theorem releaseWrites_spec (inTable : κ → Bool) (seen : List η) (m : RowMap η) (cols : List κ)
    (hone : ∀ c ∈ cols, hash c ∉ seen → m.lookup (hash c) = some 1) :
    ∃ m', releaseWrites hash inTable seen m cols = some m' ∧
      ∀ h, m'.lookup h = if h ∈ cols.map hash ∧ h ∉ seen then none else m.lookup h := by
  induction cols generalizing seen m with
  | nil => exact ⟨m, rfl, fun h => by simp⟩
  | cons c cols ih =>
    unfold releaseWrites
    by_cases hseen : hash c ∈ seen
    · rw [if_pos hseen]
      obtain ⟨m', hm', hlookup⟩ := ih seen m fun d hd => hone d (List.mem_cons_of_mem c hd)
      refine ⟨m', hm', fun h => ?_⟩
      rw [hlookup h]
      by_cases hh : h = hash c
      · subst hh
        simp [hseen]
      · simp [hh]
    · rw [if_neg hseen]
      have hn := hone c List.mem_cons_self hseen
      simp only [hn, if_true]
      obtain ⟨m', hm', hlookup⟩ := ih (hash c :: seen) (m.erase (hash c)) (by
        intro d hd hd'
        obtain ⟨hne, hnot⟩ := not_or.mp (mt List.mem_cons.mpr hd')
        rw [AList.lookup_erase_ne hne]
        exact hone d (List.mem_cons_of_mem c hd) hnot)
      refine ⟨m', hm', fun h => ?_⟩
      rw [hlookup h]
      by_cases hh : h = hash c
      · subst hh
        rw [AList.lookup_erase]
        simp [hseen]
      · rw [AList.lookup_erase_ne hh]
        simp [hh]

end Loops

def readers (cfg : Setting κ ν η) (live : Finset TxId) (h : η) : Nat :=
  (live.filter fun u => h ∈ (cfg.tx u).readVers.map cfg.hash).card

def Written (cfg : Setting κ ν η) (live : Finset TxId) (h : η) : Prop :=
  ∃ u ∈ live, h ∈ (cfg.tx u).writes.map cfg.hash

section Counts

variable (cfg : Setting κ ν η) {live : Finset TxId} {tid : TxId} (h : η)

theorem readers_insert (hnew : tid ∉ live) :
    readers cfg (insert tid live) h =
      readers cfg live h + if h ∈ (cfg.tx tid).readVers.map cfg.hash then 1 else 0 := by
  unfold readers
  rw [Finset.filter_insert]
  split
  · rw [Finset.card_insert_of_notMem fun hmem => hnew (Finset.mem_filter.mp hmem).1]
  · rfl

theorem readers_erase (hold : tid ∈ live) :
    readers cfg live h =
      readers cfg (live.erase tid) h +
        if h ∈ (cfg.tx tid).readVers.map cfg.hash then 1 else 0 := by
  have hinsert := readers_insert cfg h (Finset.notMem_erase tid live)
  rw [Finset.insert_erase hold] at hinsert
  exact hinsert

omit [DecidableEq η] in
theorem written_insert :
    Written cfg (insert tid live) h ↔
      Written cfg live h ∨ h ∈ (cfg.tx tid).writes.map cfg.hash := by
  constructor
  · rintro ⟨u, hu, hw⟩
    rcases Finset.mem_insert.mp hu with rfl | hu
    · exact Or.inr hw
    · exact Or.inl ⟨u, hu, hw⟩
  · rintro (⟨u, hu, hw⟩ | hw)
    · exact ⟨u, Finset.mem_insert_of_mem hu, hw⟩
    · exact ⟨tid, Finset.mem_insert_self tid live, hw⟩

end Counts

namespace System

variable {cfg : Setting κ ν η} {s t : System κ ν η} {tid : TxId}

def live (s : System κ ν η) : Finset TxId := s.prepared \ s.decided

/-- The bookkeeping in terms of the prepared and undecided transactions. -/
structure Settled (cfg : Setting κ ν η) (s : System κ ν η) : Prop where
  reads : ∀ h, s.replica.pendingRead.lookup h = entry (readers cfg s.live h)
  writes : ∀ h n, s.replica.pendingWrite.lookup h = some n ↔ Written cfg s.live h ∧ n = 1
  ids : s.replica.preparedTransIds = s.live
  marks : s.replica.preparedTransIdsFollower ⊆ s.live
  verified : s.failed = false

omit [DecidableEq η] in
theorem live_prepare (hnew : tid ∉ s.decided) :
    insert tid s.prepared \ s.decided = insert tid s.live :=
  Finset.insert_sdiff_of_notMem s.prepared hnew

omit [DecidableEq η] in
theorem live_decide (s : System κ ν η) (tid : TxId) :
    s.prepared \ insert tid s.decided = s.live.erase tid := by
  ext u
  simp only [live, Finset.mem_sdiff, Finset.mem_insert, Finset.mem_erase]
  tauto

omit [DecidableEq η] in
theorem mem_live (h : tid ∈ s.live) : tid ∈ s.prepared ∧ tid ∉ s.decided := Finset.mem_sdiff.mp h

/-- A prepare returns at once, changes nothing, or adds the transaction. -/
theorem Settled.doPrepare_cases (hs : Settled cfg s) (tid : TxId) (withCmd : Bool) :
    (tid ∈ s.live ∧ s.replica.doPrepare cfg.hash tid (cfg.tx tid) withCmd = (true, s.replica)) ∨
    s.replica.doPrepare cfg.hash tid (cfg.tx tid) withCmd = (false, s.replica) ∨
    (tid ∉ s.live ∧ ∃ r, s.replica.doPrepare cfg.hash tid (cfg.tx tid) withCmd = (true, r) ∧
      r.pendingRead = addReads s.replica.pendingRead (hashKeys cfg.hash (cfg.tx tid).readVers) ∧
      r.pendingWrite = addWrites s.replica.pendingWrite (hashKeys cfg.hash (cfg.tx tid).writes) ∧
      r.preparedTransIds = insert tid s.replica.preparedTransIds ∧
      r.preparedTransIdsFollower ⊆ insert tid s.replica.preparedTransIdsFollower) := by
  have hkeeps := checkWrites_keeps cfg.hash (p := s.replica.pendingWrite)
    (fun h n hn => entry_pos ((hs.reads h).symm.trans hn)) (cfg.tx tid).writes
  unfold Replica.doPrepare
  by_cases hid : tid ∈ s.replica.preparedTransIds
  · rw [if_pos hid]
    exact Or.inl ⟨hs.ids ▸ hid, rfl⟩
  have hlive : tid ∉ s.live := fun h => hid (hs.ids.symm ▸ h)
  rw [if_neg hid]
  cases habort : (cfg.tx tid).abortedInDispatch with
  | true => exact Or.inr (Or.inl rfl)
  | false =>
    cases hreads : checkReads cfg.hash s.replica.pendingWrite (cfg.tx tid).readVers with
    | false => exact Or.inr (Or.inl rfl)
    | true =>
      cases hwrites : checkWrites cfg.hash s.replica.pendingWrite s.replica.pendingRead
          (cfg.tx tid).writes with
      | mk ok m =>
        rw [hwrites] at hkeeps
        cases hkeeps
        cases ok with
        | false => exact Or.inr (Or.inl rfl)
        | true =>
          refine Or.inr (Or.inr ⟨hlive, _, rfl, rfl, rfl, rfl, ?_⟩)
          cases withCmd with
          | true => exact Finset.subset_insert _ _
          | false => exact Finset.Subset.refl _

theorem Settled.add {t : System κ ν η} (hs : Settled cfg s) (hnew : tid ∉ s.live)
    (hlive : t.live = insert tid s.live)
    (hr : t.replica.pendingRead =
      addReads s.replica.pendingRead (hashKeys cfg.hash (cfg.tx tid).readVers))
    (hw : t.replica.pendingWrite =
      addWrites s.replica.pendingWrite (hashKeys cfg.hash (cfg.tx tid).writes))
    (hids : t.replica.preparedTransIds = insert tid s.replica.preparedTransIds)
    (hmarks : t.replica.preparedTransIdsFollower ⊆ insert tid s.replica.preparedTransIdsFollower)
    (hok : t.failed = s.failed) : Settled cfg t where
  reads h := by
    rw [hr, hlive, readers_insert cfg h hnew, lookup_addReads_hashKeys, hs.reads h]
    split
    · exact (entry_succ _).symm
    · rfl
  writes h n := by
    rw [hw, hlive, written_insert, lookup_addWrites_hashKeys]
    cases hlookup : s.replica.pendingWrite.lookup h with
    | some m =>
      obtain ⟨hwritten, rfl⟩ := (hs.writes h m).mp hlookup
      constructor
      · intro heq
        cases heq
        exact ⟨Or.inl hwritten, rfl⟩
      · rintro ⟨-, rfl⟩
        rfl
    | none =>
      have hnot : ¬ Written cfg s.live h := by
        intro hwritten
        have hsome := (hs.writes h 1).mpr ⟨hwritten, rfl⟩
        rw [hlookup] at hsome
        cases hsome
      by_cases hmem : h ∈ (cfg.tx tid).writes.map cfg.hash
      · rw [if_pos hmem]
        constructor
        · intro heq
          cases heq
          exact ⟨Or.inr hmem, rfl⟩
        · rintro ⟨-, rfl⟩
          rfl
      · rw [if_neg hmem]
        constructor
        · intro heq
          cases heq
        · rintro ⟨hor, -⟩
          exact absurd hor (not_or.mpr ⟨hnot, hmem⟩)
  ids := by rw [hids, hlive, hs.ids]
  marks := by
    rw [hlive]
    exact hmarks.trans (Finset.insert_subset_insert tid hs.marks)
  verified := hok.trans hs.verified

theorem Settled.congr {t : System κ ν η} (hs : Settled cfg s) (hlive : t.live = s.live)
    (hreads : ∀ h, t.replica.pendingRead.lookup h = s.replica.pendingRead.lookup h)
    (hwrites : ∀ h, t.replica.pendingWrite.lookup h = s.replica.pendingWrite.lookup h)
    (hids : t.replica.preparedTransIds = s.replica.preparedTransIds)
    (hmarks : t.replica.preparedTransIdsFollower = s.replica.preparedTransIdsFollower)
    (hok : t.failed = s.failed) : Settled cfg t where
  reads h := by
    rw [hreads, hlive]
    exact hs.reads h
  writes h n := by
    rw [hwrites, hlive]
    exact hs.writes h n
  ids := by rw [hids, hlive, hs.ids]
  marks := by
    rw [hmarks, hlive]
    exact hs.marks
  verified := hok.trans hs.verified

theorem Settled.keep {t : System κ ν η} (hs : Settled cfg s) (hlive : t.live = s.live)
    (hr : t.replica = s.replica) (hok : t.failed = s.failed) : Settled cfg t := by
  refine hs.congr hlive (fun h => ?_) (fun h => ?_) ?_ ?_ hok <;> rw [hr]

/-- A transaction without reads that is replicated after its own fast prepare changes nothing. -/
theorem Settled.again {t : System κ ν η} (hs : Settled cfg s) (hold : tid ∈ s.live)
    (hlive : t.live = s.live)
    (hr : t.replica.pendingRead = s.replica.pendingRead)
    (hw : t.replica.pendingWrite =
      addWrites s.replica.pendingWrite (hashKeys cfg.hash (cfg.tx tid).writes))
    (hids : t.replica.preparedTransIds = insert tid s.replica.preparedTransIds)
    (hmarks : t.replica.preparedTransIdsFollower = s.replica.preparedTransIdsFollower)
    (hok : t.failed = s.failed) : Settled cfg t := by
  refine hs.congr hlive (fun h => by rw [hr]) (fun h => ?_) ?_ hmarks hok
  · rw [hw, lookup_addWrites_hashKeys]
    by_cases hmem : h ∈ (cfg.tx tid).writes.map cfg.hash
    · rw [(hs.writes h 1).mpr ⟨⟨tid, hold, hmem⟩, rfl⟩]
      rfl
    · rw [if_neg hmem, Option.or_none]
  · have hlisted : tid ∈ s.replica.preparedTransIds := hs.ids ▸ hold
    rw [hids, Finset.insert_eq_of_mem hlisted]

/-- The full path of `DoCommit`: nothing is missing, and the transaction is counted out. -/
theorem Settled.release [DecidableEq κ] (hs : Settled cfg s) (hold : tid ∈ s.live) {committed : Bool}
    (hpath : committed = false → tid ∉ s.replica.preparedTransIdsFollower) :
    ∃ r, s.replica.doCommit cfg.hash tid (cfg.tx tid) cfg.inTable committed = some r ∧
      (∀ h, r.pendingRead.lookup h = entry (readers cfg (s.live.erase tid) h)) ∧
      (∀ h, r.pendingWrite.lookup h =
        if h ∈ (cfg.tx tid).writes.map cfg.hash then none else s.replica.pendingWrite.lookup h) ∧
      r.preparedTransIds = s.live.erase tid ∧
      r.preparedTransIdsFollower ⊆ s.live.erase tid := by
  obtain ⟨m, hm, hread⟩ := releaseReads_spec cfg.hash [] s.replica.pendingRead
    (cfg.tx tid).readVers (by
      intro c hc _
      have hcount := readers_erase cfg (cfg.hash c) hold
      rw [if_pos (List.mem_map_of_mem hc)] at hcount
      rw [hs.reads, hcount, entry_succ]
      refine ⟨_, rfl, ?_⟩
      exact entry_pos ((entry_succ _)))
  obtain ⟨m', hm', hwrite⟩ := releaseWrites_spec cfg.hash cfg.inTable [] s.replica.pendingWrite
    (cfg.tx tid).writes (by
      intro c hc _
      exact (hs.writes _ 1).mpr ⟨⟨tid, hold, List.mem_map_of_mem hc⟩, rfl⟩)
  have hfull : ¬ (committed = false ∧ tid ∈ s.replica.preparedTransIdsFollower) :=
    fun h => hpath h.1 h.2
  refine ⟨{
    column :=
      if committed then mergeWrites s.replica.column (cfg.tx tid).writeBufs else s.replica.column
    pendingWrite := m'
    pendingRead := m
    preparedTransIds := s.replica.preparedTransIds.erase tid
    preparedTransIdsFollower :=
      if committed then s.replica.preparedTransIdsFollower.erase tid
      else s.replica.preparedTransIdsFollower }, ?_, fun h => ?_, fun h => ?_, ?_, ?_⟩
  · have hid : ¬ tid ∉ s.replica.preparedTransIds := by
      rw [hs.ids]
      exact not_not.mpr hold
    unfold Replica.doCommit
    rw [if_neg hid, if_neg hfull, hm, hm']
    rfl
  · have hcount := readers_erase cfg h hold
    rw [hread h, hs.reads h, hcount]
    by_cases hmem : h ∈ (cfg.tx tid).readVers.map cfg.hash
    · rw [if_pos ⟨hmem, List.not_mem_nil⟩, if_pos hmem, lower_entry]
    · rw [if_neg fun hc => hmem hc.1, if_neg hmem, Nat.add_zero]
  · rw [hwrite h]
    simp only [List.not_mem_nil, not_false_eq_true, and_true]
  · rw [hs.ids]
  · dsimp only
    cases committed with
    | true => exact Finset.erase_subset_erase tid hs.marks
    | false =>
      intro u hu
      refine Finset.mem_erase.mpr ⟨?_, hs.marks hu⟩
      rintro rfl
      exact hpath rfl hu

variable [DecidableEq κ]

/-- What the maps have to hold after a step, and how the step has to go. -/
structure Sound (cfg : Setting κ ν η) (s : System κ ν η) (e : Event) (t : System κ ν η) : Prop where
  reads : ∀ c, (t.replica.pendingRead.lookup (cfg.hash c)).getD 0 =
    (t.live.filter fun u => c ∈ (cfg.tx u).readVers).card
  writes : ∀ h, (t.replica.pendingWrite.lookup h).isSome = true ↔
    ∃ u ∈ t.live, ∃ c ∈ (cfg.tx u).writes, cfg.hash c = h
  rejected : ∀ tid withCmd, e = .doPrepare tid withCmd →
    (s.replica.doPrepare cfg.hash tid (cfg.tx tid) withCmd).1 = false →
      t.replica.pendingRead = s.replica.pendingRead ∧
        t.replica.pendingWrite = s.replica.pendingWrite
  verified : t.failed = false
  drained : t.live = ∅ → t.replica.pendingRead = ∅ ∧ t.replica.pendingWrite = ∅ ∧
    t.replica.preparedTransIds = ∅

/-- The leader's prepare of a transaction that reads comes to a replica where it is not prepared, a
fast prepare is not aborted, and what a decided transaction writes no other prepared one writes. -/
def Careful (cfg : Setting κ ν η) (s : System κ ν η) : Event → Prop
  | .doPrepare _ _ => True
  | .doPrepareResult tid => tid ∈ s.live → (cfg.tx tid).readVers = []
  | .doCommit tid committed =>
    tid ∈ s.live → (committed = false → tid ∉ s.replica.preparedTransIdsFollower) ∧
      ∀ u ∈ s.live, u ≠ tid → ∀ c ∈ (cfg.tx tid).writes, c ∉ (cfg.tx u).writes

instance (cfg : Setting κ ν η) (s : System κ ν η) : (e : Event) → Decidable (Careful cfg s e)
  | .doPrepare _ _ => inferInstanceAs (Decidable True)
  | .doPrepareResult tid => inferInstanceAs (Decidable (tid ∈ s.live → (cfg.tx tid).readVers = []))
  | .doCommit tid committed => inferInstanceAs (Decidable (tid ∈ s.live →
      (committed = false → tid ∉ s.replica.preparedTransIdsFollower) ∧
        ∀ u ∈ s.live, u ≠ tid → ∀ c ∈ (cfg.tx tid).writes, c ∉ (cfg.tx u).writes))

theorem eq_empty_of_lookup {m : RowMap η} (h : ∀ k, m.lookup k = none) : m = ∅ := by
  apply AList.ext
  refine List.eq_nil_iff_forall_not_mem.mpr fun x hx => ?_
  have hsome := List.mem_dlookup m.nodupKeys hx
  have hnone : m.entries.dlookup x.1 = none := h x.1
  rw [hnone] at hsome
  cases hsome

omit [DecidableEq κ] in
theorem Settled.drained (hs : Settled cfg s) (hempty : s.live = ∅) :
    s.replica.pendingRead = ∅ ∧ s.replica.pendingWrite = ∅ ∧ s.replica.preparedTransIds = ∅ := by
  refine ⟨eq_empty_of_lookup fun h => ?_, eq_empty_of_lookup fun h => ?_, ?_⟩
  · rw [hs.reads h, hempty]
    rfl
  · cases hlookup : s.replica.pendingWrite.lookup h with
    | none => rfl
    | some n =>
      obtain ⟨⟨u, hu, -⟩, -⟩ := (hs.writes h n).mp hlookup
      rw [hempty] at hu
      cases hu
  · rw [hs.ids, hempty]

theorem Settled.count_reads (hs : Settled cfg s) (hinj : Function.Injective cfg.hash) (c : κ) :
    (s.replica.pendingRead.lookup (cfg.hash c)).getD 0 =
      (s.live.filter fun u => c ∈ (cfg.tx u).readVers).card := by
  have hreaders : readers cfg s.live (cfg.hash c) =
      (s.live.filter fun u => c ∈ (cfg.tx u).readVers).card := by
    unfold readers
    simp only [List.mem_map_of_injective hinj]
  rw [hs.reads, ← hreaders]
  unfold entry
  split
  · next hzero => rw [hzero]; rfl
  · rfl

omit [DecidableEq κ] in
theorem Settled.has_writes (hs : Settled cfg s) (h : η) :
    (s.replica.pendingWrite.lookup h).isSome = true ↔
      ∃ u ∈ s.live, ∃ c ∈ (cfg.tx u).writes, cfg.hash c = h := by
  have hwritten : Written cfg s.live h ↔ ∃ u ∈ s.live, ∃ c ∈ (cfg.tx u).writes, cfg.hash c = h := by
    simp only [Written, List.mem_map]
  rw [← hwritten]
  constructor
  · intro hsome
    obtain ⟨n, hn⟩ := Option.isSome_iff_exists.mp hsome
    exact ((hs.writes h n).mp hn).1
  · intro hw
    rw [(hs.writes h 1).mpr ⟨hw, rfl⟩]
    rfl

theorem Settled.sound (hs : Settled cfg s) (ht : Settled cfg t) (hinj : Function.Injective cfg.hash)
    {e : Event} (h : step cfg s e = some t) : Sound cfg s e t where
  reads := ht.count_reads hinj
  writes := ht.has_writes
  rejected tid withCmd he hfalse := by
    subst he
    have hsame : (s.replica.doPrepare cfg.hash tid (cfg.tx tid) withCmd).2 = s.replica := by
      obtain ⟨-, heq⟩ | heq | ⟨-, r, heq, -⟩ := hs.doPrepare_cases tid withCmd
      · rw [heq]
      · rw [heq]
      · rw [heq] at hfalse
        cases hfalse
    simp only [step] at h
    split at h
    · cases h
    · cases h
      dsimp only
      rw [hsame]
      exact ⟨rfl, rfl⟩
  verified := ht.verified
  drained := ht.drained

theorem Settled.prepare (hs : Settled cfg s) {withCmd : Bool}
    (h : step cfg s (.doPrepare tid withCmd) = some t) : Settled cfg t := by
  simp only [step] at h
  split at h
  · cases h
  next hnew =>
  cases h
  obtain ⟨hlive, heq⟩ | heq | ⟨hlive, r, heq, hr, hw, hids, hmarks⟩ := hs.doPrepare_cases tid withCmd
  · refine hs.keep ?_ ?_ rfl
    · simp only [live, heq, if_true]
      rw [Finset.insert_eq_of_mem (mem_live hlive).1]
    · rw [heq]
  · refine hs.keep ?_ ?_ rfl
    · simp only [live, heq, Bool.false_eq_true, if_false]
    · rw [heq]
  · simp only [heq, if_true]
    exact hs.add hlive (live_prepare hnew) hr hw hids hmarks rfl

theorem Settled.prepareResult (hs : Settled cfg s)
    (h : step cfg s (.doPrepareResult tid) = some t) (hcareful : Careful cfg s (.doPrepareResult tid)) :
    Settled cfg t := by
  simp only [step] at h
  split at h
  · cases h
  next hnew =>
  cases h
  by_cases hlive : tid ∈ s.live
  · refine hs.again hlive ?_ ?_ rfl rfl rfl rfl
    · simp only [live]
      rw [Finset.insert_eq_of_mem (mem_live hlive).1]
    · simp only [Replica.doPrepareResult, Replica.prepareCmd, hcareful hlive]
      rfl
  · exact hs.add hlive (live_prepare fun hd => hnew (Or.inl hd)) rfl rfl rfl
      (Finset.subset_insert _ _) rfl

theorem Settled.decideUnprepared (hs : Settled cfg s) {committed : Bool}
    (h : step cfg s (.doCommit tid committed) = some t) (hlive : tid ∉ s.live) : Settled cfg t := by
  simp only [step] at h
  split at h
  · cases h
  next hnew =>
  obtain ⟨hund, hprep⟩ := not_or.mp hnew
  have hnot : tid ∉ s.prepared := fun hp => hlive (Finset.mem_sdiff.mpr ⟨hp, hund⟩)
  have habort : committed = false := by
    cases committed with
    | false => rfl
    | true => exact absurd ⟨rfl, hnot⟩ hprep
  subst habort
  have hid : tid ∉ s.replica.preparedTransIds := by
    rw [hs.ids]
    exact hlive
  have hnothing : s.replica.doCommit cfg.hash tid (cfg.tx tid) cfg.inTable false =
      some s.replica := by
    unfold Replica.doCommit
    rw [if_pos hid]
    rfl
  rw [hnothing] at h
  cases h
  refine hs.keep ?_ rfl rfl
  exact (live_decide s tid).trans (Finset.erase_eq_of_notMem hlive)

theorem Settled.decide (hs : Settled cfg s) (hinj : Function.Injective cfg.hash) {committed : Bool}
    (h : step cfg s (.doCommit tid committed) = some t) (hlive : tid ∈ s.live)
    (hcareful : Careful cfg s (.doCommit tid committed)) : Settled cfg t := by
  obtain ⟨hpath, halone⟩ := hcareful hlive
  obtain ⟨r, hr, hread, hwrite, hids, hmarks⟩ := hs.release hlive hpath
  simp only [step] at h
  split at h
  · cases h
  rw [hr] at h
  cases h
  have hafter : ({ s with replica := r, decided := insert tid s.decided } : System κ ν η).live =
      s.live.erase tid := live_decide s tid
  refine ⟨fun h => ?_, fun h n => ?_, hids.trans hafter.symm, ?_, hs.verified⟩
  · rw [hafter]
    exact hread h
  · rw [hafter, hwrite h]
    split
    · next hmem =>
      refine ⟨fun hc => (by cases hc), ?_⟩
      rintro ⟨⟨u, hu, hw⟩, -⟩
      obtain ⟨c, hc, rfl⟩ := List.mem_map.mp hmem
      obtain ⟨hne, hu⟩ := Finset.mem_erase.mp hu
      exact absurd ((List.mem_map_of_injective hinj).mp hw) (halone u hu hne c hc)
    · next hmem =>
      rw [hs.writes h n]
      refine and_congr_left fun _ => ⟨?_, ?_⟩
      · rintro ⟨u, hu, hw⟩
        refine ⟨u, Finset.mem_erase.mpr ⟨?_, hu⟩, hw⟩
        rintro rfl
        exact hmem hw
      · rintro ⟨u, hu, hw⟩
        exact ⟨u, (Finset.mem_erase.mp hu).2, hw⟩
  · rw [hafter]
    exact hmarks

theorem Settled.step (hs : Settled cfg s) (hinj : Function.Injective cfg.hash) {e : Event}
    (h : Carousel.step cfg s e = some t) (hcareful : Careful cfg s e) : Settled cfg t := by
  cases e with
  | doPrepare tid withCmd => exact hs.prepare h
  | doPrepareResult tid => exact hs.prepareResult h hcareful
  | doCommit tid committed =>
    by_cases hlive : tid ∈ s.live
    · exact hs.decide hinj h hlive hcareful
    · exact hs.decideUnprepared h hlive

/-- A decided transaction that is still listed as prepared. No later step takes it away. -/
def Stuck (s : System κ ν η) (tid : TxId) : Prop :=
  tid ∈ s.replica.preparedTransIds ∧ tid ∈ s.decided

omit [DecidableEq κ] in
theorem preparedTransIds_doPrepare (r : Replica κ ν η) (hash : κ → η) (tid : TxId)
    (tx : TxCarousel κ ν) (withCmd : Bool) :
    r.preparedTransIds ⊆ (r.doPrepare hash tid tx withCmd).2.preparedTransIds := by
  unfold Replica.doPrepare
  by_cases hid : tid ∈ r.preparedTransIds
  · rw [if_pos hid]
  rw [if_neg hid]
  cases tx.abortedInDispatch with
  | true => exact Finset.Subset.refl _
  | false =>
    cases checkReads hash r.pendingWrite tx.readVers with
    | false => exact Finset.Subset.refl _
    | true =>
      cases checkWrites hash r.pendingWrite r.pendingRead tx.writes with
      | mk ok m =>
        cases ok with
        | false => exact Finset.Subset.refl _
        | true => exact Finset.subset_insert _ _

theorem preparedTransIds_doCommit {r r' : Replica κ ν η} {hash : κ → η} {tx : TxCarousel κ ν}
    {inTable : κ → Bool} {committed : Bool}
    (h : r.doCommit hash tid tx inTable committed = some r') :
    r.preparedTransIds.erase tid ⊆ r'.preparedTransIds := by
  unfold Replica.doCommit at h
  split at h
  · split at h
    · cases h
    · cases h
      exact Finset.erase_subset tid _
  · split at h
    · cases h
      exact Finset.erase_subset tid _
    · obtain ⟨m, -, h⟩ := Option.bind_eq_some_iff.mp h
      obtain ⟨m', -, h⟩ := Option.bind_eq_some_iff.mp h
      cases h
      exact Finset.Subset.refl _

theorem Stuck.step {e : Event} (hs : s.Stuck tid) (h : Carousel.step cfg s e = some t) :
    t.Stuck tid := by
  obtain ⟨hid, hdec⟩ := hs
  cases e with
  | doPrepare u withCmd =>
    simp only [Carousel.step] at h
    split at h
    · cases h
    · cases h
      exact ⟨preparedTransIds_doPrepare _ _ _ _ _ hid, hdec⟩
  | doPrepareResult u =>
    simp only [Carousel.step] at h
    split at h
    · cases h
    · cases h
      exact ⟨Finset.mem_insert_of_mem hid, hdec⟩
  | doCommit u committed =>
    simp only [Carousel.step] at h
    split at h
    · cases h
    next hnew =>
    have hne : tid ≠ u := by
      rintro rfl
      exact hnew (Or.inl hdec)
    cases hcommit : s.replica.doCommit cfg.hash u (cfg.tx u) cfg.inTable committed with
    | none =>
      rw [hcommit] at h
      cases h
      exact ⟨hid, hdec⟩
    | some r =>
      rw [hcommit] at h
      cases h
      exact ⟨preparedTransIds_doCommit hcommit (Finset.mem_erase.mpr ⟨hne, hid⟩),
        Finset.mem_insert_of_mem hdec⟩

theorem Settled.twice (hs : Settled cfg s) (hinj : Function.Injective cfg.hash)
    (h : Carousel.step cfg s (.doPrepareResult tid) = some t)
    (hsound : Sound cfg s (.doPrepareResult tid) t) (hlive : tid ∈ s.live) :
    (cfg.tx tid).readVers = [] := by
  refine List.eq_nil_iff_forall_not_mem.mpr fun c hc => ?_
  simp only [Carousel.step] at h
  split at h
  · cases h
  cases h
  have hcount := hsound.reads c
  have hbefore := hs.count_reads hinj c
  have hsame : insert tid s.prepared = s.prepared := Finset.insert_eq_of_mem (mem_live hlive).1
  have hmem : cfg.hash c ∈ (cfg.tx tid).readVers.map cfg.hash := List.mem_map_of_mem hc
  have hreaders := readers_erase cfg (cfg.hash c) hlive
  rw [if_pos hmem] at hreaders
  simp only [live, Replica.doPrepareResult, Replica.prepareCmd, hsame] at hcount
  rw [lookup_addReads_hashKeys, if_pos hmem, hs.reads, hreaders, entry_succ] at hcount
  rw [hs.reads, hreaders, entry_succ] at hbefore
  simp only [Option.map_some, Option.getD_some] at hcount hbefore
  have hlivedef : s.prepared \ s.decided = s.live := rfl
  rw [hlivedef] at hcount
  omega

/-- A decision takes the entry away from every other transaction that writes the column. -/
theorem Settled.shared (hs : Settled cfg s) {committed : Bool}
    (h : Carousel.step cfg s (.doCommit tid committed) = some t)
    (hsound : Sound cfg s (.doCommit tid committed) t) (hlive : tid ∈ s.live)
    (hpath : committed = false → tid ∉ s.replica.preparedTransIdsFollower) {u : TxId}
    (hu : u ∈ s.live) (hne : u ≠ tid) {c : κ} (hc : c ∈ (cfg.tx tid).writes) :
    c ∉ (cfg.tx u).writes := by
  intro hcu
  obtain ⟨r, hr, -, hwrite, -⟩ := hs.release hlive hpath
  simp only [Carousel.step] at h
  split at h
  · cases h
  rw [hr] at h
  cases h
  have hmem : u ∈ s.live.erase tid := Finset.mem_erase.mpr ⟨hne, hu⟩
  rw [← live_decide] at hmem
  have hsome := (hsound.writes (cfg.hash c)).mpr ⟨u, hmem, c, hcu, rfl⟩
  rw [hwrite, if_pos (List.mem_map_of_mem hc)] at hsome
  cases hsome

/-- The abort of a fast prepare leaves the transaction listed. -/
theorem Settled.stuck (hs : Settled cfg s)
    (h : Carousel.step cfg s (.doCommit tid false) = some t) (hlive : tid ∈ s.live)
    (hmark : tid ∈ s.replica.preparedTransIdsFollower) : t.Stuck tid := by
  have hid : ¬ tid ∉ s.replica.preparedTransIds := by
    rw [hs.ids]
    exact not_not.mpr hlive
  have hearly : s.replica.doCommit cfg.hash tid (cfg.tx tid) cfg.inTable false =
      some { s.replica with
        preparedTransIdsFollower := s.replica.preparedTransIdsFollower.erase tid } := by
    unfold Replica.doCommit
    rw [if_neg hid, if_pos ⟨rfl, hmark⟩]
  simp only [Carousel.step] at h
  split at h
  · cases h
  rw [hearly] at h
  cases h
  exact ⟨not_not.mp hid, Finset.mem_insert_self _ _⟩

/-- A step that goes well is careful, or leaves a transaction listed for ever. -/
theorem Settled.careful_or_stuck (hs : Settled cfg s) (hinj : Function.Injective cfg.hash) {e : Event}
    (h : Carousel.step cfg s e = some t) (hsound : Sound cfg s e t) :
    Careful cfg s e ∨ ∃ tid, t.Stuck tid := by
  cases e with
  | doPrepare tid withCmd => exact Or.inl trivial
  | doPrepareResult tid => exact Or.inl fun hlive => hs.twice hinj h hsound hlive
  | doCommit tid committed =>
    by_cases hmarked : tid ∈ s.live ∧ committed = false ∧ tid ∈ s.replica.preparedTransIdsFollower
    · obtain ⟨hlive, rfl, hmark⟩ := hmarked
      exact Or.inr ⟨tid, hs.stuck h hlive hmark⟩
    · refine Or.inl fun hlive => ?_
      have hpath : committed = false → tid ∉ s.replica.preparedTransIdsFollower :=
        fun hc hmark => hmarked ⟨hlive, hc, hmark⟩
      exact ⟨hpath, fun u hu hne c hc => hs.shared h hsound hlive hpath hu hne hc⟩

theorem not_stuck_of_sound {es : List Event} {u : System κ ν η}
    (hdrained : s.live = ∅ → s.replica.preparedTransIds = ∅)
    (hsound : EveryStep (Carousel.step cfg) (Sound cfg) s es)
    (hrun : es.foldlM (Carousel.step cfg) s = some u) (hu : u.live = ∅) : ¬ s.Stuck tid := by
  induction es generalizing s with
  | nil =>
    intro hstuck
    cases hrun
    have hid := hstuck.1
    rw [hdrained hu] at hid
    cases hid
  | cons e es ih =>
    intro hstuck
    obtain ⟨t, ht, hrest⟩ := Option.bind_eq_some_iff.mp hrun
    obtain ⟨hstep, hsteps⟩ := hsound t ht
    exact ih (fun hlive => (hstep.drained hlive).2.2) hsteps hrest (hstuck.step ht)

theorem careful_of_sound (hinj : Function.Injective cfg.hash) {es : List Event} {u : System κ ν η}
    (hs : Settled cfg s) (hsound : EveryStep (Carousel.step cfg) (Sound cfg) s es)
    (hrun : es.foldlM (Carousel.step cfg) s = some u) (hu : u.live = ∅) :
    EveryStep (Carousel.step cfg) (fun s e _ => Careful cfg s e) s es := by
  induction es generalizing s with
  | nil => exact trivial
  | cons e es ih =>
    intro t ht
    obtain ⟨t', ht', hrest⟩ := Option.bind_eq_some_iff.mp hrun
    obtain rfl : t = t' := Option.some.inj (ht.symm.trans ht')
    obtain ⟨hstep, hsteps⟩ := hsound t ht
    obtain hcareful | ⟨tid, hstuck⟩ := hs.careful_or_stuck hinj ht hstep
    · exact ⟨hcareful, ih (hs.step hinj ht hcareful) hsteps hrest⟩
    · exact absurd hstuck
        (not_stuck_of_sound (fun hlive => (hstep.drained hlive).2.2) hsteps hrest hu)

theorem sound_of_careful (hinj : Function.Injective cfg.hash) {es : List Event}
    (hs : Settled cfg s)
    (hcareful : EveryStep (Carousel.step cfg) (fun s e _ => Careful cfg s e) s es) :
    EveryStep (Carousel.step cfg) (Sound cfg) s es := by
  induction es generalizing s with
  | nil => exact trivial
  | cons e es ih =>
    intro t ht
    obtain ⟨hstep, hsteps⟩ := hcareful t ht
    have hsettled := hs.step hinj ht hstep
    exact ⟨hs.sound hsettled hinj ht, ih hsettled hsteps⟩

def start (column : κ → Versioned ν) : System κ ν η where
  replica := { column }

omit [DecidableEq κ] in
theorem settled_start (column : κ → Versioned ν) : Settled cfg (start column) where
  reads _ := rfl
  writes h n := by
    constructor
    · intro hn
      cases hn
    · rintro ⟨⟨u, hu, -⟩, -⟩
      cases hu
  ids := rfl
  marks := Finset.Subset.refl _
  verified := rfl

end System

/-- In every run of careful steps the maps balance at each of them; and a run in which they balance
at each step, and at whose end no prepared transaction is undecided, has only careful steps. -/
theorem pending_exact [DecidableEq κ] (cfg : Setting κ ν η) (hinj : Function.Injective cfg.hash)
    (column : κ → Versioned ν) (es : List Event) :
    (EveryStep (step cfg) (fun s e _ => System.Careful cfg s e) (System.start column) es →
      EveryStep (step cfg) (System.Sound cfg) (System.start column) es) ∧
    (∀ u, es.foldlM (step cfg) (System.start column) = some u → u.live = ∅ →
      EveryStep (step cfg) (System.Sound cfg) (System.start column) es →
        EveryStep (step cfg) (fun s e _ => System.Careful cfg s e) (System.start column) es) :=
  ⟨System.sound_of_careful hinj (System.settled_start column),
    fun _ hrun hu hsound => System.careful_of_sound hinj (System.settled_start column) hsound hrun hu⟩

/-- Every transaction but the third one reads column 0, and each writes a column of its own. -/
def ownColumns : Setting Nat Nat Nat where
  tx tid := { readVers := if tid = 3 then [] else [0], writeBufs := [(tid, { value := 5 })] }
  hash := id
  inTable _ := true

/-- Transaction 1 is prepared at the leader, transaction 2 at a follower, and the leader's prepare of
transaction 3 comes. All of them are committed. -/
def threeCommits : List Event :=
  [.doPrepare 1 true, .doPrepare 2 false, .doPrepareResult 3, .doCommit 2 true, .doCommit 1 true,
    .doCommit 3 true]

theorem pending_exact_three :
    EveryStep (step ownColumns) (System.Sound ownColumns) (System.start fun _ => ⟨0, 0⟩)
      threeCommits ∧
    EveryStep (step ownColumns) (fun s e _ => System.Careful ownColumns s e)
      (System.start fun _ => ⟨0, 0⟩) threeCommits := by
  obtain ⟨hsound, hcareful⟩ :=
    pending_exact ownColumns Function.injective_id (fun _ => ⟨0, 0⟩) threeCommits
  have hbalanced := hsound (by decide +kernel)
  exact ⟨hbalanced, hcareful _ rfl (by decide +kernel) hbalanced⟩

/-- Every transaction reads column 0 and writes column 1. -/
def oneReadOneWrite : Setting Nat Nat Nat where
  tx _ := { readVers := [0], writeBufs := [(1, { value := 5 })] }
  hash := id
  inTable _ := true

/-- The leader's prepare comes after the follower's own and counts the read again; the abort of a
fast prepare leaves its entries; and of two transactions that write one column the first to be
decided takes the entry of the other, whose commit then fails a `verify`. -/
theorem pending_drifts :
    (∃ s t, [Event.doPrepare 1 false].foldlM (step oneReadOneWrite)
        (System.start fun _ => ⟨0, 0⟩) = some s ∧
      step oneReadOneWrite s (.doPrepareResult 1) = some t ∧ t.live = {1} ∧
      t.replica.pendingRead.lookup 0 = some 2 ∧
      ¬ System.Sound oneReadOneWrite s (.doPrepareResult 1) t) ∧
    (∃ s t, [Event.doPrepare 1 false].foldlM (step oneReadOneWrite)
        (System.start fun _ => ⟨0, 0⟩) = some s ∧
      step oneReadOneWrite s (.doCommit 1 false) = some t ∧ t.live = ∅ ∧
      t.replica.pendingRead.lookup 0 = some 1 ∧ t.replica.pendingWrite.lookup 1 = some 1 ∧
      t.replica.preparedTransIds = {1} ∧
      ¬ System.Sound oneReadOneWrite s (.doCommit 1 false) t) ∧
    (∃ s t u, [Event.doPrepare 1 false, .doPrepareResult 2].foldlM (step oneReadOneWrite)
        (System.start fun _ => ⟨0, 0⟩) = some s ∧
      step oneReadOneWrite s (.doCommit 1 true) = some t ∧ t.live = {2} ∧
      t.replica.pendingWrite.lookup 1 = none ∧
      ¬ System.Sound oneReadOneWrite s (.doCommit 1 true) t ∧
      step oneReadOneWrite t (.doCommit 2 true) = some u ∧ u.failed = true) := by
  refine ⟨⟨_, _, rfl, rfl, rfl, rfl, fun h => ?_⟩, ⟨_, _, rfl, rfl, rfl, rfl, rfl, rfl, fun h => ?_⟩,
    ⟨_, _, _, rfl, rfl, rfl, rfl, fun h => ?_, rfl, rfl⟩⟩
  · exact absurd (h.reads 0) (by decide)
  · exact absurd (h.reads 0) (by decide)
  · have hsome := (h.writes 1).mpr ⟨2, by decide, 1, by decide, rfl⟩
    revert hsome
    decide

end Jetpack.Carousel
