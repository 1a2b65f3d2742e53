import Jetpack.Lock.WaitDie
import Jetpack.Lock.Wound

/-! The accesses of one transaction to the locks of its columns, while it runs alone: every request in
a queue is its own. `none` is a `verify` that does not hold or a call that does not return. -/

namespace Jetpack.Lock

inductive FineLock
  | waitDie (lock : WaitDieALock)
  | woundDie (lock : WoundDieALock)

namespace FineLock

def toALock : FineLock → ALock
  | waitDie lock => lock.toALock
  | woundDie lock => lock

/-- `vlock` of a writer. The wound-wait loop of a writer needs one round for each request. -/
def vlock (lock : FineLock) (priority : Int) (refuses : Nat → Bool) : Option FineLock :=
  match lock with
  | waitDie lock => (lock.vlock .wlock priority).map waitDie
  | woundDie lock =>
    (WoundDieALock.vlock lock.requests.length lock .wlock priority refuses).join.map woundDie

end FineLock

/-- The value that the callbacks of a request give to the event it waits for. -/
def answerOf (id : Nat) : List Call → Option Nat
  | [] => none
  | .yes i :: calls => if i = id then some id else answerOf id calls
  | .no i :: calls => if i = id then some 0 else answerOf id calls
  | .wound _ _ :: calls => answerOf id calls

def wounds : Call → Bool
  | .wound _ succeeded => succeeded
  | _ => false

structure Tx2pl (κ : Type) where
  tid : Int
  aborted : Bool := false
  committed : Bool := false
  inuse : Bool := false
  woundable : Bool := true
  wounded : Bool := false
  nLockRequested : Nat := 0
  nLockGranted : Nat := 0
  lockedLocks : List (κ × Nat) := []

/-- The locks of the columns and the transaction. A column is named by its row and its number. -/
structure Server (κ : Type) where
  locks : κ → FineLock
  tx : Tx2pl κ

variable {κ : Type} [DecidableEq κ]

namespace Server

variable (s : Server κ)

def lock (column : κ) : Option (Server κ × Nat) := do
  let before := (s.locks column).toALock
  let lock ← (s.locks column).vlock s.tx.tid fun _ => !s.tx.woundable
  let calls := lock.toALock.calls.drop before.calls.length
  let lockReqId ← answerOf before.nextId calls
  return ({ s with
    locks := Function.update s.locks column lock
    tx := { s.tx with wounded := s.tx.wounded || calls.any wounds } }, lockReqId)

def guard (column : κ) : Option (Server κ × Bool) :=
  if s.tx.aborted ∨ s.tx.committed then none
  else if s.tx.wounded then some (s, false)
  else do
    let (t, lockReqId) ←
      lock { s with tx := { s.tx with nLockRequested := s.tx.nLockRequested + 1 } } column
    if 0 < lockReqId then
      return ({ t with tx := { t.tx with
        nLockGranted := t.tx.nLockGranted + 1
        lockedLocks := t.tx.lockedLocks ++ [(column, lockReqId)] } }, true)
    else return (t, false)

def guards (s : Server κ) : List κ → Option (Server κ × List Bool)
  | [] => some (s, [])
  | column :: columns => do
    let (t, granted) ← s.guard column
    let (u, results) ← guards t columns
    return (u, granted :: results)

def doPrepare : Option (Server κ × Bool) :=
  if s.tx.inuse then none
  else if s.tx.nLockGranted ≠ s.tx.nLockRequested then none
  else if s.tx.wounded then some ({ s with tx := { s.tx with inuse := true } }, false)
  else some ({ s with tx := { s.tx with woundable := false } }, true)

def Unrefused (columns : List κ) : Prop :=
  ∃ t results u, s.guards columns = some (t, results) ∧ (∀ granted ∈ results, granted = true) ∧
    t.tx.wounded = false ∧ t.doPrepare = some (u, true)

end Server

def Unused (l : ALock) : Prop :=
  l.requests = [] ∧ l.status = .free ∧ l.nRlock = 0 ∧ 0 < l.nextId

def Held (tid : Int) (l : ALock) : Prop :=
  ∃ id, l.requests = [⟨id, tid, .wlock, .lock⟩] ∧ l.status = .wlocked ∧ l.nRlock = 0 ∧ id < l.nextId

namespace FineLock

theorem vlock_unused {lock : FineLock} {tid : Int} {refuses : Nat → Bool}
    (h : Unused lock.toALock) :
    ∃ t, lock.vlock tid refuses = some t ∧ Held tid t.toALock ∧
      t.toALock.calls = lock.toALock.calls ++ [.yes lock.toALock.nextId] := by
  obtain ⟨hrequests, hstatus, hn, hpos⟩ := h
  cases lock with
  | waitDie lock =>
    obtain ⟨⟨nextId, status, n, requests, calls⟩, r, w⟩ := lock
    obtain rfl : requests = [] := hrequests
    obtain rfl : status = .free := hstatus
    obtain rfl : n = 0 := hn
    exact ⟨_, rfl, ⟨nextId, rfl, rfl, rfl, Nat.lt_succ_self nextId⟩, rfl⟩
  | woundDie lock =>
    obtain ⟨nextId, status, n, requests, calls⟩ := lock
    obtain rfl : requests = [] := hrequests
    obtain rfl : status = .free := hstatus
    obtain rfl : n = 0 := hn
    exact ⟨_, rfl, ⟨nextId, rfl, rfl, rfl, Nat.lt_succ_self nextId⟩, rfl⟩

/-- The transaction's second request is refused, or wounds the first one. -/
theorem vlock_held {lock : FineLock} {tid : Int} (h : Held tid lock.toALock) :
    ∃ t, lock.vlock tid (fun _ => false) = some t ∧
      (t.toALock.calls = lock.toALock.calls ++ [.no lock.toALock.nextId] ∨
        ∃ id, t.toALock.calls = lock.toALock.calls ++
          [.wound id true, .yes lock.toALock.nextId]) := by
  obtain ⟨id, hrequests, hstatus, hn, -⟩ := h
  cases lock with
  | waitDie lock =>
    obtain ⟨⟨nextId, status, n, requests, calls⟩, r, w⟩ := lock
    obtain rfl : requests = [⟨id, tid, .wlock, .lock⟩] := hrequests
    obtain rfl : status = .wlocked := hstatus
    have hdies : waitDieWriter tid [⟨id, tid, .wlock, .lock⟩] = .die := by simp [waitDieWriter]
    have hvlock : vlock (.waitDie ⟨⟨nextId, .wlocked, n, [⟨id, tid, .wlock, .lock⟩], calls⟩, r, w⟩)
        tid (fun _ => false) = some (.waitDie
          ⟨⟨nextId + 1, .wlocked, n, [⟨id, tid, .wlock, .lock⟩], calls ++ [.no nextId]⟩, r, w⟩) := by
      simp [vlock, WaitDieALock.vlock, WaitDieALock.waitDie, WaitDieALock.base, hdies]
    exact ⟨_, hvlock, .inl rfl⟩
  | woundDie lock =>
    obtain ⟨nextId, status, n, requests, calls⟩ := lock
    obtain rfl : requests = [⟨id, tid, .wlock, .lock⟩] := hrequests
    obtain rfl : status = .wlocked := hstatus
    obtain rfl : n = 0 := hn
    have hvlock : vlock (.woundDie ⟨nextId, .wlocked, 0, [⟨id, tid, .wlock, .lock⟩], calls⟩) tid
        (fun _ => false) = some (.woundDie ⟨nextId + 1, .wlocked, 0, [⟨nextId, tid, .wlock, .lock⟩],
          calls ++ [.wound id true] ++ [.yes nextId]⟩) := by
      simp [vlock, WoundDieALock.vlock, WoundDieALock.woundDie, WoundDieALock.wound,
        WoundDieALock.pass, ALock.writeAcquire, LockReq.grant]
    exact ⟨_, hvlock, .inr ⟨id, by simp [toALock]⟩⟩

end FineLock

namespace Server

/-- The transaction has the locks of the columns, and nobody has another one. -/
structure Alone (s : Server κ) (columns : List κ) : Prop where
  unused : ∀ c, c ∉ columns → Unused (s.locks c).toALock
  held : ∀ c ∈ columns, Held s.tx.tid (s.locks c).toALock
  active : s.tx.aborted = false ∧ s.tx.committed = false ∧ s.tx.inuse = false
  woundable : s.tx.woundable = true ∧ s.tx.wounded = false
  granted : s.tx.nLockGranted = s.tx.nLockRequested

theorem guard_eq {s : Server κ} {columns : List κ} (h : s.Alone columns) (c : κ) {l : FineLock}
    {calls : List Call} {lockReqId : Nat} (hl : (s.locks c).vlock s.tx.tid (fun _ => false) = some l)
    (hcalls : l.toALock.calls = (s.locks c).toALock.calls ++ calls)
    (hanswer : answerOf (s.locks c).toALock.nextId calls = some lockReqId) :
    s.guard c = some ({
      locks := Function.update s.locks c l
      tx := { s.tx with
        nLockRequested := s.tx.nLockRequested + 1
        wounded := calls.any wounds
        nLockGranted := s.tx.nLockGranted + if 0 < lockReqId then 1 else 0
        lockedLocks := s.tx.lockedLocks ++ if 0 < lockReqId then [(c, lockReqId)] else [] } },
      decide (0 < lockReqId)) := by
  have hactive : ¬ (s.tx.aborted = true ∨ s.tx.committed = true) := by
    simp [h.active.1, h.active.2.1]
  have hwounded : ¬ s.tx.wounded = true := by simp [h.woundable.2]
  have hnew : l.toALock.calls.drop (s.locks c).toALock.calls.length = calls := by
    rw [hcalls, List.drop_left]
  unfold guard lock
  rw [if_neg hactive, if_neg hwounded]
  dsimp only
  have hrefuses : (fun _ : Nat => !s.tx.woundable) = fun _ => false := by
    rw [h.woundable.1]
    rfl
  rw [hrefuses, hl]
  simp only [Option.bind_eq_bind, Option.bind_some, hnew, hanswer, h.woundable.2, Option.pure_def,
    Bool.false_or]
  split_ifs with hpos <;> simp [hpos]

theorem guard_new {s : Server κ} {columns : List κ} (h : s.Alone columns) {c : κ}
    (hc : c ∉ columns) : ∃ t, s.guard c = some (t, true) ∧ t.Alone (c :: columns) := by
  obtain ⟨l, hl, hheld, hcalls⟩ := FineLock.vlock_unused (h.unused c hc)
  have hpos : 0 < (s.locks c).toALock.nextId := (h.unused c hc).2.2.2
  have hanswer : answerOf (s.locks c).toALock.nextId [.yes (s.locks c).toALock.nextId] =
      some (s.locks c).toALock.nextId := by simp [answerOf]
  have hguard := guard_eq h c hl hcalls hanswer
  rw [decide_eq_true hpos] at hguard
  refine ⟨_, hguard, ?_, ?_, h.active, ⟨h.woundable.1, rfl⟩, ?_⟩
  · intro d hd
    have hne : d ≠ c := fun heq => hd (heq ▸ List.mem_cons_self)
    show Unused (Function.update s.locks c l d).toALock
    rw [Function.update_of_ne hne]
    exact h.unused d fun hmem => hd (List.mem_cons_of_mem c hmem)
  · intro d hd
    show Held s.tx.tid (Function.update s.locks c l d).toALock
    by_cases hne : d = c
    · rw [hne, Function.update_self]
      exact hheld
    · rw [Function.update_of_ne hne]
      exact h.held d ((List.mem_cons.mp hd).resolve_left hne)
  · show s.tx.nLockGranted + (if 0 < (s.locks c).toALock.nextId then 1 else 0) =
      s.tx.nLockRequested + 1
    rw [if_pos hpos, h.granted]

theorem guard_again {s : Server κ} {columns : List κ} (h : s.Alone columns) {c : κ}
    (hc : c ∈ columns) :
    ∃ t granted, s.guard c = some (t, granted) ∧ (granted = true → t.tx.wounded = true) := by
  obtain ⟨l, hl, hcalls | ⟨id, hcalls⟩⟩ := FineLock.vlock_held (h.held c hc)
  · have hanswer : answerOf (s.locks c).toALock.nextId [.no (s.locks c).toALock.nextId] = some 0 := by
      simp [answerOf]
    exact ⟨_, _, guard_eq h c hl hcalls hanswer, fun hgranted => by cases hgranted⟩
  · have hanswer : answerOf (s.locks c).toALock.nextId
        [.wound id true, .yes (s.locks c).toALock.nextId] = some (s.locks c).toALock.nextId := by
      simp [answerOf]
    exact ⟨_, _, guard_eq h c hl hcalls hanswer, fun _ => rfl⟩

theorem guard_wounded {s t : Server κ} {c : κ} {granted : Bool} (h : s.tx.wounded = true)
    (hguard : s.guard c = some (t, granted)) : t.tx.wounded = true := by
  unfold guard at hguard
  by_cases hactive : s.tx.aborted = true ∨ s.tx.committed = true
  · rw [if_pos hactive] at hguard
    cases hguard
  · rw [if_neg hactive, if_pos h] at hguard
    obtain ⟨rfl, -⟩ := Prod.mk.inj (Option.some.inj hguard)
    exact h

theorem guards_cons {s t : Server κ} {c : κ} {cs : List κ} {results : List Bool}
    (h : s.guards (c :: cs) = some (t, results)) :
    ∃ u granted rest, s.guard c = some (u, granted) ∧ u.guards cs = some (t, rest) ∧
      results = granted :: rest := by
  obtain ⟨⟨u, granted⟩, hguard, h⟩ := Option.bind_eq_some_iff.mp h
  obtain ⟨⟨v, rest⟩, hguards, h⟩ := Option.bind_eq_some_iff.mp h
  obtain ⟨rfl, rfl⟩ := Prod.mk.inj (Option.some.inj h)
  exact ⟨u, granted, rest, hguard, hguards, rfl⟩

theorem guards_wounded {s t : Server κ} {columns : List κ} {results : List Bool}
    (h : s.tx.wounded = true) (hguards : s.guards columns = some (t, results)) :
    t.tx.wounded = true := by
  induction columns generalizing s results with
  | nil =>
    obtain ⟨rfl, -⟩ := Prod.mk.inj (Option.some.inj hguards)
    exact h
  | cons c cs ih =>
    obtain ⟨u, granted, rest, hguard, hrest, -⟩ := guards_cons hguards
    exact ih (guard_wounded h hguard) hrest

omit [DecidableEq κ] in
theorem Alone.doPrepare {s : Server κ} {columns : List κ} (h : s.Alone columns) :
    ∃ t, s.doPrepare = some (t, true) := by
  unfold Server.doPrepare
  have hidle : ¬ s.tx.inuse = true := by simp [h.active.2.2]
  have hgranted : ¬ s.tx.nLockGranted ≠ s.tx.nLockRequested := by simp [h.granted]
  have hwounded : ¬ s.tx.wounded = true := by simp [h.woundable.2]
  rw [if_neg hidle, if_neg hgranted, if_neg hwounded]
  exact ⟨_, rfl⟩

/-- The accesses that come after those of `columns` are granted unless one of them repeats another. -/
theorem Alone.unrefused_iff {s : Server κ} {done columns : List κ} (h : s.Alone done) :
    s.Unrefused columns ↔ columns.Nodup ∧ ∀ c ∈ columns, c ∉ done := by
  induction columns generalizing s done with
  | nil =>
    refine ⟨fun _ => ⟨List.nodup_nil, fun c hc => by cases hc⟩, fun _ => ?_⟩
    obtain ⟨t, ht⟩ := h.doPrepare
    exact ⟨s, [], t, rfl, fun granted hg => absurd hg List.not_mem_nil, h.woundable.2, ht⟩
  | cons c cs ih =>
    by_cases hc : c ∈ done
    · constructor
      · rintro ⟨t, results, u, hguards, hall, hwounded, -⟩
        obtain ⟨v, granted, rest, hguard, hrest, rfl⟩ := guards_cons hguards
        obtain ⟨v', granted', hguard', himp⟩ := guard_again h hc
        obtain ⟨rfl, rfl⟩ := Prod.mk.inj (Option.some.inj (hguard.symm.trans hguard'))
        have hv := guards_wounded (himp (hall _ List.mem_cons_self)) hrest
        rw [hv] at hwounded
        cases hwounded
      · rintro ⟨-, hnew⟩
        exact absurd hc (hnew c List.mem_cons_self)
    · obtain ⟨v, hguard, hv⟩ := guard_new h hc
      have hcons : s.Unrefused (c :: cs) ↔ v.Unrefused cs := by
        constructor
        · rintro ⟨t, results, u, hguards, hall, hwounded, hprepare⟩
          obtain ⟨v', granted, rest, hguard', hrest, rfl⟩ := guards_cons hguards
          obtain ⟨rfl, rfl⟩ := Prod.mk.inj (Option.some.inj (hguard.symm.trans hguard'))
          exact ⟨t, rest, u, hrest, fun g hg => hall g (List.mem_cons_of_mem _ hg), hwounded, hprepare⟩
        · rintro ⟨t, rest, u, hrest, hall, hwounded, hprepare⟩
          refine ⟨t, true :: rest, u, ?_, ?_, hwounded, hprepare⟩
          · unfold guards
            rw [hguard, Option.bind_eq_bind, Option.bind_some]
            dsimp only
            rw [hrest]
            rfl
          · intro g hg
            rcases List.mem_cons.mp hg with rfl | hg
            · rfl
            · exact hall g hg
      rw [hcons, ih hv, List.nodup_cons]
      constructor
      · rintro ⟨hnodup, hnew⟩
        refine ⟨⟨fun hmem => hnew c hmem List.mem_cons_self, hnodup⟩, fun d hd => ?_⟩
        rcases List.mem_cons.mp hd with rfl | hd
        · exact hc
        · exact fun hmem => hnew d hd (List.mem_cons_of_mem c hmem)
      · rintro ⟨⟨hcs, hnodup⟩, hnew⟩
        refine ⟨hnodup, fun d hd hmem => ?_⟩
        rcases List.mem_cons.mp hmem with rfl | hmem
        · exact hcs hd
        · exact hnew d (List.mem_cons_of_mem c hd) hmem

/-- A transaction that runs alone is refused by its own locks exactly when it accesses a column twice. -/
theorem alone_unrefused_iff {locks : κ → FineLock} (hlocks : ∀ c, Unused (locks c).toALock) (tid : Int)
    (columns : List κ) : Unrefused ⟨locks, { tid := tid }⟩ columns ↔ columns.Nodup := by
  have h : Alone (⟨locks, { tid := tid }⟩ : Server κ) [] :=
    ⟨fun c _ => hlocks c, fun c hc => absurd hc List.not_mem_nil, ⟨rfl, rfl, rfl⟩, ⟨rfl, rfl⟩, rfl⟩
  rw [h.unrefused_iff]
  constructor
  · exact fun hnew => hnew.1
  · exact fun hnodup => ⟨hnodup, fun c _ => List.not_mem_nil⟩

/-- Two columns of new locks, one of each kind. -/
theorem alone_unrefused_two :
    Unrefused ⟨fun c : Bool => if c then .waitDie {} else .woundDie {}, { tid := 7 }⟩ [true, false] := by
  apply (alone_unrefused_iff (fun c => ?_) 7 [true, false]).mpr (by decide)
  cases c <;> exact ⟨rfl, rfl, rfl, Nat.one_pos⟩

/-- The second access to a column is refused by a wait-die lock, and at a wound-wait lock it wounds the
transaction itself. -/
theorem second_access_refused :
    (¬ Unrefused ⟨fun _ : Unit => .waitDie {}, { tid := 7 }⟩ [(), ()]) ∧
      ¬ Unrefused ⟨fun _ : Unit => .woundDie {}, { tid := 7 }⟩ [(), ()] := by
  constructor
  · rintro ⟨t, results, u, hguards, hall, -⟩
    have hrun := congrArg (Option.map fun r => r.2) hguards
    obtain rfl : [true, false] = results := Option.some.inj hrun
    have hrefused := hall false (by decide)
    cases hrefused
  · rintro ⟨t, results, u, hguards, -, hwounded, -⟩
    have hrun := congrArg (Option.map fun r => r.1.tx.wounded) hguards
    have hwound : true = t.tx.wounded := Option.some.inj hrun
    rw [hwounded] at hwound
    cases hwound

end Server

end Jetpack.Lock
