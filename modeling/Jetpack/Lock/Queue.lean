import Mathlib

/-! The queued locks of a column. The two kinds of lock keep their requests in one list and pass the
lock on in the same way; they differ in how they admit a request. `none` is a `verify` that does not
hold. -/

namespace Jetpack.Lock

inductive LockType
  | rlock
  | wlock
  deriving Repr, DecidableEq

inductive Status
  | free
  | wlocked
  | rlocked
  deriving Repr, DecidableEq

inductive ReqStatus
  | wait
  | lock
  deriving Repr, DecidableEq

/-- A lower value is a higher priority. -/
structure LockReq where
  id : Nat
  priority : Int
  type : LockType
  status : ReqStatus := .wait
  deriving Repr, DecidableEq

def LockReq.grant (r : LockReq) : LockReq := { r with status := .lock }

inductive Call
  | yes (id : Nat)
  | no (id : Nat)
  | wound (id : Nat) (succeeded : Bool)
  deriving Repr, DecidableEq

def Call.answer : Call → Option Nat
  | .yes id => some id
  | .no id => some id
  | .wound _ _ => none

/-- What both kinds of lock have, and the callbacks called so far. -/
structure ALock where
  nextId : Nat := 1
  status : Status := .free
  nRlock : Int := 0
  requests : List LockReq := []
  calls : List Call := []
  deriving Repr, DecidableEq

def isReader (r : LockReq) : Bool := r.type == .rlock

def waits (r : LockReq) : Bool := r.status == .wait

def waitingIds (l : List LockReq) : List Nat := (l.filter waits).map (·.id)

namespace ALock

variable (s : ALock)

/-- `write_acquire` of the request between two parts of the queue. -/
def writeAcquire (before : List LockReq) (r : LockReq) (after : List LockReq) : Option ALock :=
  if r.type = .wlock ∧ r.status = .wait then
    some { s with
      status := .wlocked
      requests := before ++ r.grant :: after
      calls := s.calls ++ [.yes r.id] }
  else none

/-- `read_acquire` of the requests between two parts of the queue. -/
def readAcquire (before reqs after : List LockReq) : Option ALock :=
  if reqs = [] then some { s with requests := before ++ after }
  else if reqs.all (fun r => isReader r && waits r) then
    some { s with
      status := if s.nRlock = 0 then .rlocked else s.status
      nRlock := s.nRlock + reqs.length
      requests := before ++ reqs.map LockReq.grant ++ after
      calls := s.calls ++ reqs.map fun r => .yes r.id }
  else none

def acquireReaders (before after : List LockReq) : Option ALock :=
  s.readAcquire before (after.takeWhile isReader) (after.dropWhile isReader)

/-- A waiting request is taken out. Without a writer before it, a writer has held up the readers
behind it. -/
def abortWaiting (before : List LockReq) (r : LockReq) (after : List LockReq) : Option ALock := do
  let t ←
    if r.type = .wlock ∧ before.all isReader then
      if s.status = .rlocked then s.acquireReaders before after else none
    else some { s with requests := before ++ after }
  return { t with calls := t.calls ++ [.no r.id] }

def unlockRead (before after : List LockReq) : Option ALock :=
  let t : ALock := { s with nRlock := s.nRlock - 1, requests := before ++ after }
  if t.nRlock = 0 then
    match after with
    | [] => if before = [] then some { t with status := .free } else none
    | next :: after => t.writeAcquire before next after
  else some t

def unlockWrite (before after : List LockReq) : Option ALock :=
  let t : ALock := { s with requests := before ++ after }
  match after with
  | [] => if before = [] then some { t with status := .free } else none
  | next :: rest =>
    if next.type = .wlock then t.writeAcquire before next rest
    else do
      let u ← t.acquireReaders before after
      if u.status = .rlocked then return u else none

def abort (id : Nat) : Option ALock :=
  match s.requests.dropWhile (fun r => r.id != id) with
  | [] => some s
  | r :: after =>
    let before := s.requests.takeWhile fun r => r.id != id
    if r.status = .wait then s.abortWaiting before r after
    else if r.type = .rlock then s.unlockRead before after
    else s.unlockWrite before after

def answered : List Nat := s.calls.filterMap Call.answer

end ALock

/-- How the queue looks: nobody holds the lock and nobody waits, one writer holds it, or the readers up
to the first writer do. -/
inductive Shape : Status → Int → List LockReq → Prop
  | free : Shape .free 0 []
  | wlocked {w : LockReq} {rest : List LockReq} (hw : w.type = .wlock ∧ w.status = .lock)
      (hrest : ∀ r ∈ rest, r.status = .wait) : Shape .wlocked 0 (w :: rest)
  | rlocked {held rest : List LockReq} (hne : held ≠ [])
      (hheld : ∀ r ∈ held, r.type = .rlock ∧ r.status = .lock)
      (hrest : ∀ r ∈ rest, r.status = .wait) (hnext : ∀ r ∈ rest.head?, r.type = .wlock) :
      Shape .rlocked held.length (held ++ rest)

/-- The same request, which may have got the lock. -/
def Grants (a b : LockReq) : Prop :=
  b.id = a.id ∧ b.priority = a.priority ∧ b.type = a.type ∧ (b.status = .wait → a.status = .wait)

theorem grants_refl (l : List LockReq) : List.Forall₂ Grants l l :=
  List.forall₂_same.mpr fun _ _ => ⟨rfl, rfl, rfl, id⟩

theorem grants_grant (l : List LockReq) : List.Forall₂ Grants l (l.map LockReq.grant) := by
  induction l with
  | nil => exact .nil
  | cons r l ih => exact .cons ⟨rfl, rfl, rfl, fun h => by cases h⟩ ih

theorem grants_mem {l l' : List LockReq} (h : List.Forall₂ Grants l l') {b : LockReq}
    (hb : b ∈ l') : ∃ a ∈ l, Grants a b := by
  induction h with
  | nil => cases hb
  | cons hab hrest ih =>
    rcases List.mem_cons.mp hb with rfl | hb
    · exact ⟨_, List.mem_cons_self, hab⟩
    · obtain ⟨a, ha, hg⟩ := ih hb
      exact ⟨a, List.mem_cons_of_mem _ ha, hg⟩

theorem waitingIds_append (a b : List LockReq) :
    waitingIds (a ++ b) = waitingIds a ++ waitingIds b := by
  simp [waitingIds]

theorem waitingIds_held {l : List LockReq} (h : ∀ r ∈ l, r.status = .lock) : waitingIds l = [] := by
  rw [waitingIds, List.filter_eq_nil_iff.mpr, List.map_nil]
  intro r hr
  simp [waits, h r hr]

theorem waitingIds_waiting {l : List LockReq} (h : ∀ r ∈ l, r.status = .wait) :
    waitingIds l = l.map (·.id) := by
  rw [waitingIds, List.filter_eq_self.mpr]
  intro r hr
  simp [waits, h r hr]

theorem waitingIds_grant (l : List LockReq) : waitingIds (l.map LockReq.grant) = [] := by
  apply waitingIds_held
  intro r hr
  obtain ⟨q, -, rfl⟩ := List.mem_map.mp hr
  rfl

/-- The lock `t` has passed on to requests of a queue, which it leaves in place. The ids that wait and
those that were answered stay the same taken together. -/
structure Passes (s : ALock) (queue : List LockReq) (t : ALock) : Prop where
  nextId : t.nextId = s.nextId
  shape : Shape t.status t.nRlock t.requests
  grants : List.Forall₂ Grants queue t.requests
  account : (t.answered ++ waitingIds t.requests).Perm (s.answered ++ waitingIds queue)
  calls : ∀ c ∈ s.calls, c ∈ t.calls
  told : ∀ r ∈ t.requests, r.status = .lock → r ∈ queue ∨ .yes r.id ∈ t.calls

theorem ALock.readAcquire_eq {s : ALock} {before reqs after : List LockReq}
    (h : ∀ r ∈ reqs, r.type = .rlock ∧ r.status = .wait) :
    s.readAcquire before reqs after = some { s with
      status := if reqs ≠ [] ∧ s.nRlock = 0 then .rlocked else s.status
      nRlock := s.nRlock + reqs.length
      requests := before ++ reqs.map LockReq.grant ++ after
      calls := s.calls ++ reqs.map fun r => .yes r.id } := by
  unfold readAcquire
  cases reqs with
  | nil => simp
  | cons r reqs =>
    have hall : (r :: reqs).all (fun r => isReader r && waits r) = true := by
      rw [List.all_eq_true]
      intro q hq
      simp [isReader, waits, h q hq]
    rw [if_neg (List.cons_ne_nil r reqs), if_pos hall]
    simp

/-- Readers that waited behind the readers `held`, or at the head of the queue, get the lock. -/
theorem ALock.acquireReaders_passes {s : ALock} {held after : List LockReq}
    (hheld : ∀ r ∈ held, r.type = .rlock ∧ r.status = .lock)
    (hafter : ∀ r ∈ after, r.status = .wait) (hn : s.nRlock = held.length)
    (hstatus : held ≠ [] → s.status = .rlocked)
    (hhead : held = [] → ∃ r, after.head? = some r ∧ r.type = .rlock) :
    ∃ t, s.acquireReaders held after = some t ∧ t.status = .rlocked ∧ Passes s (held ++ after) t := by
  generalize hreqs : after.takeWhile isReader = reqs
  generalize hrest : after.dropWhile isReader = rest
  have hsplit : after = reqs ++ rest := by
    rw [← hreqs, ← hrest, List.takeWhile_append_dropWhile]
  have hreaders : ∀ r ∈ reqs, r.type = .rlock ∧ r.status = .wait := by
    intro r hr
    have htype := List.mem_takeWhile_imp (hreqs ▸ hr)
    exact ⟨by simpa [isReader] using htype, hafter r (by rw [hsplit]; exact List.mem_append_left _ hr)⟩
  have hgranted : ∀ r ∈ held ++ reqs.map LockReq.grant, r.type = .rlock ∧ r.status = .lock := by
    intro r hr
    rcases List.mem_append.mp hr with hr | hr
    · exact hheld r hr
    · obtain ⟨q, hq, rfl⟩ := List.mem_map.mp hr
      exact ⟨(hreaders q hq).1, rfl⟩
  have hne : held ++ reqs.map LockReq.grant ≠ [] := by
    intro hnil
    obtain ⟨hheldnil, hreqsnil⟩ := List.append_eq_nil_iff.mp hnil
    obtain ⟨r, hr, htype⟩ := hhead hheldnil
    rw [hsplit, List.map_eq_nil_iff.mp hreqsnil, List.nil_append] at hr
    have hdrop := List.head?_dropWhile_not isReader after
    rw [hrest, hr] at hdrop
    simp [isReader, htype] at hdrop
  have hnext : ∀ r ∈ rest.head?, r.type = .wlock := by
    intro r hr
    have hdrop := List.head?_dropWhile_not isReader after
    rw [hrest, Option.mem_def.mp hr] at hdrop
    cases htype : r.type with
    | rlock => simp [isReader, htype] at hdrop
    | wlock => rfl
  have hlen : s.nRlock + reqs.length = ((held ++ reqs.map LockReq.grant).length : Int) := by
    rw [hn]
    simp
  have hresult : (if reqs ≠ [] ∧ s.nRlock = 0 then Status.rlocked else s.status) = .rlocked := by
    split_ifs with hif
    · rfl
    · apply hstatus
      intro hnil
      rw [hnil] at hne hn
      exact hif ⟨fun h => hne (by rw [h]; rfl), by simpa using hn⟩
  rw [acquireReaders, hreqs, hrest, readAcquire_eq hreaders, hresult, hlen]
  refine ⟨_, rfl, rfl, ?_⟩
  have hwait : ∀ r ∈ rest, r.status = .wait := fun r hr =>
    hafter r (by rw [hsplit]; exact List.mem_append_right _ hr)
  constructor
  · rfl
  · exact .rlocked hne hgranted hwait hnext
  · rw [hsplit, List.append_assoc]
    exact List.rel_append (grants_refl held) (List.rel_append (grants_grant reqs) (grants_refl rest))
  · have hids : (reqs.map fun r => Call.yes r.id).filterMap Call.answer = reqs.map (·.id) := by
      rw [List.filterMap_map]
      exact congrFun (@List.filterMap_eq_map _ _ LockReq.id) reqs
    have hreqids := waitingIds_waiting fun r hr => (hreaders r hr).2
    simp only [hsplit, answered, List.filterMap_append, hids, waitingIds_append, waitingIds_grant,
      hreqids, List.append_nil]
    rw [waitingIds_held fun r hr => (hheld r hr).2]
    simp
  · exact fun c hc => List.mem_append_left _ hc
  · intro r hr hlock
    rcases List.mem_append.mp hr with hr | hr
    · rcases List.mem_append.mp hr with hr | hr
      · exact .inl (List.mem_append_left _ hr)
      · obtain ⟨q, hq, rfl⟩ := List.mem_map.mp hr
        exact .inr (List.mem_append_right _ (List.mem_map.mpr ⟨q, hq, rfl⟩))
    · rw [hwait r hr] at hlock
      cases hlock

theorem ALock.writeAcquire_passes {s : ALock} {w : LockReq} {after : List LockReq}
    (hw : w.type = .wlock ∧ w.status = .wait) (hafter : ∀ r ∈ after, r.status = .wait)
    (hn : s.nRlock = 0) :
    ∃ t, s.writeAcquire [] w after = some t ∧ Passes s (w :: after) t := by
  rw [writeAcquire, if_pos hw]
  refine ⟨_, rfl, rfl, ?_, ?_, ?_, ?_, ?_⟩
  · show Shape .wlocked s.nRlock (w.grant :: after)
    rw [hn]
    exact .wlocked ⟨hw.1, rfl⟩ hafter
  · exact .cons ⟨rfl, rfl, rfl, fun h => by cases h⟩ (grants_refl after)
  · show ((s.calls ++ [Call.yes w.id]).filterMap Call.answer ++ waitingIds ([w.grant] ++ after)).Perm
      (s.answered ++ waitingIds ([w] ++ after))
    have hgrant : waitingIds [w.grant] = [] := rfl
    have hwait : waitingIds [w] = [w.id] := by simp [waitingIds, waits, hw.2]
    rw [List.filterMap_append, waitingIds_append, waitingIds_append [w], hgrant, hwait]
    simp [answered, Call.answer]
  · exact fun c hc => List.mem_append_left _ hc
  · intro r hr hlock
    rcases List.mem_cons.mp hr with rfl | hr
    · exact .inr (List.mem_append_right _ (List.mem_singleton.mpr rfl))
    · rw [hafter r hr] at hlock
      cases hlock

/-- The lock `t` has lost the request `r` between two parts of the queue, and has passed on to some of
the others if `r` held it. -/
structure Drops (s : ALock) (before : List LockReq) (r : LockReq) (after : List LockReq)
    (t : ALock) : Prop where
  nextId : t.nextId = s.nextId
  shape : Shape t.status t.nRlock t.requests
  grants : List.Forall₂ Grants (before ++ after) t.requests
  account : (t.answered ++ waitingIds t.requests).Perm
    (s.answered ++ waitingIds (before ++ r :: after))
  calls : ∀ c ∈ s.calls, c ∈ t.calls
  told : ∀ q ∈ t.requests, q.status = .lock → q ∈ before ++ after ∨ .yes q.id ∈ t.calls

theorem waitingIds_cons_held {r : LockReq} (h : r.status = .lock) (l : List LockReq) :
    waitingIds (r :: l) = waitingIds l := by
  simp [waitingIds, waits, h]

theorem waitingIds_cons_waiting {r : LockReq} (h : r.status = .wait) (l : List LockReq) :
    waitingIds (r :: l) = r.id :: waitingIds l := by
  simp [waitingIds, waits, h]

theorem Passes.drops {s u t : ALock} {before after : List LockReq} {r : LockReq}
    (h : Passes u (before ++ after) t) (hr : r.status = .lock) (hnext : u.nextId = s.nextId)
    (hcalls : u.calls = s.calls) : Drops s before r after t where
  nextId := h.nextId.trans hnext
  shape := h.shape
  grants := h.grants
  account := by
    have haccount := h.account
    rw [waitingIds_append, waitingIds_cons_held hr, ← waitingIds_append]
    have hanswered : u.answered = s.answered := congrArg (List.filterMap Call.answer) hcalls
    rwa [hanswered] at haccount
  calls c hc := h.calls c (hcalls ▸ hc)
  told := h.told

theorem passes_same {s : ALock} {queue : List LockReq} {status : Status} {n : Int}
    (h : Shape status n queue) :
    Passes s queue { s with status := status, nRlock := n, requests := queue } where
  nextId := rfl
  shape := h
  grants := grants_refl queue
  account := .refl _
  calls _ hc := hc
  told _ hr _ := .inl hr

theorem Passes.drops_no {s t : ALock} {before after : List LockReq} {r : LockReq}
    (h : Passes s (before ++ after) t) (hr : r.status = .wait) :
    Drops s before r after { t with calls := t.calls ++ [.no r.id] } where
  nextId := h.nextId
  shape := h.shape
  grants := h.grants
  account := by
    have haccount := h.account
    have hno : ALock.answered { t with calls := t.calls ++ [.no r.id] } = t.answered ++ [r.id] := by
      simp [ALock.answered, Call.answer]
    rw [hno, waitingIds_append, waitingIds_cons_waiting hr]
    rw [waitingIds_append] at haccount
    have hleft : (t.answered ++ [r.id] ++ waitingIds t.requests).Perm
        (r.id :: (t.answered ++ waitingIds t.requests)) := by
      rw [List.append_assoc]
      exact List.perm_middle
    have hright : (r.id :: (s.answered ++ (waitingIds before ++ waitingIds after))).Perm
        (s.answered ++ (waitingIds before ++ r.id :: waitingIds after)) := by
      rw [← List.append_assoc, ← List.append_assoc]
      exact List.perm_middle.symm
    exact (hleft.trans (haccount.cons r.id)).trans hright
  calls c hc := List.mem_append_left _ (h.calls c hc)
  told q hq hlock := (h.told q hq hlock).imp_right fun hyes => List.mem_append_left _ hyes

theorem ALock.unlockRead_drops {s : ALock} {held rest before after : List LockReq} {r : LockReq}
    (hheld : ∀ q ∈ before ++ r :: held, q.type = .rlock ∧ q.status = .lock)
    (hrest : ∀ r ∈ rest, r.status = .wait) (hnext : ∀ r ∈ rest.head?, r.type = .wlock)
    (hafter : after = held ++ rest) (hstatus : s.status = .rlocked)
    (hn : s.nRlock = (before ++ r :: held).length) :
    ∃ t, s.unlockRead before after = some t ∧ Drops s before r after t := by
  have hr : r.status = .lock := (hheld r (by simp)).2
  have hcount : s.nRlock - 1 = ((before ++ held).length : Int) := by
    rw [hn]
    simp
    omega
  unfold unlockRead
  dsimp only
  by_cases hzero : s.nRlock - 1 = 0
  · rw [if_pos hzero]
    have hnil : before = [] ∧ held = [] := by
      rw [hcount] at hzero
      have hlen : (before ++ held).length = 0 := by omega
      exact List.append_eq_nil_iff.mp (List.length_eq_zero_iff.mp hlen)
    obtain ⟨rfl, rfl⟩ := hnil
    obtain rfl : after = rest := hafter
    cases after with
    | nil =>
      refine ⟨_, rfl, ?_⟩
      have hfree := @passes_same s ([] ++ []) .free (s.nRlock - 1) (by rw [hzero]; exact .free)
      exact hfree.drops hr rfl rfl
    | cons next rest =>
      dsimp only
      obtain ⟨t, ht, hpass⟩ := @writeAcquire_passes
        { s with nRlock := s.nRlock - 1, requests := [] ++ next :: rest } next rest
        ⟨hnext next rfl, hrest next List.mem_cons_self⟩
        (fun q hq => hrest q (List.mem_cons_of_mem next hq)) hzero
      exact ⟨t, ht, @Passes.drops s _ t [] (next :: rest) r hpass hr rfl rfl⟩
  · rw [if_neg hzero]
    refine ⟨_, rfl, ?_⟩
    have hshape : Shape s.status (s.nRlock - 1) (before ++ after) := by
      rw [hstatus, hcount, hafter, ← List.append_assoc]
      refine .rlocked (fun hnil => hzero ?_) (fun q hq => ?_) hrest hnext
      · rw [hcount, hnil]
        rfl
      · apply hheld q
        rcases List.mem_append.mp hq with hq | hq
        · exact List.mem_append_left _ hq
        · exact List.mem_append_right _ (List.mem_cons_of_mem _ hq)
    exact (passes_same hshape).drops hr rfl rfl

theorem ALock.unlockWrite_drops {s : ALock} {r : LockReq} {after : List LockReq}
    (hr : r.status = .lock) (hafter : ∀ q ∈ after, q.status = .wait) (hn : s.nRlock = 0) :
    ∃ t, s.unlockWrite [] after = some t ∧ Drops s [] r after t := by
  unfold unlockWrite
  cases after with
  | nil =>
    refine ⟨_, rfl, ?_⟩
    have hfree := @passes_same s ([] ++ []) .free s.nRlock (by rw [hn]; exact .free)
    exact hfree.drops hr rfl rfl
  | cons next rest =>
    dsimp only
    split_ifs with htype
    · obtain ⟨t, ht, hpass⟩ := @writeAcquire_passes
        { s with requests := [] ++ next :: rest } next rest ⟨htype, hafter next List.mem_cons_self⟩
        (fun q hq => hafter q (List.mem_cons_of_mem next hq)) hn
      exact ⟨t, ht, @Passes.drops s _ t [] (next :: rest) r hpass hr rfl rfl⟩
    · have hreader : next.type = .rlock := by
        cases hnext : next.type with
        | rlock => rfl
        | wlock => exact absurd hnext htype
      obtain ⟨t, ht, hstatus, hpass⟩ := @acquireReaders_passes
        { s with requests := [] ++ next :: rest } [] (next :: rest) (fun q hq => by cases hq) hafter
        hn (fun h => absurd rfl h) (fun _ => ⟨next, rfl, hreader⟩)
      refine ⟨t, ?_, @Passes.drops s _ t [] (next :: rest) r hpass hr rfl rfl⟩
      rw [ht]
      simp [hstatus]

/-- A waiting request behind the readers `held` is dropped. -/
theorem ALock.abortWaiting_drops {s : ALock} {held mid after : List LockReq} {r : LockReq}
    (hne : held ≠ []) (hheld : ∀ q ∈ held, q.type = .rlock ∧ q.status = .lock)
    (hrest : ∀ q ∈ mid ++ r :: after, q.status = .wait)
    (hnext : ∀ q ∈ (mid ++ r :: after).head?, q.type = .wlock)
    (hstatus : s.status = .rlocked) (hn : s.nRlock = held.length) :
    ∃ t, s.abortWaiting (held ++ mid) r after = some t ∧ Drops s (held ++ mid) r after t := by
  have hr : r.status = .wait := hrest r (by simp)
  have hwait : ∀ q ∈ mid ++ after, q.status = .wait := by
    intro q hq
    apply hrest q
    rcases List.mem_append.mp hq with hq | hq
    · exact List.mem_append_left _ hq
    · exact List.mem_append_right _ (List.mem_cons_of_mem _ hq)
  unfold abortWaiting
  cases mid with
  | nil =>
    have hcond : r.type = .wlock ∧ (held ++ []).all isReader = true := by
      refine ⟨hnext r rfl, ?_⟩
      rw [List.append_nil, List.all_eq_true]
      intro q hq
      simp [isReader, (hheld q hq).1]
    obtain ⟨t, ht, -, hpass⟩ := @acquireReaders_passes s held after hheld (fun q hq => hwait q hq) hn
      (fun _ => hstatus) (fun h => absurd h hne)
    rw [if_pos hcond, if_pos hstatus, List.append_nil, ht]
    refine ⟨_, rfl, hpass.drops_no hr⟩
  | cons w mid =>
    have hw : w.type = .wlock := hnext w rfl
    have hcond : ¬ (r.type = .wlock ∧ (held ++ w :: mid).all isReader = true) := by
      rintro ⟨-, hall⟩
      have hreader := List.all_eq_true.mp hall w (by simp)
      simp [isReader, hw] at hreader
    rw [if_neg hcond]
    refine ⟨_, rfl, ?_⟩
    have hshape : Shape s.status s.nRlock (held ++ w :: mid ++ after) := by
      rw [hstatus, hn, List.append_assoc]
      refine .rlocked hne hheld hwait fun q hq => ?_
      obtain rfl := Option.some.inj hq
      exact hw
    exact (passes_same hshape).drops_no hr

theorem ALock.abortWaiting_drops_writer {s : ALock} {w r : LockReq} {mid after : List LockReq}
    (hw : w.type = .wlock ∧ w.status = .lock) (hrest : ∀ q ∈ mid ++ r :: after, q.status = .wait)
    (hstatus : s.status = .wlocked) (hn : s.nRlock = 0) :
    ∃ t, s.abortWaiting (w :: mid) r after = some t ∧ Drops s (w :: mid) r after t := by
  have hcond : ¬ (r.type = .wlock ∧ (w :: mid).all isReader = true) := by
    rintro ⟨-, hall⟩
    have hreader := List.all_eq_true.mp hall w List.mem_cons_self
    simp [isReader, hw.1] at hreader
  unfold abortWaiting
  rw [if_neg hcond]
  refine ⟨_, rfl, ?_⟩
  have hshape : Shape s.status s.nRlock (w :: mid ++ after) := by
    rw [hstatus, hn]
    refine .wlocked hw fun q hq => hrest q ?_
    rcases List.mem_append.mp hq with hq | hq
    · exact List.mem_append_left _ hq
    · exact List.mem_append_right _ (List.mem_cons_of_mem _ hq)
  exact (passes_same hshape).drops_no (hrest r (by simp))

def ALock.drop (s : ALock) (before : List LockReq) (r : LockReq) (after : List LockReq) :
    Option ALock :=
  if r.status = .wait then s.abortWaiting before r after
  else if r.type = .rlock then s.unlockRead before after
  else s.unlockWrite before after

theorem ALock.drop_drops {s : ALock} (h : Shape s.status s.nRlock s.requests)
    {before after : List LockReq} {r : LockReq} (hsplit : s.requests = before ++ r :: after) :
    ∃ t, s.drop before r after = some t ∧ Drops s before r after t := by
  rw [hsplit] at h
  generalize hqueue : before ++ r :: after = queue at h
  generalize hstatus : s.status = status at h
  generalize hn : s.nRlock = n at h
  unfold drop
  cases h with
  | free => simp at hqueue
  | @wlocked w rest hw hrest =>
    cases before with
    | nil =>
      obtain ⟨rfl, rfl⟩ := List.cons.inj hqueue
      have hheld : r.status ≠ .wait := by
        rw [hw.2]
        decide
      have htype : r.type ≠ .rlock := by
        rw [hw.1]
        decide
      rw [if_neg hheld, if_neg htype]
      exact unlockWrite_drops hw.2 hrest hn
    | cons b before =>
      obtain ⟨rfl, rfl⟩ := List.cons.inj hqueue
      rw [if_pos (hrest r (by simp))]
      exact abortWaiting_drops_writer hw hrest hstatus hn
  | @rlocked held rest hne hheld hrest hnext =>
    rcases List.append_eq_append_iff.mp hqueue with ⟨mid, hsame, htail⟩ | ⟨mid, rfl, rfl⟩
    · cases mid with
      | nil =>
        rw [List.append_nil] at hsame
        obtain rfl : rest = r :: after := htail.symm
        subst hsame
        rw [if_pos (hrest r (by simp))]
        have hdrop := @abortWaiting_drops s held [] after r hne hheld hrest hnext hstatus hn
        rwa [List.append_nil] at hdrop
      | cons q mid =>
        obtain ⟨rfl, rfl⟩ := List.cons.inj htail
        subst hsame
        have hr := hheld r (by simp)
        have hlock : r.status ≠ .wait := by
          rw [hr.2]
          decide
        rw [if_neg hlock, if_pos hr.1]
        exact unlockRead_drops hheld hrest hnext rfl hstatus hn
    · rw [if_pos (hrest r (by simp))]
      exact abortWaiting_drops hne hheld hrest hnext hstatus hn

/-- An abort finds no request with the id, or drops the first one. -/
theorem ALock.abort_drops {s : ALock} (h : Shape s.status s.nRlock s.requests) (id : Nat) :
    ((∀ r ∈ s.requests, r.id ≠ id) ∧ s.abort id = some s) ∨
      ∃ before r after t, s.requests = before ++ r :: after ∧ r.id = id ∧
        (∀ q ∈ before, q.id ≠ id) ∧ s.abort id = some t ∧ Drops s before r after t := by
  have hsplit := @List.takeWhile_append_dropWhile _ (fun r : LockReq => r.id != id) s.requests
  have hnot : ∀ q ∈ s.requests.takeWhile (fun r : LockReq => r.id != id), q.id ≠ id :=
    fun q hq => bne_iff_ne.mp (List.mem_takeWhile_imp (p := fun r : LockReq => r.id != id) hq)
  unfold abort
  cases hdrop : s.requests.dropWhile (fun r => r.id != id) with
  | nil =>
    rw [hdrop, List.append_nil] at hsplit
    rw [hsplit] at hnot
    exact .inl ⟨hnot, rfl⟩
  | cons r after =>
    rw [hdrop] at hsplit
    have hid : r.id = id := by
      have hhead := List.head?_dropWhile_not (fun r : LockReq => r.id != id) s.requests
      rw [hdrop] at hhead
      simpa using hhead
    obtain ⟨t, ht, hdrops⟩ := drop_drops h hsplit.symm
    exact .inr ⟨_, r, after, t, hsplit.symm, hid, hnot, ht, hdrops⟩

/-- The queue as a user of the lock sees it: who has the lock, and what the counters say. -/
structure WellQueued (s : ALock) : Prop where
  granted : ∃ held rest, s.requests = held ++ rest ∧ (∀ r ∈ held, r.status = .lock) ∧
    (∀ r ∈ rest, r.status = .wait) ∧
    ((∃ w, held = [w] ∧ w.type = .wlock) ∨ ∀ r ∈ held, r.type = .rlock)
  head : ∀ r ∈ s.requests.head?, r.status = .lock
  readers : ∀ before r after, s.requests = before ++ r :: after → r.type = .rlock →
    (∀ q ∈ before, q.type = .rlock) → r.status = .lock
  status : s.status = match s.requests.head? with
    | none => .free
    | some r => if r.type = .wlock then .wlocked else .rlocked
  nRlock : s.nRlock = s.requests.countP fun r => isReader r && !waits r

theorem Shape.wellQueued {s : ALock} (h : Shape s.status s.nRlock s.requests) : WellQueued s := by
  obtain ⟨nextId, status, nRlock, requests, calls⟩ := s
  cases h with
  | free =>
    refine ⟨⟨[], [], rfl, ?_, ?_, .inr ?_⟩, ?_, ?_, rfl, rfl⟩
    · exact fun r hr => absurd hr List.not_mem_nil
    · exact fun r hr => absurd hr List.not_mem_nil
    · exact fun r hr => absurd hr List.not_mem_nil
    · exact fun r hr => by cases hr
    · intro before r after hsplit
      simp at hsplit
  | @wlocked w rest hw hrest =>
    have hwheld : (isReader w && !waits w) = false := by simp [isReader, hw.1]
    have hnone : rest.countP (fun r => isReader r && !waits r) = 0 := by
      rw [List.countP_eq_zero]
      intro r hr
      simp [waits, hrest r hr]
    refine ⟨⟨[w], rest, rfl, ?_, hrest, .inl ⟨w, rfl, hw.1⟩⟩, ?_, ?_, ?_, ?_⟩
    · exact fun r hr => by rw [List.mem_singleton.mp hr]; exact hw.2
    · intro r hr
      rw [← Option.some.inj hr]
      exact hw.2
    · intro before r after hsplit hr hbefore
      cases before with
      | nil =>
        obtain ⟨rfl, -⟩ := List.cons.inj hsplit
        exact hw.2
      | cons b before =>
        obtain ⟨rfl, -⟩ := List.cons.inj hsplit
        have hwriter := hbefore w List.mem_cons_self
        rw [hw.1] at hwriter
        cases hwriter
    · show Status.wlocked = if w.type = .wlock then .wlocked else .rlocked
      rw [if_pos hw.1]
    · rw [List.countP_cons_of_neg (by simp [hwheld]), hnone]
      rfl
  | @rlocked held rest hne hheld hrest hnext =>
    have hnone : rest.countP (fun r => isReader r && !waits r) = 0 := by
      rw [List.countP_eq_zero]
      intro r hr
      simp [waits, hrest r hr]
    have hall : held.countP (fun r => isReader r && !waits r) = held.length := by
      rw [List.countP_eq_length]
      intro r hr
      simp [isReader, waits, hheld r hr]
    obtain ⟨r, held, rfl⟩ := List.exists_cons_of_ne_nil hne
    have hr := hheld r List.mem_cons_self
    refine ⟨⟨r :: held, rest, rfl, fun q hq => (hheld q hq).2, hrest,
      .inr fun q hq => (hheld q hq).1⟩, ?_, ?_, ?_, ?_⟩
    · intro q hq
      rw [← Option.some.inj hq]
      exact hr.2
    · intro before q after hsplit hq hbefore
      rcases List.append_eq_append_iff.mp hsplit with ⟨mid, rfl, htail⟩ | ⟨mid, hsame, htail⟩
      · cases mid with
        | nil =>
          have hwriter := hnext q (by rw [htail]; rfl)
          rw [hq] at hwriter
          cases hwriter
        | cons b mid =>
          have hwriter := hnext b (by rw [htail]; rfl)
          rw [hbefore b (by simp)] at hwriter
          cases hwriter
      · cases mid with
        | nil =>
          obtain rfl : rest = q :: after := htail.symm
          have hwriter := hnext q rfl
          rw [hq] at hwriter
          cases hwriter
        | cons b mid =>
          obtain ⟨rfl, -⟩ := List.cons.inj htail
          exact (hheld q (by rw [hsame]; simp)).2
    · show Status.rlocked = if r.type = .wlock then .wlocked else .rlocked
      rw [hr.1]
      rfl
    · show ((r :: held).length : Int) =
        (((r :: held) ++ rest).countP fun r => isReader r && !waits r : Nat)
      rw [List.countP_append, hall, hnone]
      simp

end Jetpack.Lock
