import Jetpack.Library.Transition
import Jetpack.Lock.Queue

/-! The wound-wait lock. A request first wounds the conflicting requests that do not have a smaller
priority value. The loop of a reader does not move on from a request with a smaller one, so a call may
run forever: `none` is a call that has not finished in so many rounds of the loop, `some none` a
`verify` that does not hold. -/

namespace Jetpack.Lock

open Transition

abbrev WoundDieALock := ALock

namespace WoundDieALock

/-- `wound`: the callback of a waiting request always succeeds. Says whether the request is wounded. -/
def wound (refuses : Nat → Bool) (s : WoundDieALock) (r : LockReq) :
    Option (WoundDieALock × Bool) :=
  if r.status = .wait then some ({ s with calls := s.calls ++ [.wound r.id true, .no r.id] }, true)
  else if refuses r.id then some ({ s with calls := s.calls ++ [.wound r.id false] }, false)
  else
    let t : WoundDieALock := { s with calls := s.calls ++ [.wound r.id true] }
    match r.type with
    | .wlock => if s.status = .wlocked then some ({ t with status := .free }, true) else none
    | .rlock =>
      if s.status = .rlocked then
        some ({ t with
          nRlock := s.nRlock - 1
          status := if s.nRlock - 1 = 0 then .free else s.status }, true)
      else none

/-- The loop of `wound_die`, with the requests still to come, from the end of the queue, and those it
has left behind. -/
def woundDie (refuses : Nat → Bool) (type : LockType) (priority : Int) :
    Nat → WoundDieALock → List LockReq → List LockReq → Option (Option WoundDieALock)
  | _, s, [], behind => some (some { s with requests := behind })
  | 0, _, _ :: _, _ => none
  | fuel + 1, s, r :: ahead, behind =>
    let wounds : Bool := match type with
      | .wlock => decide (priority ≤ r.priority)
      | .rlock => r.type == .wlock
    if type = .rlock ∧ r.priority < priority then
      -- `continue`, without a step of the iterator
      woundDie refuses type priority fuel s (r :: ahead) behind
    else if wounds then
      match s.wound refuses r with
      | none => some none
      | some (t, true) => woundDie refuses type priority fuel t ahead behind
      | some (t, false) => woundDie refuses type priority fuel t ahead (r :: behind)
    else woundDie refuses type priority fuel s ahead (r :: behind)

def collect (newAcquired : Bool) :
    List LockReq → Option (List LockReq × List LockReq × List LockReq)
  | [] => some ([], [], [])
  | r :: rs =>
    if r.status = .lock then
      if r.type = .rlock ∧ newAcquired = false then
        (collect newAcquired rs).map fun c => (r :: c.1, c.2)
      else none
    else if r.type = .rlock then (collect true rs).map fun c => (c.1, r :: c.2.1, c.2.2)
    else some ([], [], r :: rs)

/-- What `vlock` does once the new request is in the queue. -/
def pass (s : WoundDieALock) : Option WoundDieALock :=
  match s.requests with
  | [] => none
  | front :: rest =>
    match s.status with
    | .free =>
      if front.type = .wlock then s.writeAcquire [] front rest else s.acquireReaders [] (front :: rest)
    | .rlocked =>
      if front.type = .rlock ∧ front.status = .lock then do
        let (held, reqs, rest) ← collect false (front :: rest)
        s.readAcquire held reqs rest
      else none
    | .wlocked => if front.type = .wlock ∧ front.status = .lock then some s else none

def vlock (fuel : Nat) (s : WoundDieALock) (type : LockType) (priority : Int)
    (refuses : Nat → Bool) : Option (Option WoundDieALock) := do
  let t ← woundDie refuses type priority fuel { s with nextId := s.nextId + 1 } s.requests.reverse []
  return t.bind fun t =>
    pass { t with requests := t.requests ++ [⟨s.nextId, priority, type, .wait⟩] }

end WoundDieALock

/-- `refuses` gives the answers of the wound callbacks of granted requests. -/
inductive WoundEvent
  | vlock (type : LockType) (priority : Int) (refuses : Nat → Bool) (fuel : Nat)
  | abort (id : Nat)

/-- A call that has finished, and in which no `verify` has failed. -/
def WoundDieALock.step (s : WoundDieALock) : WoundEvent → Option WoundDieALock
  | .vlock type priority refuses fuel => (WoundDieALock.vlock fuel s type priority refuses).join
  | .abort id => s.abort id

/-- No reader comes to a queue with a request of a smaller priority value. -/
def NoReaderBehind (s : WoundDieALock) : WoundEvent → Prop
  | .vlock type priority _ _ => type = .rlock → ∀ r ∈ s.requests, priority ≤ r.priority
  | .abort _ => True

/-- The queue while requests are wounded: a free lock may have requests that wait. -/
inductive Wounded : Status → Int → List LockReq → Prop
  | free {rest : List LockReq} (hrest : ∀ r ∈ rest, r.status = .wait) : Wounded .free 0 rest
  | wlocked {w : LockReq} {rest : List LockReq} (hw : w.type = .wlock ∧ w.status = .lock)
      (hrest : ∀ r ∈ rest, r.status = .wait) : Wounded .wlocked 0 (w :: rest)
  | rlocked {held rest : List LockReq} (hne : held ≠ [])
      (hheld : ∀ r ∈ held, r.type = .rlock ∧ r.status = .lock)
      (hrest : ∀ r ∈ rest, r.status = .wait) : Wounded .rlocked held.length (held ++ rest)

theorem Shape.wounded {status : Status} {n : Int} {l : List LockReq} (h : Shape status n l) :
    Wounded status n l := by
  cases h with
  | free => exact .free fun r hr => absurd hr List.not_mem_nil
  | wlocked hw hrest => exact .wlocked hw hrest
  | rlocked hne hheld hrest _ => exact .rlocked hne hheld hrest

theorem mem_without {before after : List LockReq} {r q : LockReq} (h : q ∈ before ++ after) :
    q ∈ before ++ r :: after := by
  rcases List.mem_append.mp h with h | h
  · exact List.mem_append_left _ h
  · exact List.mem_append_right _ (List.mem_cons_of_mem _ h)

theorem Wounded.without {status : Status} {n : Int} {before after : List LockReq} {r : LockReq}
    (h : Wounded status n (before ++ r :: after)) (hr : r.status = .wait) :
    Wounded status n (before ++ after) := by
  generalize hqueue : before ++ r :: after = queue at h
  cases h with
  | free hrest =>
    subst hqueue
    exact .free fun q hq => hrest q (mem_without hq)
  | @wlocked w rest hw hrest =>
    cases before with
    | nil =>
      obtain ⟨rfl, -⟩ := List.cons.inj hqueue
      rw [hw.2] at hr
      cases hr
    | cons b before =>
      obtain ⟨rfl, rfl⟩ := List.cons.inj hqueue
      exact .wlocked hw fun q hq => hrest q (mem_without hq)
  | @rlocked held rest hne hheld hrest =>
    rcases List.append_eq_append_iff.mp hqueue with ⟨mid, rfl, htail⟩ | ⟨mid, rfl, rfl⟩
    · cases mid with
      | nil =>
        obtain rfl : rest = r :: after := htail.symm
        rw [List.append_nil] at hne hheld ⊢
        exact .rlocked hne hheld fun q hq => hrest q (List.mem_cons_of_mem _ hq)
      | cons b mid =>
        obtain ⟨rfl, -⟩ := List.cons.inj htail
        rw [(hheld r (by simp)).2] at hr
        cases hr
    · rw [List.append_assoc]
      exact .rlocked hne hheld fun q hq => hrest q (mem_without hq)

namespace WoundDieALock

theorem wound_granted {refuses : Nat → Bool} {s : WoundDieALock} {before after : List LockReq}
    {r : LockReq} (h : Wounded s.status s.nRlock (before ++ r :: after)) (hr : r.status = .lock)
    (hok : refuses r.id = false) :
    ∃ t, s.wound refuses r = some (t, true) ∧ t.nextId = s.nextId ∧
      Wounded t.status t.nRlock (before ++ after) := by
  have hlock : r.status ≠ .wait := by
    rw [hr]
    decide
  have hfalse : ¬ refuses r.id = true := by
    rw [hok]
    decide
  unfold wound
  rw [if_neg hlock, if_neg hfalse]
  dsimp only
  generalize hqueue : before ++ r :: after = queue at h
  generalize hstatus : s.status = status at h
  generalize hn : s.nRlock = n at h
  cases h with
  | free hrest =>
    rw [hrest r (hqueue ▸ by simp)] at hr
    cases hr
  | @wlocked w rest hw hrest =>
    cases before with
    | nil =>
      obtain ⟨rfl, rfl⟩ := List.cons.inj hqueue
      rw [hw.1]
      exact ⟨_, rfl, rfl, .free hrest⟩
    | cons b before =>
      obtain ⟨-, rfl⟩ := List.cons.inj hqueue
      rw [hrest r (by simp)] at hr
      cases hr
  | @rlocked held rest hne hheld hrest =>
    rcases List.append_eq_append_iff.mp hqueue with ⟨mid, rfl, htail⟩ | ⟨mid, rfl, rfl⟩
    · cases mid with
      | nil =>
        obtain rfl : rest = r :: after := htail.symm
        rw [hrest r List.mem_cons_self] at hr
        cases hr
      | cons b mid =>
        obtain ⟨rfl, rfl⟩ := List.cons.inj htail
        rw [(hheld r (by simp)).1]
        have hlen : ((before ++ r :: mid).length : Int) - 1 = (before ++ mid).length := by
          simp
          omega
        refine ⟨_, rfl, rfl, ?_⟩
        show Wounded (if ((before ++ r :: mid).length : Int) - 1 = 0 then .free else .rlocked)
          (((before ++ r :: mid).length : Int) - 1) (before ++ (mid ++ rest))
        rw [hlen]
        by_cases hnil : before ++ mid = []
        · obtain ⟨rfl, rfl⟩ := List.append_eq_nil_iff.mp hnil
          exact .free hrest
        · have hpos : ¬ ((before ++ mid).length : Int) = 0 := by
            intro hzero
            exact hnil (List.length_eq_zero_iff.mp (by omega))
          rw [if_neg hpos, ← List.append_assoc]
          exact .rlocked hnil (fun q hq => hheld q (mem_without hq)) hrest
    · rw [hrest r (by simp)] at hr
      cases hr

/-- What one wound does: the request is wounded and may be taken out, or it has the lock and refuses. -/
theorem wound_cases {refuses : Nat → Bool} {s : WoundDieALock} {before after : List LockReq}
    {r : LockReq} (h : Wounded s.status s.nRlock (before ++ r :: after)) :
    (∃ t, s.wound refuses r = some (t, true) ∧ t.nextId = s.nextId ∧
        Wounded t.status t.nRlock (before ++ after)) ∨
      ∃ t, s.wound refuses r = some (t, false) ∧ t.nextId = s.nextId ∧
        (r.status = .lock ∧ refuses r.id = true) ∧
        Wounded t.status t.nRlock (before ++ r :: after) := by
  cases hr : r.status with
  | wait =>
    left
    have hwound : s.wound refuses r =
        some ({ s with calls := s.calls ++ [.wound r.id true, .no r.id] }, true) := by
      unfold wound
      rw [if_pos hr]
    exact ⟨_, hwound, rfl, h.without hr⟩
  | lock =>
    cases hrefuse : refuses r.id with
    | false =>
      left
      exact wound_granted h hr hrefuse
    | true =>
      right
      have hlock : r.status ≠ .wait := by
        rw [hr]
        decide
      have hwound : s.wound refuses r =
          some ({ s with calls := s.calls ++ [.wound r.id false] }, false) := by
        unfold wound
        rw [if_neg hlock, if_pos hrefuse]
      exact ⟨_, hwound, rfl, ⟨rfl, rfl⟩, h⟩

/-- A request that conflicts with the new one and does not go before it stays only if it has the lock
and refuses. -/
def Stays (refuses : Nat → Bool) (type : LockType) (priority : Int) (r : LockReq) : Prop :=
  (type = .wlock ∨ r.type = .wlock) → priority ≤ r.priority →
    r.status = .lock ∧ refuses r.id = true

theorem woundDie_cons {refuses : Nat → Bool} {type : LockType} {priority : Int} {fuel : Nat}
    {s : WoundDieALock} {r : LockReq} {ahead behind : List LockReq}
    (hr : ¬ (type = .rlock ∧ r.priority < priority)) :
    woundDie refuses type priority (fuel + 1) s (r :: ahead) behind =
      if (type = .wlock ∨ r.type = .wlock) ∧ priority ≤ r.priority then
        match s.wound refuses r with
        | none => some none
        | some (t, true) => woundDie refuses type priority fuel t ahead behind
        | some (t, false) => woundDie refuses type priority fuel t ahead (r :: behind)
      else woundDie refuses type priority fuel s ahead (r :: behind) := by
  rw [woundDie.eq_def]
  dsimp only
  rw [if_neg hr]
  cases type with
  | wlock => simp
  | rlock =>
    have hle : priority ≤ r.priority := by
      by_contra hlt
      exact hr ⟨rfl, by omega⟩
    simp [hle]

/-- When the loop ends, no `verify` has failed, and the lock is left to requests that stay. -/
theorem woundDie_keeps {refuses : Nat → Bool} {type : LockType} {priority : Int} (fuel : Nat) :
    ∀ (s : WoundDieALock) (ahead behind : List LockReq) (x : Option WoundDieALock),
    Wounded s.status s.nRlock (ahead.reverse ++ behind) →
    woundDie refuses type priority fuel s ahead behind = some x →
    ∃ t, x = some t ∧ t.nextId = s.nextId ∧ Wounded t.status t.nRlock t.requests ∧
      ∀ r ∈ t.requests, r ∈ behind ∨ Stays refuses type priority r := by
  induction fuel with
  | zero =>
    intro s ahead behind x h hx
    cases ahead with
    | nil => exact ⟨_, (Option.some.inj hx).symm, rfl, h, fun r hr => .inl hr⟩
    | cons r ahead => cases hx
  | succ fuel ih =>
    intro s ahead behind x h hx
    cases ahead with
    | nil => exact ⟨_, (Option.some.inj hx).symm, rfl, h, fun r hr => .inl hr⟩
    | cons r ahead =>
      by_cases hmoves : type = .rlock ∧ r.priority < priority
      · rw [woundDie.eq_def] at hx
        dsimp only at hx
        rw [if_pos hmoves] at hx
        exact ih s (r :: ahead) behind x h hx
      · rw [List.reverse_cons, List.append_assoc] at h
        have hkept : ∀ u : WoundDieALock, u.nextId = s.nextId → Stays refuses type priority r →
            Wounded u.status u.nRlock (ahead.reverse ++ ([r] ++ behind)) →
            woundDie refuses type priority fuel u ahead (r :: behind) = some x →
            ∃ t, x = some t ∧ t.nextId = s.nextId ∧ Wounded t.status t.nRlock t.requests ∧
              ∀ q ∈ t.requests, q ∈ behind ∨ Stays refuses type priority q := by
          intro u hnext hstays hu hux
          obtain ⟨t, ht, hid, hw, hleft⟩ := ih u ahead (r :: behind) x hu hux
          refine ⟨t, ht, hid.trans hnext, hw, fun q hq => ?_⟩
          rcases hleft q hq with hq | hq
          · rcases List.mem_cons.mp hq with rfl | hq
            · exact .inr hstays
            · exact .inl hq
          · exact .inr hq
        rw [woundDie_cons hmoves] at hx
        by_cases hwounds : (type = .wlock ∨ r.type = .wlock) ∧ priority ≤ r.priority
        · rw [if_pos hwounds] at hx
          rcases @wound_cases refuses s ahead.reverse behind r h with
            ⟨u, hu, hnext, hw⟩ | ⟨u, hu, hnext, hrefuse, hw⟩
          · rw [hu] at hx
            obtain ⟨t, ht, hid, hw', hleft⟩ := ih u ahead behind x hw hx
            exact ⟨t, ht, hid.trans hnext, hw', hleft⟩
          · rw [hu] at hx
            exact hkept u hnext (fun _ _ => hrefuse) hw hx
        · rw [if_neg hwounds] at hx
          exact hkept s rfl (fun hconf hle => absurd ⟨hconf, hle⟩ hwounds) h hx

/-- One round for each request is enough, unless a reader meets one of a smaller priority value. -/
theorem woundDie_finishes {refuses : Nat → Bool} {type : LockType} {priority : Int}
    (ahead : List LockReq) : ∀ (fuel : Nat) (s : WoundDieALock) (behind : List LockReq),
    (type = .rlock → ∀ r ∈ ahead, priority ≤ r.priority) → ahead.length ≤ fuel →
    ∃ x, woundDie refuses type priority fuel s ahead behind = some x := by
  induction ahead with
  | nil =>
    intro fuel s behind _ _
    cases fuel <;> exact ⟨_, rfl⟩
  | cons r ahead ih =>
    intro fuel s behind hbehind hfuel
    rw [List.length_cons] at hfuel
    obtain ⟨fuel, rfl⟩ : ∃ n, fuel = n + 1 := Nat.exists_eq_succ_of_ne_zero (by omega)
    have hrounds := fun u left => ih fuel u left
      (fun htype q hq => hbehind htype q (List.mem_cons_of_mem r hq)) (by omega)
    have hmoves : ¬ (type = .rlock ∧ r.priority < priority) := by
      rintro ⟨htype, hlt⟩
      have hle := hbehind htype r List.mem_cons_self
      omega
    rw [woundDie_cons hmoves]
    by_cases hwounds : (type = .wlock ∨ r.type = .wlock) ∧ priority ≤ r.priority
    · rw [if_pos hwounds]
      match s.wound refuses r with
      | none => exact ⟨none, rfl⟩
      | some (u, true) => exact hrounds u behind
      | some (u, false) => exact hrounds u (r :: behind)
    · rw [if_neg hwounds]
      exact hrounds s (r :: behind)

theorem woundDie_stuck {refuses : Nat → Bool} {priority : Int} (fuel : Nat) :
    ∀ (s t : WoundDieALock) (ahead behind : List LockReq), (∃ r ∈ ahead, r.priority < priority) →
    woundDie refuses .rlock priority fuel s ahead behind ≠ some (some t) := by
  induction fuel with
  | zero =>
    rintro s t ahead behind ⟨r, hr, -⟩ ht
    cases ahead with
    | nil => cases hr
    | cons q ahead => cases ht
  | succ fuel ih =>
    rintro s t ahead behind ⟨r, hr, hlt⟩ ht
    cases ahead with
    | nil => cases hr
    | cons q ahead =>
      by_cases hq : q.priority < priority
      · rw [woundDie.eq_def] at ht
        dsimp only at ht
        rw [if_pos ⟨rfl, hq⟩] at ht
        exact ih s t (q :: ahead) behind ⟨q, List.mem_cons_self, hq⟩ ht
      · have hahead : ∃ r ∈ ahead, r.priority < priority := by
          rcases List.mem_cons.mp hr with rfl | hr
          · exact absurd hlt hq
          · exact ⟨r, hr, hlt⟩
        rw [woundDie_cons (fun hsmall => hq hsmall.2)] at ht
        by_cases hwounds : (LockType.rlock = .wlock ∨ q.type = .wlock) ∧ priority ≤ q.priority
        · rw [if_pos hwounds] at ht
          match hwound : s.wound refuses q with
          | none =>
            rw [hwound] at ht
            cases ht
          | some (u, true) =>
            rw [hwound] at ht
            exact ih u t ahead behind hahead ht
          | some (u, false) =>
            rw [hwound] at ht
            exact ih u t ahead (q :: behind) hahead ht
        · rw [if_neg hwounds] at ht
          exact ih s t ahead (q :: behind) hahead ht

theorem collect_waiting {rest : List LockReq} (h : ∀ r ∈ rest, r.status = .wait)
    (newAcquired : Bool) :
    collect newAcquired rest = some ([], rest.takeWhile isReader, rest.dropWhile isReader) := by
  induction rest generalizing newAcquired with
  | nil => rfl
  | cons r rest ih =>
    have hr : r.status ≠ .lock := by
      rw [h r List.mem_cons_self]
      decide
    rw [collect, if_neg hr]
    cases htype : r.type with
    | rlock =>
      have hreader : isReader r = true := by simp [isReader, htype]
      rw [if_pos rfl, ih (fun q hq => h q (List.mem_cons_of_mem r hq)) true,
        List.takeWhile_cons_of_pos hreader, List.dropWhile_cons_of_pos hreader]
      rfl
    | wlock =>
      have hreader : ¬ isReader r = true := by simp [isReader, htype]
      rw [List.takeWhile_cons_of_neg hreader, List.dropWhile_cons_of_neg hreader]
      rfl

theorem collect_held {held rest : List LockReq}
    (hheld : ∀ r ∈ held, r.type = .rlock ∧ r.status = .lock) (hrest : ∀ r ∈ rest, r.status = .wait) :
    collect false (held ++ rest) =
      some (held, rest.takeWhile isReader, rest.dropWhile isReader) := by
  induction held with
  | nil => exact collect_waiting hrest false
  | cons r held ih =>
    have hr := hheld r List.mem_cons_self
    rw [List.cons_append, collect, if_pos hr.2, if_pos ⟨hr.1, rfl⟩,
      ih fun q hq => hheld q (List.mem_cons_of_mem r hq)]
    rfl

theorem pass_passes {s : WoundDieALock} {queue : List LockReq} {r : LockReq}
    (h : Wounded s.status s.nRlock queue) (hr : r.status = .wait) (hs : s.requests = queue ++ [r]) :
    ∃ t, pass s = some t ∧ Passes s (queue ++ [r]) t := by
  obtain ⟨nextId, status, n, requests, calls⟩ := s
  obtain rfl : requests = queue ++ [r] := hs
  have hlast : ∀ rest : List LockReq, (∀ q ∈ rest, q.status = .wait) →
      ∀ q ∈ rest ++ [r], q.status = .wait := by
    intro rest hrest q hq
    rcases List.mem_append.mp hq with hq | hq
    · exact hrest q hq
    · rw [List.mem_singleton.mp hq]
      exact hr
  cases h with
  | free hrest =>
    have hwait := hlast queue hrest
    obtain ⟨front, rest, hfront⟩ : ∃ front rest, queue ++ [r] = front :: rest :=
      List.exists_cons_of_ne_nil (by simp)
    rw [hfront] at hwait ⊢
    unfold pass
    dsimp only
    split_ifs with htype
    · exact ALock.writeAcquire_passes ⟨htype, hwait front List.mem_cons_self⟩
        (fun q hq => hwait q (List.mem_cons_of_mem front hq)) rfl
    · have hreader : front.type = .rlock := by
        cases hfronttype : front.type with
        | rlock => rfl
        | wlock => exact absurd hfronttype htype
      obtain ⟨t, ht, -, hpass⟩ := @ALock.acquireReaders_passes
        (⟨nextId, .free, 0, front :: rest, calls⟩ : ALock) [] (front :: rest) (fun q hq => by cases hq)
        hwait rfl (fun h => absurd rfl h) (fun _ => ⟨front, rfl, hreader⟩)
      exact ⟨t, ht, hpass⟩
  | @wlocked w rest hw hrest =>
    refine ⟨_, if_pos hw, ?_⟩
    exact passes_same (.wlocked hw (hlast rest hrest))
  | @rlocked held rest hne hheld hrest =>
    obtain ⟨t, ht, -, hpass⟩ := @ALock.acquireReaders_passes
      (⟨nextId, .rlocked, held.length, held ++ rest ++ [r], calls⟩ : ALock) held (rest ++ [r]) hheld
      (hlast rest hrest) rfl (fun _ => rfl) (fun h => absurd h hne)
    rw [List.append_assoc] at ht hpass ⊢
    have hcollect := collect_held hheld (hlast rest hrest)
    obtain ⟨front, held, rfl⟩ := List.exists_cons_of_ne_nil hne
    refine ⟨t, ?_, hpass⟩
    unfold pass
    dsimp only [List.cons_append] at hcollect ⊢
    rw [if_pos (hheld front List.mem_cons_self), hcollect]
    exact ht

def NotBehind (s t : WoundDieALock) (type : LockType) (priority : Int) (refuses : Nat → Bool) : Prop :=
  ∃ before r, t.requests = before ++ [r] ∧ (r.id = s.nextId ∧ r.priority = priority ∧ r.type = type) ∧
    ∀ q ∈ before, Stays refuses type priority q

theorem grants_concat {l l' : List LockReq} {a : LockReq}
    (h : List.Forall₂ Grants (l ++ [a]) l') :
    ∃ before r, l' = before ++ [r] ∧ List.Forall₂ Grants l before ∧ Grants a r := by
  induction l generalizing l' with
  | nil =>
    obtain ⟨b, bs, hab, hbs, rfl⟩ := List.forall₂_cons_left_iff.mp h
    obtain rfl := List.forall₂_nil_left_iff.mp hbs
    exact ⟨[], b, rfl, .nil, hab⟩
  | cons q l ih =>
    obtain ⟨b, bs, hqb, hbs, rfl⟩ := List.forall₂_cons_left_iff.mp h
    obtain ⟨before, r, rfl, hbefore, hr⟩ := ih hbs
    exact ⟨b :: before, r, rfl, .cons hqb hbefore, hr⟩

theorem vlock_keeps {fuel : Nat} {s : WoundDieALock} {type : LockType} {priority : Int}
    {refuses : Nat → Bool} {x : Option WoundDieALock} (h : Wounded s.status s.nRlock s.requests)
    (hx : vlock fuel s type priority refuses = some x) :
    ∃ t, x = some t ∧ Shape t.status t.nRlock t.requests ∧
      NotBehind s t type priority refuses := by
  unfold vlock at hx
  obtain ⟨y, hy, hx⟩ := Option.bind_eq_some_iff.mp hx
  have hqueue : Wounded s.status s.nRlock (s.requests.reverse.reverse ++ []) := by
    rwa [List.reverse_reverse, List.append_nil]
  obtain ⟨u, rfl, hnext, hu, hleft⟩ := woundDie_keeps fuel
    { s with nextId := s.nextId + 1 } _ _ y hqueue hy
  obtain ⟨t, ht, hpass⟩ := @pass_passes
    { u with requests := u.requests ++ [⟨s.nextId, priority, type, .wait⟩] } u.requests
    ⟨s.nextId, priority, type, .wait⟩ hu rfl rfl
  have htx : x = some t := by
    rw [← ht]
    exact (Option.some.inj hx).symm
  refine ⟨t, htx, hpass.shape, ?_⟩
  obtain ⟨before, r, hsplit, hbefore, hid, hpriority, htype, -⟩ := grants_concat hpass.grants
  refine ⟨before, r, hsplit, ⟨hid, hpriority, htype⟩, fun q hq hconf hle => ?_⟩
  obtain ⟨a, ha, haid, haprio, hatype, hastatus⟩ := grants_mem hbefore hq
  rw [hatype] at hconf
  rw [haprio] at hle
  rcases hleft a ha with hnil | hstays
  · cases hnil
  · obtain ⟨hlock, hrefuse⟩ := hstays hconf hle
    refine ⟨?_, by rwa [haid]⟩
    cases hq : q.status with
    | lock => rfl
    | wait =>
      rw [hastatus hq] at hlock
      cases hlock

/-- What the lock promises of a state: the queue is in order, an abort fails no `verify`, and neither
does a call, which puts the new request behind requests that stay. -/
structure Sound (s : WoundDieALock) : Prop where
  queued : WellQueued s
  abort : ∀ id, ∃ t, s.abort id = some t
  vlock : ∀ type priority refuses fuel x, vlock fuel s type priority refuses = some x →
    ∃ t, x = some t ∧ NotBehind s t type priority refuses

theorem abort_shape {s : WoundDieALock} (h : Shape s.status s.nRlock s.requests) (id : Nat) :
    ∃ t, s.abort id = some t ∧ Shape t.status t.nRlock t.requests := by
  rcases ALock.abort_drops h id with ⟨-, habort⟩ | ⟨_, _, _, t, -, -, -, habort, hdrops⟩
  · exact ⟨s, habort, h⟩
  · exact ⟨t, habort, hdrops.shape⟩

theorem shape_step (s : WoundDieALock) (e : WoundEvent) (t : WoundDieALock)
    (h : Shape s.status s.nRlock s.requests) (hstep : step s e = some t) :
    Shape t.status t.nRlock t.requests := by
  cases e with
  | vlock type priority refuses fuel =>
    have hx : vlock fuel s type priority refuses = some (some t) := Option.join_eq_some_iff.mp hstep
    obtain ⟨u, hu, hshape, -⟩ := vlock_keeps h.wounded hx
    obtain rfl := Option.some.inj hu
    exact hshape
  | abort id =>
    obtain ⟨u, hu, hshape⟩ := abort_shape h id
    have htu : some u = some t := hu.symm.trans hstep
    obtain rfl := Option.some.inj htu
    exact hshape

theorem Sound.of_shape {s : WoundDieALock} (h : Shape s.status s.nRlock s.requests) : s.Sound where
  queued := h.wellQueued
  abort id := by
    obtain ⟨t, ht, -⟩ := abort_shape h id
    exact ⟨t, ht⟩
  vlock type priority refuses fuel x hx := by
    obtain ⟨t, ht, -, hbehind⟩ := vlock_keeps h.wounded hx
    exact ⟨t, ht, hbehind⟩

theorem vlock_finishes {s : WoundDieALock} {type : LockType} {priority : Int}
    {refuses : Nat → Bool} (h : Shape s.status s.nRlock s.requests)
    (hbehind : type = .rlock → ∀ r ∈ s.requests, priority ≤ r.priority) :
    ∃ t, vlock s.requests.length s type priority refuses = some (some t) := by
  have hahead : type = .rlock → ∀ r ∈ s.requests.reverse, priority ≤ r.priority :=
    fun htype r hr => hbehind htype r (List.mem_reverse.mp hr)
  obtain ⟨y, hy⟩ := @woundDie_finishes refuses type priority s.requests.reverse s.requests.length
    { s with nextId := s.nextId + 1 } [] hahead (le_of_eq List.length_reverse)
  obtain ⟨x, hx⟩ : ∃ x, vlock s.requests.length s type priority refuses = some x := by
    unfold vlock
    rw [hy]
    exact ⟨_, rfl⟩
  obtain ⟨t, rfl, -⟩ := vlock_keeps h.wounded hx
  exact ⟨t, hx⟩

/-- A call ends unless it is a reader's that finds a request of a smaller priority value. -/
theorem woundWait_sound {s : WoundDieALock} (hs : ReachableWhere step NoReaderBehind {} s) :
    s.Sound ∧ ∀ type priority refuses,
      (∃ fuel t, vlock fuel s type priority refuses = some (some t)) ↔
        (type = .rlock → ∀ r ∈ s.requests, priority ≤ r.priority) := by
  have hshape : Shape s.status s.nRlock s.requests :=
    hs.invariant (fun s e t h _ hstep => shape_step s e t h hstep) .free
  refine ⟨.of_shape hshape, fun type priority refuses => ⟨?_, ?_⟩⟩
  · rintro ⟨fuel, t, ht⟩ rfl r hr
    by_contra hlt
    obtain ⟨y, hy, hyt⟩ := Option.bind_eq_some_iff.mp ht
    cases y with
    | none => cases hyt
    | some v =>
      exact woundDie_stuck fuel _ v _ _ ⟨r, List.mem_reverse.mpr hr, by omega⟩ hy
  · intro hbehind
    obtain ⟨t, ht⟩ := vlock_finishes hshape hbehind
    exact ⟨_, t, ht⟩

/-- A writer has the lock and refuses, a second one waits, and a reader goes before both of them. -/
theorem woundWait_sound_three :
    ∃ s : WoundDieALock, ReachableWhere step NoReaderBehind {} s ∧
      s.requests = [⟨1, 2, .wlock, .lock⟩, ⟨2, 3, .wlock, .wait⟩] ∧ s.Sound ∧
      ∃ fuel t, vlock fuel s .rlock 1 (fun _ => true) = some (some t) := by
  have hfirst : StepWhere step NoReaderBehind {}
      { nextId := 2, status := .wlocked, requests := [⟨1, 2, .wlock, .lock⟩], calls := [.yes 1] } :=
    ⟨.vlock .wlock 2 (fun _ => true) 0, (fun h => by cases h), rfl⟩
  have hsecond : StepWhere step NoReaderBehind
      { nextId := 2, status := .wlocked, requests := [⟨1, 2, .wlock, .lock⟩], calls := [.yes 1] }
      { nextId := 3, status := .wlocked, requests := [⟨1, 2, .wlock, .lock⟩, ⟨2, 3, .wlock, .wait⟩],
        calls := [.yes 1] } :=
    ⟨.vlock .wlock 3 (fun _ => true) 1, (fun h => by cases h), rfl⟩
  have hreach := Relation.ReflTransGen.tail (.tail .refl hfirst) hsecond
  obtain ⟨hsound, hfinishes⟩ := woundWait_sound hreach
  refine ⟨_, hreach, rfl, hsound, (hfinishes .rlock 1 fun _ => true).mpr fun _ r hr => ?_⟩
  fin_cases hr <;> decide

/-- A writer of priority value 1 has the lock when a reader of priority value 2 comes. -/
theorem reader_waits_forever :
    ∃ s : WoundDieALock, Reachable step {} s ∧
      ∀ fuel, vlock fuel s .rlock 2 (fun _ => false) = none := by
  refine ⟨{ nextId := 2, status := .wlocked, requests := [⟨1, 1, .wlock, .lock⟩], calls := [.yes 1] },
    .tail .refl ⟨.vlock .wlock 1 (fun _ => false) 0, trivial, rfl⟩, fun fuel => ?_⟩
  have hloop : ∀ (fuel : Nat) (s : WoundDieALock),
      woundDie (fun _ => false) .rlock 2 fuel s [⟨1, 1, .wlock, .lock⟩] [] = none := by
    intro fuel s
    induction fuel with
    | zero => rfl
    | succ fuel ih => exact ih
  exact congrArg (Option.bind · _) (hloop fuel _)

end WoundDieALock

end Jetpack.Lock
