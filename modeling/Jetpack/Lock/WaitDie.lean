import Jetpack.Library.Transition
import Jetpack.Lock.Queue

/-! The wait-die lock. A request waits only behind conflicting requests of a larger priority value,
and is refused otherwise. -/

namespace Jetpack.Lock

open Transition

structure WaitDieALock extends ALock where
  nRInQueue : Int := 0
  nWInQueue : Int := 0
  deriving DecidableEq

inductive WdStatus
  | wait
  | die
  deriving Repr, DecidableEq

/-- `wait_die` for a writer, from the end of the queue. It stops at the last writer. -/
def waitDieWriter (priority : Int) : List LockReq → WdStatus
  | [] => .wait
  | r :: rs =>
    if r.priority ≤ priority then .die
    else if r.type = .wlock then .wait
    else waitDieWriter priority rs

/-- `wait_die` for a reader, from the end of the queue. There is a writer to compare with, since the
lock is not free for the reader. -/
def waitDieReader (priority : Int) : List LockReq → Option WdStatus
  | [] => none
  | r :: rs =>
    if r.type = .wlock then some (if priority < r.priority then .wait else .die)
    else waitDieReader priority rs

namespace WaitDieALock

variable (s : WaitDieALock)

def waitDie (type : LockType) (priority : Int) : Option WdStatus :=
  match type with
  | .wlock => some (waitDieWriter priority s.requests.reverse)
  | .rlock => waitDieReader priority s.requests.reverse

def count (type : LockType) (k : Int) : WaitDieALock :=
  match type with
  | .rlock => { s with nRInQueue := s.nRInQueue + k }
  | .wlock => { s with nWInQueue := s.nWInQueue + k }

def base (t : ALock) : WaitDieALock := { s with toALock := t }

def vlock (type : LockType) (priority : Int) : Option WaitDieALock :=
  let r : LockReq := ⟨s.nextId, priority, type, .wait⟩
  let t : ALock := { s.toALock with nextId := s.nextId + 1 }
  if s.status = .free ∨ (s.status = .rlocked ∧ type = .rlock ∧ s.nWInQueue = 0) then
    (match type with
    | .rlock => t.readAcquire s.requests [r] []
    | .wlock => t.writeAcquire s.requests r []).map (s.count type 1).base
  else
    (s.waitDie type priority).map fun
      | .wait => (s.count type 1).base { t with requests := s.requests ++ [r] }
      | .die => s.base { t with calls := s.calls ++ [.no s.nextId] }

def abort (id : Nat) : Option WaitDieALock :=
  match s.requests.find? (·.id == id) with
  | none => some s
  | some r => (s.toALock.abort id).map (s.count r.type (-1)).base

end WaitDieALock

inductive LockEvent
  | vlock (type : LockType) (priority : Int)
  | abort (id : Nat)

def WaitDieALock.step (s : WaitDieALock) : LockEvent → Option WaitDieALock
  | .vlock type priority => s.vlock type priority
  | .abort id => s.abort id

/-- A request conflicts with one ahead of it if one of them is a writer, and then waits only if its
priority value is smaller. -/
def Ordered (l : List LockReq) : Prop :=
  l.Pairwise fun a b => (a.type = .wlock ∨ b.type = .wlock) → b.status = .wait →
    b.priority < a.priority

/-- Every request is answered once, unless it waits. -/
def Answered (s : ALock) : Prop :=
  ∀ id, 0 < id → id < s.nextId → s.answered.count id + (waitingIds s.requests).count id = 1

structure WaitDieALock.Sound (s : WaitDieALock) : Prop where
  queued : WellQueued s.toALock
  nRInQueue : s.nRInQueue = s.requests.countP isReader
  nWInQueue : s.nWInQueue = s.requests.countP fun r => !isReader r
  ordered : Ordered s.requests
  answered : Answered s.toALock
  told : ∀ r ∈ s.requests, r.status = .lock → .yes r.id ∈ s.calls

/-- What the code relies on. -/
structure WaitDieALock.Inv (s : WaitDieALock) : Prop where
  shape : Shape s.status s.nRlock s.requests
  pos : 0 < s.nextId
  nRInQueue : s.nRInQueue = s.requests.countP isReader
  nWInQueue : s.nWInQueue = s.requests.countP fun r => !isReader r
  ordered : Ordered s.requests
  account : (s.answered ++ waitingIds s.requests).Perm (List.range' 1 (s.nextId - 1))
  told : ∀ r ∈ s.requests, r.status = .lock → .yes r.id ∈ s.calls

theorem answered_of_account {s : ALock}
    (h : (s.answered ++ waitingIds s.requests).Perm (List.range' 1 (s.nextId - 1))) :
    Answered s := by
  intro id hpos hlt
  have hcount := h.count_eq id
  rw [List.count_append] at hcount
  rw [hcount]
  apply List.count_eq_one_of_mem List.nodup_range'
  rw [List.mem_range'_1]
  omega

theorem WaitDieALock.Inv.sound {s : WaitDieALock} (h : s.Inv) : s.Sound :=
  ⟨h.shape.wellQueued, h.nRInQueue, h.nWInQueue, h.ordered, answered_of_account h.account, h.told⟩

theorem Ordered.grants {l l' : List LockReq} (h : Ordered l) (hg : List.Forall₂ Grants l l') :
    Ordered l' := by
  induction hg with
  | nil => exact h
  | @cons a b l l' hab hrest ih =>
    obtain ⟨hhead, htail⟩ := List.pairwise_cons.mp h
    refine List.pairwise_cons.mpr ⟨fun c hc hconf hwait => ?_, ih htail⟩
    obtain ⟨d, hd, hid, hprio, htype, hstatus⟩ := grants_mem hrest hc
    rw [hab.2.2.1, htype] at hconf
    rw [hprio, hab.2.1]
    exact hhead d hd hconf (hstatus hwait)

theorem countP_grants {l l' : List LockReq} (h : List.Forall₂ Grants l l')
    {p : LockReq → Bool} (hp : ∀ a b, Grants a b → p b = p a) : l'.countP p = l.countP p := by
  induction h with
  | nil => rfl
  | cons hab _ ih => rw [List.countP_cons, List.countP_cons, ih, hp _ _ hab]

theorem Grants.isReader {a b : LockReq} (h : Grants a b) : isReader b = isReader a := by
  rw [Lock.isReader, Lock.isReader, h.2.2.1]

/-- A writer that waits is before everything up to a writer. -/
theorem waitDieWriter_wait {priority : Int} {l : List LockReq}
    (h : waitDieWriter priority l = .wait) :
    ∃ near far, l = near ++ far ∧ (∀ r ∈ near, priority < r.priority) ∧
      (far = [] ∨ ∃ w, w ∈ near.getLast? ∧ w.type = .wlock) := by
  induction l with
  | nil => exact ⟨[], [], rfl, fun r hr => absurd hr List.not_mem_nil, .inl rfl⟩
  | cons r l ih =>
    unfold waitDieWriter at h
    split_ifs at h with hprio htype
    · refine ⟨[r], l, rfl, fun q hq => ?_, .inr ⟨r, rfl, htype⟩⟩
      rw [List.mem_singleton.mp hq]
      exact not_le.mp hprio
    · obtain ⟨near, far, rfl, hnear, hfar⟩ := ih h
      refine ⟨r :: near, far, rfl, fun q hq => ?_, hfar.imp_right fun ⟨w, hw, hwtype⟩ => ⟨w, ?_, hwtype⟩⟩
      · rcases List.mem_cons.mp hq with rfl | hq
        · exact not_le.mp hprio
        · exact hnear q hq
      · cases near with
        | nil => cases hw
        | cons q near => exact hw

theorem waitDieReader_cases {priority : Int} {l : List LockReq} :
    (waitDieReader priority l = none ∧ ∀ r ∈ l, r.type = .rlock) ∨
      ∃ near w far, l = near ++ w :: far ∧ (∀ r ∈ near, r.type = .rlock) ∧ w.type = .wlock ∧
        waitDieReader priority l = some (if priority < w.priority then .wait else .die) := by
  induction l with
  | nil => exact .inl ⟨rfl, fun r hr => absurd hr List.not_mem_nil⟩
  | cons r l ih =>
    unfold waitDieReader
    by_cases htype : r.type = .wlock
    · rw [if_pos htype]
      exact .inr ⟨[], r, l, rfl, fun q hq => absurd hq List.not_mem_nil, htype, rfl⟩
    · rw [if_neg htype]
      have hreader : r.type = .rlock := by
        cases hr : r.type with
        | rlock => rfl
        | wlock => exact absurd hr htype
      rcases ih with ⟨hnone, hall⟩ | ⟨near, w, far, rfl, hnear, hw, hres⟩
      · refine .inl ⟨hnone, fun q hq => ?_⟩
        rcases List.mem_cons.mp hq with rfl | hq
        · exact hreader
        · exact hall q hq
      · refine .inr ⟨r :: near, w, far, rfl, fun q hq => ?_, hw, hres⟩
        rcases List.mem_cons.mp hq with rfl | hq
        · exact hreader
        · exact hnear q hq

theorem issued_succ {n : Nat} (hn : 0 < n) :
    List.range' 1 (n + 1 - 1) = List.range' 1 (n - 1) ++ [n] := by
  have hsub : n + 1 - 1 = n - 1 + 1 := by omega
  have hlast : 1 + (n - 1) = n := by omega
  rw [hsub, List.range'_1_concat, hlast]

namespace WaitDieALock.Inv

variable {s : WaitDieALock}

theorem writer_waits {before after : List LockReq} {w : LockReq} (h : s.Inv)
    (hsplit : s.requests = before ++ w :: after) (hw : w.type = .wlock) (hne : before ≠ []) :
    w.status = .wait := by
  have hshape := h.shape
  rw [hsplit] at hshape
  generalize hqueue : before ++ w :: after = queue at hshape
  generalize s.status = status at hshape
  generalize s.nRlock = n at hshape
  cases hshape with
  | free => simp at hqueue
  | @wlocked v rest hv hrest =>
    obtain ⟨b, before, rfl⟩ := List.exists_cons_of_ne_nil hne
    obtain ⟨-, hrest'⟩ := List.cons.inj hqueue
    exact hrest w (hrest' ▸ by simp)
  | @rlocked held rest _ hheld hrest _ =>
    have hmem : w ∈ held ++ rest := hqueue ▸ by simp
    rcases List.mem_append.mp hmem with hm | hm
    · rw [(hheld w hm).1] at hw
      cases hw
    · exact hrest w hm

/-- Everything ahead of a writer has a larger priority value than it. -/
theorem ahead_of_writer {before after : List LockReq} {w : LockReq} (h : s.Inv)
    (hsplit : s.requests = before ++ w :: after) (hw : w.type = .wlock) :
    ∀ r ∈ before, w.priority < r.priority := by
  intro r hr
  have hord := h.ordered
  rw [hsplit] at hord
  have hpair := (List.pairwise_append.mp hord).2.2 r hr w List.mem_cons_self
  exact hpair (.inr hw) (h.writer_waits hsplit hw (List.ne_nil_of_mem hr))

/-- A request that is told to wait is before every request it conflicts with. -/
theorem waitDie_wait {type : LockType} {priority : Int} (h : s.Inv)
    (hwait : s.waitDie type priority = some .wait) :
    ∀ r ∈ s.requests, (r.type = .wlock ∨ type = .wlock) → priority < r.priority := by
  intro r hr hconf
  cases type with
  | wlock =>
    obtain ⟨near, far, hsplit, hnear, hfar⟩ := waitDieWriter_wait (Option.some.inj hwait)
    have hrev : s.requests = far.reverse ++ near.reverse := by
      rw [← List.reverse_append, ← hsplit, List.reverse_reverse]
    rw [hrev] at hr
    rcases List.mem_append.mp hr with hahead | hbehind
    · rcases hfar with rfl | ⟨w, hw, hwtype⟩
      · cases hahead
      · obtain ⟨near', rfl⟩ := List.getLast?_eq_some_iff.mp hw
        have hsplit' : s.requests = far.reverse ++ w :: near'.reverse := by
          rw [hrev]
          simp
        exact (hnear w (by simp)).trans (h.ahead_of_writer hsplit' hwtype r hahead)
    · exact hnear r (List.mem_reverse.mp hbehind)
  | rlock =>
    rcases @waitDieReader_cases priority s.requests.reverse with
      ⟨hnone, -⟩ | ⟨near, w, far, hsplit, hnear, hw, hres⟩
    · change waitDieReader priority s.requests.reverse = _ at hwait
      rw [hnone] at hwait
      cases hwait
    · change waitDieReader priority s.requests.reverse = _ at hwait
      rw [hres] at hwait
      have hlt : priority < w.priority := by
        by_contra hno
        rw [if_neg hno] at hwait
        cases hwait
      have hrev : s.requests = far.reverse ++ w :: near.reverse := by
        rw [← List.reverse_reverse s.requests, hsplit]
        simp
      have hrw : r.type = .wlock := hconf.resolve_right (by decide)
      rw [hrev] at hr
      rcases List.mem_append.mp hr with hr | hr
      · exact hlt.trans (h.ahead_of_writer hrev hw r hr)
      · rcases List.mem_cons.mp hr with rfl | hr
        · exact hlt
        · rw [hnear r (List.mem_reverse.mp hr)] at hrw
          cases hrw

theorem held_by_readers (h : s.Inv)
    (hcond : s.status = .free ∨ (s.status = .rlocked ∧ s.nWInQueue = 0)) :
    (∀ r ∈ s.requests, r.type = .rlock ∧ r.status = .lock) ∧ s.nRlock = s.requests.length ∧
      (s.requests ≠ [] → s.status = .rlocked) := by
  have hnw : s.status = .rlocked → ∀ r ∈ s.requests, r.type = .rlock := by
    intro hstatus r hr
    have hzero : s.nWInQueue = 0 := by
      rcases hcond with hfree | hread
      · rw [hfree] at hstatus
        cases hstatus
      · exact hread.2
    rw [h.nWInQueue] at hzero
    have hnone := List.countP_eq_zero.mp (Int.natCast_eq_zero.mp hzero) r hr
    simpa [isReader] using hnone
  have hshape := h.shape
  generalize hqueue : s.requests = queue at hshape hnw
  generalize hstatus : s.status = status at hshape hnw hcond
  generalize s.nRlock = n at hshape
  cases hshape with
  | free => exact ⟨fun r hr => absurd hr List.not_mem_nil, rfl, fun hne => absurd rfl hne⟩
  | wlocked =>
    rcases hcond with hfree | ⟨hread, -⟩
    · cases hfree
    · cases hread
  | @rlocked held rest hne hheld hrest hnext =>
    have hnil : rest = [] := by
      cases rest with
      | nil => rfl
      | cons q rest =>
        have hwriter := hnext q rfl
        rw [hnw rfl q (by simp)] at hwriter
        cases hwriter
    subst hnil
    rw [List.append_nil]
    exact ⟨hheld, rfl, fun _ => rfl⟩

theorem of_passes {type : LockType} {priority : Int} {u : ALock} (h : s.Inv)
    (hnew : ∀ a ∈ s.requests, a.type = .wlock ∨ type = .wlock → priority < a.priority)
    (hpass : Passes { s.toALock with nextId := s.nextId + 1 }
      (s.requests ++ [⟨s.nextId, priority, type, .wait⟩]) u) :
    WaitDieALock.Inv ((s.count type 1).base u) := by
  have hordered : Ordered (s.requests ++ [⟨s.nextId, priority, type, .wait⟩]) := by
    refine List.pairwise_append.mpr ⟨h.ordered, List.pairwise_singleton _ _, fun a ha b hb => ?_⟩
    rw [List.mem_singleton.mp hb]
    exact fun hconf _ => hnew a ha hconf
  have hreaders := countP_grants hpass.grants fun a b hab => hab.isReader
  have hwriters := countP_grants (p := fun r => !isReader r) hpass.grants
    fun a b hab => congrArg (!·) hab.isReader
  rw [List.countP_append] at hreaders hwriters
  constructor
  · exact hpass.shape
  · show 0 < u.nextId
    rw [hpass.nextId]
    exact Nat.succ_pos _
  · have hnr := h.nRInQueue
    cases type with
    | rlock =>
      show s.nRInQueue + 1 = u.requests.countP isReader
      rw [hreaders, hnr]
      simp [isReader]
    | wlock =>
      show s.nRInQueue = u.requests.countP isReader
      rw [hreaders, hnr]
      simp [isReader]
  · have hnw := h.nWInQueue
    cases type with
    | rlock =>
      show s.nWInQueue = u.requests.countP fun r => !isReader r
      rw [hwriters, hnw]
      simp [isReader]
    | wlock =>
      show s.nWInQueue + 1 = u.requests.countP fun r => !isReader r
      rw [hwriters, hnw]
      simp [isReader]
  · exact hordered.grants hpass.grants
  · show (u.answered ++ waitingIds u.requests).Perm (List.range' 1 (u.nextId - 1))
    have hnext : u.nextId = s.nextId + 1 := hpass.nextId
    rw [hnext, issued_succ h.pos]
    have haccount := hpass.account
    rw [waitingIds_append, ← List.append_assoc] at haccount
    exact haccount.trans (h.account.append_right _)
  · intro r hr hlock
    rcases hpass.told r hr hlock with hq | hyes
    · rcases List.mem_append.mp hq with hq | hq
      · exact hpass.calls _ (h.told r hq hlock)
      · rw [List.mem_singleton.mp hq] at hlock
        cases hlock
    · exact hyes

theorem waitDie_isSome (h : s.Inv) {type : LockType} (priority : Int)
    (hcond : ¬ (s.status = .free ∨ (s.status = .rlocked ∧ type = .rlock ∧ s.nWInQueue = 0))) :
    s.waitDie type priority ≠ none := by
  intro hnone
  cases type with
  | wlock => cases hnone
  | rlock =>
    have hall : ∀ r ∈ s.requests, r.type = .rlock := by
      rcases @waitDieReader_cases priority s.requests.reverse with ⟨-, hall⟩ | ⟨_, w, _, _, _, _, hres⟩
      · exact fun r hr => hall r (List.mem_reverse.mpr hr)
      · rw [show waitDieReader priority s.requests.reverse = none from hnone] at hres
        cases hres
    apply hcond
    have hzero : s.nWInQueue = 0 := by
      rw [h.nWInQueue, Int.natCast_eq_zero, List.countP_eq_zero]
      intro r hr
      simp [isReader, hall r hr]
    have hstatus := h.shape.wellQueued.status
    cases hhead : s.requests.head? with
    | none =>
      rw [hhead] at hstatus
      exact .inl hstatus
    | some r =>
      rw [hhead] at hstatus
      have hr := hall r (List.mem_of_mem_head? (Option.mem_def.mpr hhead))
      refine .inr ⟨?_, rfl, hzero⟩
      rw [hstatus]
      simp [hr]

theorem shape_push (h : s.Inv) {r : LockReq} (hr : r.status = .wait)
    (hcond : ¬ (s.status = .free ∨ (s.status = .rlocked ∧ r.type = .rlock ∧ s.nWInQueue = 0))) :
    Shape s.status s.nRlock (s.requests ++ [r]) := by
  have hshape := h.shape
  have hnw := h.nWInQueue
  generalize s.requests = queue at hshape hnw
  generalize s.status = status at hshape hcond
  generalize s.nRlock = n at hshape
  have hwait : ∀ {rest : List LockReq}, (∀ q ∈ rest, q.status = .wait) →
      ∀ q ∈ rest ++ [r], q.status = .wait := by
    intro rest hrest q hq
    rcases List.mem_append.mp hq with hq | hq
    · exact hrest q hq
    · rw [List.mem_singleton.mp hq]
      exact hr
  cases hshape with
  | free => exact absurd (.inl rfl) hcond
  | wlocked hw hrest => exact .wlocked hw (hwait hrest)
  | @rlocked held rest hne hheld hrest hnext =>
    rw [List.append_assoc]
    refine .rlocked hne hheld (hwait hrest) fun q hq => ?_
    cases rest with
    | cons b rest => exact hnext q hq
    | nil =>
      obtain rfl := Option.some.inj hq
      cases htype : r.type with
      | wlock => rfl
      | rlock =>
        exfalso
        refine hcond (.inr ⟨rfl, htype, ?_⟩)
        rw [hnw, Int.natCast_eq_zero, List.countP_eq_zero]
        intro q hq
        rw [List.append_nil] at hq
        simp [isReader, (hheld q hq).1]

theorem die (h : s.Inv) :
    WaitDieALock.Inv (s.base { s.toALock with
      nextId := s.nextId + 1, calls := s.calls ++ [.no s.nextId] }) := by
  constructor
  · exact h.shape
  · exact Nat.succ_pos _
  · exact h.nRInQueue
  · exact h.nWInQueue
  · exact h.ordered
  · have hanswered : ALock.answered { s.toALock with
        nextId := s.nextId + 1, calls := s.calls ++ [.no s.nextId] } =
        s.answered ++ [s.nextId] := by
      simp [ALock.answered, Call.answer]
    show (ALock.answered { s.toALock with
        nextId := s.nextId + 1, calls := s.calls ++ [.no s.nextId] } ++
      waitingIds s.requests).Perm (List.range' 1 (s.nextId + 1 - 1))
    rw [hanswered, issued_succ h.pos]
    have hmove : (s.answered ++ [s.nextId] ++ waitingIds s.requests).Perm
        (s.answered ++ waitingIds s.requests ++ [s.nextId]) := by
      rw [List.append_assoc, List.append_assoc]
      exact List.Perm.append_left _ List.perm_append_comm
    exact hmove.trans (h.account.append_right _)
  · exact fun r hr hlock => List.mem_append_left _ (h.told r hr hlock)

theorem vlock (h : s.Inv) (type : LockType) (priority : Int) :
    ∃ t, s.vlock type priority = some t ∧ t.nextId = s.nextId + 1 ∧ t.Inv := by
  unfold WaitDieALock.vlock
  dsimp only
  by_cases hcond : s.status = .free ∨ (s.status = .rlocked ∧ type = .rlock ∧ s.nWInQueue = 0)
  · rw [if_pos hcond]
    have hread : s.status = .free ∨ (s.status = .rlocked ∧ s.nWInQueue = 0) :=
      hcond.imp_right fun hr => ⟨hr.1, hr.2.2⟩
    obtain ⟨hheld, hn, hstatus⟩ := h.held_by_readers hread
    cases type with
    | rlock =>
      obtain ⟨u, hu, -, hpass⟩ := @ALock.acquireReaders_passes
        { s.toALock with nextId := s.nextId + 1 } s.requests [⟨s.nextId, priority, .rlock, .wait⟩]
        hheld (fun r hr => by rw [List.mem_singleton.mp hr]) hn hstatus
        fun _ => ⟨_, rfl, rfl⟩
      refine ⟨_, congrArg (Option.map _) hu, hpass.nextId,
        h.of_passes (fun a ha hconf => ?_) hpass⟩
      rw [(hheld a ha).1] at hconf
      rcases hconf with hc | hc <;> cases hc
    | wlock =>
      have hfree : s.status = .free := by
        rcases hcond with hf | hr
        · exact hf
        · cases hr.2.1
      have hnil : s.requests = [] := by
        by_contra hne
        rw [hstatus hne] at hfree
        cases hfree
      have hzero : s.nRlock = 0 := by
        rw [hn, hnil]
        rfl
      obtain ⟨u, hu, hpass⟩ := @ALock.writeAcquire_passes
        { s.toALock with nextId := s.nextId + 1 } ⟨s.nextId, priority, .wlock, .wait⟩ []
        ⟨rfl, rfl⟩ (fun r hr => absurd hr List.not_mem_nil) hzero
      have hqueue : s.requests ++ [⟨s.nextId, priority, .wlock, .wait⟩] =
          [⟨s.nextId, priority, .wlock, .wait⟩] := by
        rw [hnil]
        rfl
      rw [← hqueue] at hpass
      refine ⟨_, ?_, hpass.nextId, h.of_passes (fun a ha => ?_) hpass⟩
      · rw [hnil]
        exact congrArg (Option.map _) hu
      · rw [hnil] at ha
        cases ha
  · rw [if_neg hcond]
    cases hdie : s.waitDie type priority with
    | none => exact absurd hdie (h.waitDie_isSome priority hcond)
    | some wd =>
      cases wd with
      | wait =>
        refine ⟨_, rfl, rfl, ?_⟩
        have hshape := h.shape_push (r := ⟨s.nextId, priority, type, .wait⟩) rfl hcond
        have hpass := @passes_same { s.toALock with nextId := s.nextId + 1 } _ _ _ hshape
        exact h.of_passes (h.waitDie_wait hdie) hpass
      | die => exact ⟨_, rfl, rfl, h.die⟩

theorem drop_counts {before after l : List LockReq} {r : LockReq} {p : LockReq → Bool}
    (hg : List.Forall₂ Grants (before ++ after) l) (hp : ∀ a b, Grants a b → p b = p a) :
    ((before ++ r :: after).countP p : Int) = l.countP p + if p r then 1 else 0 := by
  rw [countP_grants hg hp, List.countP_append, List.countP_append, List.countP_cons]
  cases hpr : p r with
  | true =>
    rw [if_pos rfl, if_pos rfl]
    push_cast
    ring
  | false => simp

theorem abort (h : s.Inv) (id : Nat) : ∃ t, s.abort id = some t ∧ t.Inv := by
  unfold WaitDieALock.abort
  rcases ALock.abort_drops h.shape id with ⟨hnone, -⟩ |
    ⟨before, r, after, u, hsplit, hid, hbefore, hu, hdrops⟩
  · have hfind : s.requests.find? (·.id == id) = none := by
      rw [List.find?_eq_none]
      intro r hr
      simpa using hnone r hr
    rw [hfind]
    exact ⟨s, rfl, h⟩
  · have hfind : s.requests.find? (·.id == id) = some r := by
      rw [List.find?_eq_some_iff_append]
      refine ⟨by simpa using hid, before, after, hsplit, fun q hq => ?_⟩
      simpa using hbefore q hq
    rw [hfind, hu]
    refine ⟨_, rfl, ?_⟩
    have hreaders := @drop_counts before after u.requests r isReader hdrops.grants
      fun a b hab => hab.isReader
    have hwriters := @drop_counts before after u.requests r (fun q => !isReader q) hdrops.grants
      fun a b hab => congrArg (!·) hab.isReader
    rw [← hsplit] at hreaders hwriters
    have hnr := h.nRInQueue
    have hnw := h.nWInQueue
    constructor
    · exact hdrops.shape
    · show 0 < u.nextId
      rw [hdrops.nextId]
      exact h.pos
    · cases htype : r.type with
      | rlock =>
        show s.nRInQueue + -1 = u.requests.countP isReader
        rw [hnr, hreaders]
        simp [isReader, htype]
      | wlock =>
        show s.nRInQueue = u.requests.countP isReader
        rw [hnr, hreaders]
        simp [isReader, htype]
    · cases htype : r.type with
      | rlock =>
        show s.nWInQueue = u.requests.countP fun r => !isReader r
        rw [hnw, hwriters]
        simp [isReader, htype]
      | wlock =>
        show s.nWInQueue + -1 = u.requests.countP fun r => !isReader r
        rw [hnw, hwriters]
        simp [isReader, htype]
    · have hsub : (before ++ after).Sublist s.requests := by
        rw [hsplit]
        exact (List.Sublist.refl before).append (List.sublist_cons_self r after)
      exact Ordered.grants (h.ordered.sublist hsub) hdrops.grants
    · have haccount := hdrops.account
      rw [← hsplit] at haccount
      show (u.answered ++ waitingIds u.requests).Perm (List.range' 1 (u.nextId - 1))
      rw [hdrops.nextId]
      exact haccount.trans h.account
    · intro q hq hlock
      rcases hdrops.told q hq hlock with hmem | hyes
      · apply hdrops.calls
        refine h.told q ?_ hlock
        rw [hsplit]
        rcases List.mem_append.mp hmem with hm | hm
        · exact List.mem_append_left _ hm
        · exact List.mem_append_right _ (List.mem_cons_of_mem _ hm)
      · exact hyes

end WaitDieALock.Inv

theorem WaitDieALock.Inv.step {s : WaitDieALock} (h : s.Inv) (e : LockEvent) :
    ∃ t, s.step e = some t ∧ t.Inv := by
  cases e with
  | vlock type priority =>
    obtain ⟨t, ht, -, hinv⟩ := h.vlock type priority
    exact ⟨t, ht, hinv⟩
  | abort id => exact h.abort id

theorem waitDie_inv {s : WaitDieALock} (h : Reachable WaitDieALock.step {} s) : s.Inv := by
  refine ReachableWhere.invariant (fun s e t hs _ hstep => ?_) h ?_
  · obtain ⟨u, hu, hinv⟩ := hs.step e
    obtain rfl := Option.some.inj (hu.symm.trans hstep)
    exact hinv
  · exact ⟨.free, Nat.one_pos, rfl, rfl, .nil, .refl _, fun r hr => absurd hr List.not_mem_nil⟩

/-- In every state the queue is in order and every request is answered once, and no call fails. The
request of a `vlock` is answered or waits when the call returns. -/
theorem waitDie_sound {s : WaitDieALock} (h : Reachable WaitDieALock.step {} s) :
    s.Sound ∧ (∀ e, ∃ t, s.step e = some t) ∧
      ∀ type priority, ∃ t, s.step (.vlock type priority) = some t ∧ t.nextId = s.nextId + 1 ∧
        t.answered.count s.nextId + (waitingIds t.requests).count s.nextId = 1 := by
  have hinv := waitDie_inv h
  refine ⟨hinv.sound, fun e => ?_, fun type priority => ?_⟩
  · obtain ⟨t, ht, -⟩ := hinv.step e
    exact ⟨t, ht⟩
  · obtain ⟨t, ht, hnext, htinv⟩ := hinv.vlock type priority
    refine ⟨t, ht, hnext, htinv.sound.answered s.nextId hinv.pos ?_⟩
    rw [hnext]
    exact Nat.lt_succ_self _

/-- A reader holds the lock, a writer waits behind it and a reader of lower priority is refused. -/
theorem waitDie_sound_three :
    ∃ s : WaitDieALock, Reachable WaitDieALock.step {} s ∧
      s.requests.length = 2 ∧ s.calls = [.yes 1, .no 3] ∧
      s.Sound ∧ (∀ e, ∃ t, s.step e = some t) ∧
      ∀ type priority, ∃ t, s.step (.vlock type priority) = some t ∧ t.nextId = s.nextId + 1 ∧
        t.answered.count s.nextId + (waitingIds t.requests).count s.nextId = 1 := by
  have hrun : (runWhere WaitDieALock.step (fun _ _ => True) {}
      [.vlock .rlock 7, .vlock .wlock 3, .vlock .rlock 5]).any
      (fun s => s.requests.length == 2 && s.calls == [.yes 1, .no 3]) = true := by decide
  obtain ⟨s, hreach, hs⟩ := exists_reachableWhere hrun
  simp only [Bool.and_eq_true, beq_iff_eq] at hs
  exact ⟨s, hreach, hs.1, hs.2, waitDie_sound hreach⟩

end Jetpack.Lock
