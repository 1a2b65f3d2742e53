import Jetpack.Reactor.Loop
import Mathlib.Data.List.Nodup

/-! Every call that blocks is woken up once, for a reason. -/

namespace Jetpack.Reactor

def Late (call : Call) : Prop :=
  ∃ deadline now, call.deadline = some deadline ∧ call.missedAt = some now ∧ deadline < now

/-- What the status of an event says about the lists it is in and about the call waiting for it. -/
def EventOk (s : State) (e : Nat) (ev : Event) : Prop :=
  match ev.waiter with
  | none =>
    e ∉ s.readyEvents ∧ e ∉ s.batch ∧
      (ev.status = .done ∨ ((ev.status = .init ∨ ev.status = .timeout) ∧ e ∉ s.timeoutEvents))
  | some k =>
    ∃ call, s.calls[k]? = some call ∧ call.ev = e ∧ call.coro = ev.coro ∧ call.returned = [] ∧
      s.coros ev.coro = .paused ∧
      ((ev.status = .wait ∧ ev.kind.isReady = false ∧ e ∉ s.readyEvents ∧ e ∉ s.batch ∧
          call.wasReady = false ∧ call.missedAt = none ∧
          ((call.deadline = none ∧ e ∉ s.timeoutEvents) ∨
            (call.deadline = some ev.wakeupTime ∧ 0 < ev.wakeupTime ∧ e ∈ s.timeoutEvents))) ∨
        (ev.status = .ready ∧ call.wasReady = true ∧ (e ∈ s.readyEvents ∨ e ∈ s.batch)) ∨
        (ev.status = .timeout ∧ Late call ∧ e ∈ s.batch ∧ e ∉ s.readyEvents ∧
          e ∉ s.timeoutEvents))

def CallOk (s : State) (k : Nat) (call : Call) : Prop :=
  (call.returned = [] ∧ ∃ ev, s.events call.ev = some ev ∧ ev.waiter = some k) ∨
    (call.returned = [.done] ∧ call.wasReady = true) ∨ (call.returned = [.timeout] ∧ Late call)

structure Inv (s : State) : Prop where
  running : s.aborted = false
  events : ∀ e ev, s.events e = some ev → EventOk s e ev
  known : ∀ e, e ∈ s.readyEvents ∨ e ∈ s.batch ∨ e ∈ s.timeoutEvents → ∃ ev, s.events e = some ev
  queue : (s.readyEvents ++ s.batch).Nodup
  timeouts : s.timeoutEvents.Nodup
  single : ∀ e e' ev ev', s.events e = some ev → s.events e' = some ev' →
    ev.waiter.isSome = true → ev'.waiter.isSome = true → ev.coro = ev'.coro → e = e'
  calls : ∀ k call, s.calls[k]? = some call → CallOk s k call
  stack : s.stack.Nodup ∧ ∀ c ∈ s.stack, s.coros c = .running
  idle : ∀ check, s.phase = .polling check → s.batch = []

@[simp]
theorem State.setEvent_self (s : State) (e : Nat) (ev : Event) :
    (s.setEvent e ev).events e = some ev :=
  Function.update_self ..

theorem State.setEvent_of_ne (s : State) (ev : Event) {e e' : Nat} (hne : e' ≠ e) :
    (s.setEvent e ev).events e' = s.events e' :=
  Function.update_of_ne hne ..

theorem State.getElem?_updateCall_of_ne (s : State) (f : Call → Call) {w : Option Nat} {k : Nat}
    (hne : w ≠ some k) : (s.updateCall w f).calls[k]? = s.calls[k]? := by
  cases w with
  | none => rfl
  | some j =>
    have hjk : j ≠ k := fun heq => hne (congrArg some heq)
    simp [updateCall, hjk]

theorem State.getElem?_updateCall_self {s : State} (f : Call → Call) {k : Nat} {call : Call}
    (hc : s.calls[k]? = some call) : (s.updateCall (some k) f).calls[k]? = some (f call) := by
  simp [updateCall, hc]

theorem EventOk.frame {s s' : State} {e : Nat} {ev : Event} (h : EventOk s e ev)
    (hcalls : ∀ k, ev.waiter = some k → s'.calls[k]? = s.calls[k]?)
    (hcoro : ∀ k, ev.waiter = some k → s.coros ev.coro = .paused → s'.coros ev.coro = .paused)
    (hready : e ∈ s'.readyEvents ↔ e ∈ s.readyEvents) (hbatch : e ∈ s'.batch ↔ e ∈ s.batch)
    (htimeouts : e ∈ s'.timeoutEvents ↔ e ∈ s.timeoutEvents) : EventOk s' e ev := by
  unfold EventOk at h ⊢
  cases hw : ev.waiter with
  | none =>
    simp only [hw] at h ⊢
    rw [hready, hbatch, htimeouts]
    exact h
  | some k =>
    simp only [hw] at h ⊢
    obtain ⟨call, hc, hev, hco, hret, hpaused, hcase⟩ := h
    refine ⟨call, by rw [hcalls k hw, hc], hev, hco, hret, hcoro k hw hpaused, ?_⟩
    rw [hready, hbatch, htimeouts]
    exact hcase

theorem EventOk.call {s : State} {e k : Nat} {ev : Event} (h : EventOk s e ev)
    (hw : ev.waiter = some k) :
    ∃ call, s.calls[k]? = some call ∧ call.ev = e ∧ call.coro = ev.coro ∧ call.returned = [] ∧
      s.coros ev.coro = .paused := by
  unfold EventOk at h
  simp only [hw] at h
  obtain ⟨call, hc, hev, hco, hret, hpaused, -⟩ := h
  exact ⟨call, hc, hev, hco, hret, hpaused⟩

namespace Inv

variable {s s' : State} {e : Nat} {ev ev' : Event}

theorem waiter_ne (h : Inv s) {e' : Nat} (he : s.events e = some ev)
    (he' : s.events e' = some ev') (hne : e' ≠ e) {k : Nat} (hk : ev'.waiter = some k) :
    ev.waiter ≠ some k := by
  intro hw
  obtain ⟨call, hc, hev, -⟩ := (h.events e ev he).call hw
  obtain ⟨call', hc', hev', -⟩ := (h.events e' ev' he').call hk
  rw [hc] at hc'
  cases hc'
  exact hne (hev'.symm.trans hev)

theorem of_update (h : Inv s) (he : s.events e = some ev)
    (hevents : s'.events = Function.update s.events e (some ev')) (hab : s'.aborted = false)
    (hwaiter : ev'.waiter = ev.waiter) (hcoro : ev'.coro = ev.coro)
    (hcalls : ∀ k, ev.waiter ≠ some k → s'.calls[k]? = s.calls[k]?)
    (hcoros : s'.coros = s.coros) (hstack : s'.stack = s.stack)
    (hready : ∀ e', e' ≠ e → (e' ∈ s'.readyEvents ↔ e' ∈ s.readyEvents))
    (hbatch : ∀ e', e' ≠ e → (e' ∈ s'.batch ↔ e' ∈ s.batch))
    (htimeouts : ∀ e', e' ≠ e → (e' ∈ s'.timeoutEvents ↔ e' ∈ s.timeoutEvents))
    (hok : EventOk s' e ev') (hqueue : (s'.readyEvents ++ s'.batch).Nodup)
    (hnodup : s'.timeoutEvents.Nodup) (hidle : ∀ check, s'.phase = .polling check → s'.batch = []) :
    Inv s' := by
  have hself : s'.events e = some ev' := by rw [hevents, Function.update_self]
  have hother : ∀ e', e' ≠ e → s'.events e' = s.events e' := by
    intro e' hne
    rw [hevents, Function.update_of_ne hne]
  have hback : ∀ e' x, s'.events e' = some x →
      ∃ y, s.events e' = some y ∧ x.waiter = y.waiter ∧ x.coro = y.coro := by
    intro e' x hx
    by_cases hne : e' = e
    · subst hne
      rw [hself] at hx
      cases hx
      exact ⟨ev, he, hwaiter, hcoro⟩
    · rw [hother e' hne] at hx
      exact ⟨x, hx, rfl, rfl⟩
  refine ⟨hab, ?_, ?_, hqueue, hnodup, ?_, ?_, ?_, hidle⟩
  · intro e' x hx
    by_cases hne : e' = e
    · subst hne
      rw [hself] at hx
      cases hx
      exact hok
    · rw [hother e' hne] at hx
      refine (h.events e' x hx).frame ?_ ?_ (hready e' hne) (hbatch e' hne) (htimeouts e' hne)
      · intro k hk
        exact hcalls k (h.waiter_ne he hx hne hk)
      · intro k hk
        rw [hcoros]
        exact id
  · intro e' hin
    by_cases hne : e' = e
    · exact ⟨ev', by rw [hne, hself]⟩
    · rw [hother e' hne]
      apply h.known e'
      rw [← hready e' hne, ← hbatch e' hne, ← htimeouts e' hne]
      exact hin
  · intro e₁ e₂ x₁ x₂ h₁ h₂ hw₁ hw₂ hc
    obtain ⟨y₁, hy₁, hyw₁, hyc₁⟩ := hback e₁ x₁ h₁
    obtain ⟨y₂, hy₂, hyw₂, hyc₂⟩ := hback e₂ x₂ h₂
    exact h.single e₁ e₂ y₁ y₂ hy₁ hy₂ (hyw₁ ▸ hw₁) (hyw₂ ▸ hw₂) (by rw [← hyc₁, ← hyc₂, hc])
  · intro k call hc
    by_cases hk : ev.waiter = some k
    · obtain ⟨call', hc', hev', -, hret', -⟩ := hok.call (hwaiter.trans hk)
      rw [hc] at hc'
      cases hc'
      exact .inl ⟨hret', ev', by rw [hev', hself], hwaiter.trans hk⟩
    · rw [hcalls k hk] at hc
      rcases h.calls k call hc with ⟨hret, x, hx, hxw⟩ | hrest
      · refine .inl ⟨hret, x, ?_, hxw⟩
        by_cases hne : call.ev = e
        · rw [hne, he] at hx
          cases hx
          exact absurd hxw hk
        · rw [hother _ hne]
          exact hx
      · exact .inr hrest
  · rw [hstack, hcoros]
    exact h.stack

theorem setEvent (h : Inv s) (he : s.events e = some ev) (hwaiter : ev'.waiter = ev.waiter)
    (hcoro : ev'.coro = ev.coro) (hok : EventOk s e ev') : Inv (s.setEvent e ev') := by
  have hok' : EventOk (s.setEvent e ev') e ev' := hok
  exact h.of_update he rfl h.running hwaiter hcoro (fun _ _ => rfl) rfl rfl (fun _ _ => Iff.rfl)
    (fun _ _ => Iff.rfl) (fun _ _ => Iff.rfl) hok' h.queue h.timeouts h.idle

end Inv

/-- A wake-up that is already under way does not depend on the kind. -/
theorem EventOk.withKind {s : State} {e : Nat} {ev : Event} {kind : Kind} (h : EventOk s e ev)
    (hkind : ev.status = .wait → kind.isReady = false) : EventOk s e { ev with kind } := by
  unfold EventOk at h ⊢
  cases hw : ev.waiter with
  | none =>
    simp only [hw] at h ⊢
    exact h
  | some k =>
    simp only [hw] at h ⊢
    obtain ⟨call, hc, hev, hco, hret, hpaused, hcase⟩ := h
    refine ⟨call, hc, hev, hco, hret, hpaused, ?_⟩
    rcases hcase with ⟨hs, -, hrest⟩ | hcase
    · exact .inl ⟨hs, hkind hs, hrest⟩
    · exact .inr hcase

theorem EventOk.of_wait {s : State} {e : Nat} {ev : Event} (h : EventOk s e ev)
    (hs : ev.status = .wait) :
    ∃ k call, ev.waiter = some k ∧ s.calls[k]? = some call ∧ call.ev = e ∧
      call.coro = ev.coro ∧ call.returned = [] ∧ s.coros ev.coro = .paused ∧
      e ∉ s.readyEvents ∧ e ∉ s.batch ∧
      ((call.deadline = none ∧ e ∉ s.timeoutEvents) ∨
        (call.deadline = some ev.wakeupTime ∧ 0 < ev.wakeupTime ∧ e ∈ s.timeoutEvents)) := by
  unfold EventOk at h
  cases hw : ev.waiter with
  | none => simp [hw, hs] at h
  | some k =>
    simp only [hw] at h
    obtain ⟨call, hc, hev, hco, hret, hpaused, hcase⟩ := h
    rcases hcase with ⟨-, -, hready, hbatch, -, -, hrest⟩ | ⟨hs', -⟩ | ⟨hs', -⟩
    · exact ⟨k, call, rfl, hc, hev, hco, hret, hpaused, hready, hbatch, hrest⟩
    · rw [hs] at hs'
      cases hs'
    · rw [hs] at hs'
      cases hs'

theorem EventOk.of_done {s : State} {e : Nat} {ev : Event} (h : EventOk s e ev)
    (hs : ev.status = .done) : ev.waiter = none ∧ e ∉ s.readyEvents ∧ e ∉ s.batch := by
  unfold EventOk at h
  cases hw : ev.waiter with
  | none =>
    simp only [hw] at h
    exact ⟨rfl, h.1, h.2.1⟩
  | some k =>
    simp only [hw] at h
    obtain ⟨call, -, -, -, -, -, hcase⟩ := h
    rcases hcase with ⟨hs', -⟩ | ⟨hs', -⟩ | ⟨hs', -⟩ <;>
    · rw [hs] at hs'
      cases hs'

theorem EventOk.of_free {s : State} {e : Nat} {ev : Event} (h : EventOk s e ev)
    (hw : ev.waiter = none) (hs : ev.status ≠ .done) :
    e ∉ s.readyEvents ∧ e ∉ s.batch ∧ e ∉ s.timeoutEvents := by
  unfold EventOk at h
  simp only [hw] at h
  obtain ⟨hready, hbatch, hdone | ⟨-, htimeout⟩⟩ := h
  · exact absurd hdone hs
  · exact ⟨hready, hbatch, htimeout⟩

namespace State

variable {s : State} {e : Nat} {ev : Event}

theorem ready_inv (h : Inv s) (he : s.events e = some ev) (hs : ev.status = .wait) (kind : Kind) :
    Inv { (s.setEvent e { ev with kind, status := .ready }).updateCall ev.waiter
        fun call => { call with wasReady := true } with
      readyEvents := s.readyEvents ++ [e] } := by
  obtain ⟨k, call, hw, hc, hev, hco, hret, hpaused, hready, hbatch, -⟩ := (h.events e ev he).of_wait hs
  rw [hw]
  refine h.of_update he rfl h.running hw.symm rfl ?_ rfl rfl ?_ (fun _ _ => Iff.rfl)
    (fun _ _ => Iff.rfl) ?_ ?_ h.timeouts h.idle
  · intro k' hk'
    exact getElem?_updateCall_of_ne (s.setEvent e _) _ (hw ▸ hk')
  · intro e' hne
    simp [hne]
  · unfold EventOk
    simp only
    refine ⟨{ call with wasReady := true }, ?_, hev, hco, hret, hpaused, .inr (.inl ⟨by simp, rfl, ?_⟩)⟩
    · exact getElem?_updateCall_self (s := s.setEvent e _) _ hc
    · exact .inl (List.mem_append_right _ (List.mem_singleton_self e))
  · show ((s.readyEvents ++ [e]) ++ s.batch).Nodup
    rw [List.append_assoc, List.singleton_append]
    exact List.nodup_middle.mpr
      (List.nodup_cons.mpr ⟨by simp [hready, hbatch], h.queue⟩)

/-- `Test` may move an event from `DONE` back to `INIT` only when it is not in the list of
timeouts. -/
theorem test_inv (h : Inv s) (he : s.events e = some ev) (kind : Kind)
    (hreset : kind.isReady = false → ev.status = .done → e ∉ s.timeoutEvents) :
    Inv (s.test e { ev with kind }) := by
  have hok := h.events e ev he
  unfold test
  by_cases hkind : kind.isReady = true
  · simp only [hkind, if_true]
    split
    · next hs =>
      obtain ⟨k, call, hw, hc, hev, hco, hret, hpaused, -⟩ := hok.of_wait hs
      rw [if_neg (by simp [hpaused])]
      exact ready_inv h he hs kind
    · next hs => exact h.setEvent he rfl rfl (hok.withKind fun hwait => absurd hwait hs)
  · have hnot : kind.isReady = false := by simpa using hkind
    simp only [hnot, Bool.false_eq_true, if_false]
    split
    · next hs =>
      obtain ⟨hw, hready, hbatch⟩ := hok.of_done hs
      refine h.setEvent he rfl rfl ?_
      unfold EventOk
      simp only [hw]
      exact ⟨hready, hbatch, .inr ⟨by simp, hreset hnot hs⟩⟩
    · exact h.setEvent he rfl rfl (hok.withKind fun _ => hnot)

theorem signal_inv {s' : State} {sig : Signal} (h : Inv s) (hsignal : s.signal e sig = some s')
    (hreset : ∀ ev kind, s.events e = some ev → ev.kind.signal sig = some kind →
      sig ≠ .clear → kind.isReady = false → ev.status = .done → e ∉ s.timeoutEvents) : Inv s' := by
  unfold signal at hsignal
  obtain ⟨ev, he, hsignal⟩ := Option.bind_eq_some_iff.mp hsignal
  obtain ⟨kind, hkind, hsignal⟩ := Option.bind_eq_some_iff.mp hsignal
  cases hsignal
  by_cases hclear : sig = .clear
  · rw [if_pos hclear]
    have hnot : kind.isReady = false := by
      rw [hclear] at hkind
      cases hk : ev.kind <;> simp [hk, Kind.signal] at hkind
      subst hkind
      rfl
    exact h.setEvent he rfl rfl ((h.events e ev he).withKind fun _ => hnot)
  · rw [if_neg hclear]
    exact test_inv h he kind (hreset ev kind he hkind hclear)

theorem coro_ne {c k : Nat} (h : Inv s) (hc : s.coros c = .running) (he : s.events e = some ev)
    (hw : ev.waiter = some k) : ev.coro ≠ c := by
  obtain ⟨call, -, -, -, -, hpaused⟩ := (h.events e ev he).call hw
  intro heq
  rw [heq, hc] at hpaused
  cases hpaused

/-- The call of `Wait` that blocks the coroutine `c`. -/
theorem block_inv {c wakeupTime : Nat} {rest timeoutEvents : List Nat} {deadline : Option Nat}
    (h : Inv s) (hstack : s.stack = c :: rest) (he : s.events e = some ev) (hw : ev.waiter = none)
    (hs : ev.status ≠ .done) (hkind : ev.kind.isReady = false)
    (htime : (deadline = none ∧ timeoutEvents = s.timeoutEvents) ∨
      (deadline = some wakeupTime ∧ 0 < wakeupTime ∧ timeoutEvents = s.timeoutEvents ++ [e])) :
    Inv { s.setEvent e ⟨ev.kind, .wait, wakeupTime, c, some s.calls.length⟩ with
      timeoutEvents
      calls := s.calls ++ [⟨e, c, deadline, false, none, []⟩]
      coros := Function.update s.coros c .paused
      stack := s.stack.tail } := by
  obtain ⟨hready, hbatch, htimeout⟩ := (h.events e ev he).of_free hw hs
  obtain ⟨hnodup, hrunning⟩ := h.stack
  rw [hstack] at hnodup hrunning
  have hc : s.coros c = .running := hrunning c List.mem_cons_self
  have hmem : ∀ e', e' ≠ e → (e' ∈ timeoutEvents ↔ e' ∈ s.timeoutEvents) := by
    intro e' hne
    rcases htime with ⟨-, rfl⟩ | ⟨-, -, rfl⟩
    · rfl
    · simp [hne]
  have hother : ∀ e' x, e' ≠ e →
      (s.setEvent e ⟨ev.kind, .wait, wakeupTime, c, some s.calls.length⟩).events e' = some x →
      s.events e' = some x := by
    intro e' x hne hx
    rwa [setEvent_of_ne s _ hne] at hx
  refine ⟨h.running, ?_, ?_, h.queue, ?_, ?_, ?_, ?_, h.idle⟩
  · intro e' x hx
    by_cases hne : e' = e
    · subst hne
      have hx' : x = ⟨ev.kind, .wait, wakeupTime, c, some s.calls.length⟩ := by
        simpa using hx.symm
      subst hx'
      refine ⟨⟨e', c, deadline, false, none, []⟩, by simp, rfl, rfl, rfl,
        Function.update_self .., .inl ⟨rfl, hkind, hready, hbatch, rfl, rfl, ?_⟩⟩
      rcases htime with ⟨hd, ht⟩ | ⟨hd, hpos, ht⟩
      · exact .inl ⟨hd, by simpa [ht] using htimeout⟩
      · exact .inr ⟨hd, hpos, by simp [ht]⟩
    · have hx' := hother e' x hne hx
      refine (h.events e' x hx').frame ?_ ?_ Iff.rfl Iff.rfl (hmem e' hne)
      · intro k hk
        obtain ⟨call, hcall, -⟩ := (h.events e' x hx').call hk
        have hlt : k < s.calls.length := (List.getElem?_eq_some_iff.mp hcall).1
        exact List.getElem?_append_left hlt
      · intro k hk hpaused
        show Function.update s.coros c .paused x.coro = .paused
        by_cases hxc : x.coro = c
        · rw [hxc, Function.update_self]
        · rw [Function.update_of_ne hxc]
          exact hpaused
  · intro e' hin
    by_cases hne : e' = e
    · exact ⟨_, by rw [hne, setEvent_self]⟩
    · rw [setEvent_of_ne s _ hne]
      have hin' : e' ∈ s.readyEvents ∨ e' ∈ s.batch ∨ e' ∈ timeoutEvents := hin
      rw [hmem e' hne] at hin'
      exact h.known e' hin'
  · show timeoutEvents.Nodup
    rcases htime with ⟨-, rfl⟩ | ⟨-, -, rfl⟩
    · exact h.timeouts
    · exact List.nodup_append_comm.mp (List.nodup_cons.mpr ⟨htimeout, h.timeouts⟩)
  · -- the coroutine runs, so that no other event has it as its waiter
    intro e₁ e₂ x₁ x₂ h₁ h₂ hw₁ hw₂ hco
    by_cases hne₁ : e₁ = e <;> by_cases hne₂ : e₂ = e
    · rw [hne₁, hne₂]
    · subst hne₁
      have hx₁ : x₁ = ⟨ev.kind, .wait, wakeupTime, c, some s.calls.length⟩ := by
        simpa using h₁.symm
      obtain ⟨k, hk⟩ := Option.isSome_iff_exists.mp hw₂
      exact absurd (hco.symm.trans (congrArg Event.coro hx₁)) (coro_ne h hc (hother e₂ x₂ hne₂ h₂) hk)
    · subst hne₂
      have hx₂ : x₂ = ⟨ev.kind, .wait, wakeupTime, c, some s.calls.length⟩ := by
        simpa using h₂.symm
      obtain ⟨k, hk⟩ := Option.isSome_iff_exists.mp hw₁
      exact absurd (hco.trans (congrArg Event.coro hx₂)) (coro_ne h hc (hother e₁ x₁ hne₁ h₁) hk)
    · exact h.single e₁ e₂ x₁ x₂ (hother e₁ x₁ hne₁ h₁) (hother e₂ x₂ hne₂ h₂) hw₁ hw₂ hco
  · intro k call hcall
    have hcall' : (s.calls ++ [(⟨e, c, deadline, false, none, []⟩ : Call)])[k]? = some call := hcall
    by_cases hk : k < s.calls.length
    · rw [List.getElem?_append_left hk] at hcall'
      rcases h.calls k call hcall' with ⟨hret, x, hx, hxw⟩ | hrest
      · have hne : call.ev ≠ e := by
          intro heq
          rw [heq, he] at hx
          cases hx
          rw [hw] at hxw
          cases hxw
        exact .inl ⟨hret, x, by rw [setEvent_of_ne s _ hne, hx], hxw⟩
      · exact .inr hrest
    · have hlen : k = s.calls.length := by
        have hlt := (List.getElem?_eq_some_iff.mp hcall').1
        simp at hlt
        omega
      subst hlen
      have hnew : call = ⟨e, c, deadline, false, none, []⟩ := by simpa using hcall'.symm
      subst hnew
      exact .inl ⟨rfl, _, setEvent_self .., rfl⟩
  · show s.stack.tail.Nodup ∧ ∀ c' ∈ s.stack.tail, Function.update s.coros c .paused c' = .running
    rw [hstack, List.tail_cons]
    obtain ⟨hnot, hrest⟩ := List.nodup_cons.mp hnodup
    refine ⟨hrest, ?_⟩
    intro c' hc'
    have hne : c' ≠ c := fun heq => hnot (heq ▸ hc')
    rw [Function.update_of_ne hne]
    exact hrunning c' (List.mem_cons_of_mem c hc')

theorem wait_inv {c timeout now : Nat} {rest : List Nat} (h : Inv s)
    (hstack : s.stack = c :: rest) (he : s.events e = some ev) (hw : ev.waiter = none) :
    Inv (s.wait c e ev timeout now) := by
  unfold wait
  by_cases hdone : ev.status = .done
  · rw [if_pos hdone]
    exact h
  rw [if_neg hdone]
  by_cases hkind : ev.kind.isReady = true
  · rw [if_pos hkind]
    obtain ⟨hready, hbatch, -⟩ := (h.events e ev he).of_free hw hdone
    refine h.setEvent he rfl rfl ?_
    unfold EventOk
    simp only [hw]
    exact ⟨hready, hbatch, .inl (by simp)⟩
  · rw [if_neg hkind]
    have hnot : ev.kind.isReady = false := by simpa using hkind
    by_cases htimeout : 0 < timeout
    · simp only [htimeout, if_true]
      exact block_inv h hstack he hw hdone hnot (.inr ⟨rfl, by omega, rfl⟩)
    · simp only [htimeout, if_false]
      exact block_inv h hstack he hw hdone hnot (.inl ⟨rfl, rfl⟩)

theorem expire_inv {now : Nat} {kept es : List Nat} (h : Inv s)
    (hlist : s.timeoutEvents = kept ++ e :: es) (hphase : ∀ check, s.phase ≠ .polling check)
    (he : s.events e = some ev) (hs : ev.status = .wait) (hlate : ev.wakeupTime < now) :
    Inv (s.expire now e ev (kept ++ es)) := by
  obtain ⟨k, call, hw, hc, hev, hco, hret, hpaused, hready, hbatch, htime⟩ :=
    (h.events e ev he).of_wait hs
  have hin : e ∈ s.timeoutEvents := by
    rw [hlist]
    exact List.mem_append_right _ List.mem_cons_self
  have hdeadline : call.deadline = some ev.wakeupTime := by
    rcases htime with ⟨-, hnot⟩ | ⟨hd, -⟩
    · exact absurd hin hnot
    · exact hd
  have hnodup : (e :: (kept ++ es)).Nodup := by
    have htimeouts := h.timeouts
    rw [hlist] at htimeouts
    exact List.nodup_middle.mp htimeouts
  obtain ⟨hout, hrest⟩ := List.nodup_cons.mp hnodup
  unfold expire
  rw [hw]
  refine h.of_update he rfl h.running hw.symm rfl ?_ rfl rfl (fun _ _ => Iff.rfl) ?_ ?_ ?_ ?_ hrest ?_
  · intro k' hk'
    exact getElem?_updateCall_of_ne (s.setEvent e _) _ (hw ▸ hk')
  · intro e' hne
    simp [hne]
  · intro e' hne
    simp [hlist, hne]
  · unfold EventOk
    simp only
    refine ⟨_, getElem?_updateCall_self (s := s.setEvent e _) _ hc, hev, hco, hret, hpaused, .inr ?_⟩
    by_cases hkind : ev.kind.isReady = true
    · exact .inl ⟨by simp [hkind], by simp [hkind], .inr (by simp)⟩
    · refine .inr ⟨by simp [hkind], ⟨ev.wakeupTime, now, hdeadline, by simp [hkind], hlate⟩,
        by simp, hready, hout⟩
  · show (s.readyEvents ++ (s.batch ++ [e])).Nodup
    rw [← List.append_assoc]
    exact List.nodup_append_comm.mp (List.nodup_cons.mpr ⟨by simp [hready, hbatch], h.queue⟩)
  · intro check hpolling
    exact absurd hpolling (hphase check)

theorem drop_inv {kept es : List Nat} (h : Inv s) (hlist : s.timeoutEvents = kept ++ e :: es)
    (he : s.events e = some ev) (hs : ev.status = .ready ∨ ev.status = .done) :
    Inv { s with timeoutEvents := kept ++ es } := by
  have hnodup : (e :: (kept ++ es)).Nodup := by
    have htimeouts := h.timeouts
    rw [hlist] at htimeouts
    exact List.nodup_middle.mp htimeouts
  have hok := h.events e ev he
  refine h.of_update he (Function.update_eq_self_iff.mpr he.symm).symm h.running rfl rfl
    (fun _ _ => rfl) rfl rfl (fun _ _ => Iff.rfl) (fun _ _ => Iff.rfl) ?_ ?_ h.queue
    (List.nodup_cons.mp hnodup).2 h.idle
  · intro e' hne
    simp [hlist, hne]
  · unfold EventOk at hok ⊢
    rcases hs with hs | hs
    · cases hw : ev.waiter with
      | none => simp [hw, hs] at hok
      | some k => simpa [hw, hs] using hok
    · cases hw : ev.waiter with
      | none => simpa [hw, hs] using hok
      | some k => simp [hw, hs] at hok

/-- The loop of `CheckTimeout` does not abort, and no event that stays in the list is late. -/
theorem checkTimeout_inv (now : Nat) (es : List Nat) (s : State) (kept : List Nat) (h : Inv s)
    (hlist : s.timeoutEvents = kept ++ es) (hphase : ∀ check, s.phase ≠ .polling check)
    (hkept : ∀ e ∈ kept, ∀ ev, s.events e = some ev → now ≤ ev.wakeupTime) :
    Inv (s.checkTimeout now kept es) ∧
      ∀ e ∈ (s.checkTimeout now kept es).timeoutEvents, ∀ ev,
        (s.checkTimeout now kept es).events e = some ev → now ≤ ev.wakeupTime := by
  induction es generalizing s kept with
  | nil =>
    refine ⟨h, ?_⟩
    rw [List.append_nil] at hlist
    intro e he
    exact hkept e (hlist ▸ he)
  | cons e es ih =>
    have hin : e ∈ s.timeoutEvents := by
      rw [hlist]
      exact List.mem_append_right _ List.mem_cons_self
    obtain ⟨ev, he⟩ := h.known e (.inr (.inr hin))
    have hok := h.events e ev he
    unfold checkTimeout
    simp only [he]
    cases hs : ev.status with
    | init =>
      unfold EventOk at hok
      cases hw : ev.waiter <;> simp [hw, hs, hin] at hok
    | timeout =>
      unfold EventOk at hok
      cases hw : ev.waiter <;> simp [hw, hs, hin] at hok
    | wait =>
      obtain ⟨k, call, -, -, -, -, -, -, -, -, htime⟩ := hok.of_wait hs
      have hpos : 0 < ev.wakeupTime := by
        rcases htime with ⟨-, hnot⟩ | ⟨-, hpos, -⟩
        · exact absurd hin hnot
        · exact hpos
      simp only [Nat.ne_of_gt hpos, if_false]
      by_cases hlate : ev.wakeupTime < now
      · rw [if_pos hlate]
        refine ih _ kept (expire_inv h hlist hphase he hs hlate) rfl hphase ?_
        intro e' he' ev' hev'
        have hne : e' ≠ e := by
          intro heq
          have htimeouts := h.timeouts
          rw [hlist] at htimeouts
          exact (List.nodup_cons.mp (List.nodup_middle.mp htimeouts)).1
            (List.mem_append_left _ (heq ▸ he'))
        rw [show (s.expire now e ev (kept ++ es)).events e' = s.events e' from
          setEvent_of_ne s _ hne] at hev'
        exact hkept e' he' ev' hev'
      · rw [if_neg hlate]
        refine ih s (kept ++ [e]) h (by simp [hlist]) hphase ?_
        intro e' he' ev' hev'
        rcases List.mem_append.mp he' with hold | hnew
        · exact hkept e' hold ev' hev'
        · rw [List.mem_singleton.mp hnew, he] at hev'
          cases hev'
          omega
    | ready => exact ih _ kept (drop_inv h hlist he (.inl hs)) rfl hphase hkept
    | done => exact ih _ kept (drop_inv h hlist he (.inr hs)) rfl hphase hkept

theorem takeReady_inv (check : Bool) (h : Inv s) (hbatch : s.batch = []) :
    Inv { s with batch := s.readyEvents, readyEvents := [], phase := .looping check } ∧
      ∀ e ∈ s.readyEvents, ∃ ev, s.events e = some ev ∧ ev.status = .ready := by
  refine ⟨⟨h.running, ?_, ?_, ?_, h.timeouts, h.single, h.calls, h.stack, ?_⟩, ?_⟩
  · intro e ev he
    have hok := h.events e ev he
    unfold EventOk at hok ⊢
    rw [hbatch] at hok
    cases hw : ev.waiter with
    | none =>
      simp only [hw] at hok ⊢
      exact ⟨List.not_mem_nil, hok.1, hok.2.2⟩
    | some k =>
      simp only [hw] at hok ⊢
      obtain ⟨call, hc, hev, hco, hret, hpaused, hcase⟩ := hok
      refine ⟨call, hc, hev, hco, hret, hpaused, ?_⟩
      rcases hcase with ⟨hs, hkind, hready, -, hrest⟩ | ⟨hs, hwas, hin⟩ | ⟨-, -, hin, -⟩
      · exact .inl ⟨hs, hkind, List.not_mem_nil, hready, hrest⟩
      · exact .inr (.inl ⟨hs, hwas, .inr (hin.resolve_right List.not_mem_nil)⟩)
      · exact absurd hin List.not_mem_nil
  · intro e hin
    apply h.known e
    rcases hin with hin | hin | hin
    · exact absurd hin List.not_mem_nil
    · exact .inl hin
    · exact .inr (.inr hin)
  · have hqueue := h.queue
    rw [hbatch, List.append_nil] at hqueue
    exact hqueue
  · intro check' hpolling
    cases hpolling
  · intro e hin
    obtain ⟨ev, he⟩ := h.known e (.inl hin)
    refine ⟨ev, he, ?_⟩
    have hok := h.events e ev he
    unfold EventOk at hok
    cases hw : ev.waiter with
    | none => simp [hw, hin] at hok
    | some k =>
      simp only [hw] at hok
      obtain ⟨call, -, -, -, -, -, hcase⟩ := hok
      rcases hcase with ⟨-, -, hnot, -⟩ | ⟨hs, -⟩ | ⟨-, -, -, hnot, -⟩
      · exact absurd hin hnot
      · exact hs
      · exact absurd hin hnot

theorem startRound_inv (check : Bool) (now : Nat) (h : Inv s) (hbatch : s.batch = []) :
    Inv (s.startRound check now) ∧
      (check = true → ∀ e ∈ (s.startRound check now).timeoutEvents, ∀ ev,
        (s.startRound check now).events e = some ev → now ≤ ev.wakeupTime) := by
  obtain ⟨htake, hready⟩ := takeReady_inv check h hbatch
  have hall : (s.readyEvents.all fun e => (s.events e).any fun ev => ev.status == .ready) = true := by
    rw [List.all_eq_true]
    intro e hin
    obtain ⟨ev, he, hs⟩ := hready e hin
    simp [he, hs]
  unfold startRound
  simp only [hall, if_true]
  cases check with
  | false => exact ⟨htake, fun hcheck => absurd hcheck (by decide)⟩
  | true =>
    obtain ⟨hinv, hlate⟩ := checkTimeout_inv now s.timeoutEvents _ [] htake rfl
      (fun _ hpolling => by cases hpolling) (fun e hin => absurd hin List.not_mem_nil)
    exact ⟨hinv, fun _ => hlate⟩

theorem batch_head {rest : List Nat} (h : Inv s) (hbatch : s.batch = e :: rest)
    (he : s.events e = some ev) :
    ∃ k call, ev.waiter = some k ∧ s.calls[k]? = some call ∧ call.ev = e ∧ call.returned = [] ∧
      s.coros ev.coro = .paused ∧
      ((ev.status = .ready ∧ call.wasReady = true) ∨
        (ev.status = .timeout ∧ Late call ∧ e ∉ s.timeoutEvents)) := by
  have hin : e ∈ s.batch := by
    rw [hbatch]
    exact List.mem_cons_self
  have hok := h.events e ev he
  unfold EventOk at hok
  cases hw : ev.waiter with
  | none => simp [hw, hin] at hok
  | some k =>
    simp only [hw] at hok
    obtain ⟨call, hc, hev, -, hret, hpaused, hcase⟩ := hok
    refine ⟨k, call, rfl, hc, hev, hret, hpaused, ?_⟩
    rcases hcase with ⟨-, -, -, hnot, -⟩ | ⟨hs, hwas, -⟩ | ⟨hs, hlate, -, -, hout⟩
    · exact absurd hin hnot
    · exact .inl ⟨hs, hwas⟩
    · exact .inr ⟨hs, hlate, hout⟩

theorem continueCoro_calls {k : Nat} {rest : List Nat} {call : Call} {status : Status}
    (hw : ev.waiter = some k) (hc : s.calls[k]? = some call) (hret : call.returned = []) :
    ({ s with batch := rest }.continueCoro e ev status).calls[k]? =
      some { call with returned := [status] } := by
  have hupdate := getElem?_updateCall_self
    (s := { s with batch := rest }.setEvent e { ev with status, waiter := none })
    (fun call => { call with returned := call.returned ++ [status] }) hc
  rw [hret] at hupdate
  unfold continueCoro
  rw [hw]
  exact hupdate

theorem continueCoro_inv {k : Nat} {rest : List Nat} {call : Call} {status : Status} (h : Inv s)
    (hbatch : s.batch = e :: rest) (he : s.events e = some ev) (hw : ev.waiter = some k)
    (hc : s.calls[k]? = some call) (hret : call.returned = [])
    (hlooping : ∀ check, s.phase ≠ .polling check)
    (hstatus : (status = .done ∧ call.wasReady = true) ∨
      (status = .timeout ∧ Late call ∧ e ∉ s.timeoutEvents)) :
    Inv ({ s with batch := rest }.continueCoro e ev status) := by
  have hqueue := h.queue
  rw [hbatch] at hqueue
  obtain ⟨hout, hrest⟩ := List.nodup_cons.mp (List.nodup_middle.mp hqueue)
  obtain ⟨hready, hnot⟩ := not_or.mp (mt List.mem_append.mpr hout)
  have hcall : ({ s with batch := rest }.continueCoro e ev status).calls[k]? =
      some { call with returned := [status] } := continueCoro_calls hw hc hret
  have hcalls : ∀ j, j ≠ k →
      ({ s with batch := rest }.continueCoro e ev status).calls[j]? = s.calls[j]? := by
    intro j hne
    unfold continueCoro
    rw [hw]
    exact getElem?_updateCall_of_ne _ _ fun heq => hne (Option.some.inj heq).symm
  have hself : ({ s with batch := rest }.continueCoro e ev status).events e =
      some { ev with status, waiter := none } := setEvent_self ..
  have hother : ∀ e', e' ≠ e →
      ({ s with batch := rest }.continueCoro e ev status).events e' = s.events e' := by
    intro e' hne
    exact setEvent_of_ne { s with batch := rest } _ hne
  refine ⟨h.running, ?_, ?_, hrest, h.timeouts, ?_, ?_, ?_, ?_⟩
  · intro e' x hx
    by_cases hne : e' = e
    · subst hne
      rw [hself] at hx
      cases hx
      refine ⟨hready, hnot, ?_⟩
      rcases hstatus with ⟨hs, -⟩ | ⟨hs, -, htimeout⟩
      · exact .inl hs
      · exact .inr ⟨.inr hs, htimeout⟩
    · rw [hother e' hne] at hx
      refine (h.events e' x hx).frame ?_ ?_ Iff.rfl ?_ Iff.rfl
      · intro j hj
        apply hcalls j
        intro heq
        exact h.waiter_ne he hx hne hj (heq ▸ hw)
      · intro j hj hpaused
        have hxc : x.coro ≠ ev.coro := by
          intro hco
          exact hne (h.single e' e x ev hx he (by simp [hj]) (by simp [hw]) hco)
        show Function.update s.coros ev.coro .running x.coro = .paused
        rw [Function.update_of_ne hxc]
        exact hpaused
      · show e' ∈ rest ↔ e' ∈ s.batch
        simp [hbatch, hne]
  · intro e' hin
    by_cases hne : e' = e
    · exact ⟨_, by rw [hne, hself]⟩
    · rw [hother e' hne]
      apply h.known e'
      rcases hin with hin | hin | hin
      · exact .inl hin
      · exact .inr (.inl (hbatch ▸ List.mem_cons_of_mem e hin))
      · exact .inr (.inr hin)
  · intro e₁ e₂ x₁ x₂ h₁ h₂ hw₁ hw₂ hco
    have hne : ∀ e' x, ({ s with batch := rest }.continueCoro e ev status).events e' = some x →
        x.waiter.isSome = true → e' ≠ e := by
      intro e' x hx hxw heq
      rw [heq, hself] at hx
      cases hx
      cases hxw
    rw [hother e₁ (hne e₁ x₁ h₁ hw₁)] at h₁
    rw [hother e₂ (hne e₂ x₂ h₂ hw₂)] at h₂
    exact h.single e₁ e₂ x₁ x₂ h₁ h₂ hw₁ hw₂ hco
  · intro j call' hc'
    by_cases hne : j = k
    · rw [hne, hcall] at hc'
      cases hc'
      rcases hstatus with ⟨rfl, hwas⟩ | ⟨rfl, hlate, -⟩
      · exact .inr (.inl ⟨rfl, hwas⟩)
      · exact .inr (.inr ⟨rfl, hlate⟩)
    · rw [hcalls j hne] at hc'
      rcases h.calls j call' hc' with ⟨hret', x, hx, hxw⟩ | hrest'
      · have hne' : call'.ev ≠ e := by
          intro heq
          rw [heq, he] at hx
          cases hx
          rw [hw] at hxw
          exact hne (Option.some.inj hxw).symm
        exact .inl ⟨hret', x, by rw [hother _ hne', hx], hxw⟩
      · exact .inr hrest'
  · refine ⟨List.nodup_singleton _, ?_⟩
    intro c hin
    rw [List.mem_singleton.mp hin]
    exact Function.update_self ..
  · intro check hpolling
    exact absurd hpolling (hlooping check)

theorem resume_inv {rest : List Nat} (h : Inv s) (hbatch : s.batch = e :: rest)
    (he : s.events e = some ev) (hlooping : ∀ check, s.phase ≠ .polling check) :
    Inv ({ s with batch := rest }.resume e ev) := by
  obtain ⟨k, call, hw, hc, hev, hret, hpaused, hcase⟩ := batch_head h hbatch he
  unfold resume
  rcases hcase with ⟨hs, hwas⟩ | ⟨hs, hlate, hout⟩
  · simp only [hs, hpaused]
    exact continueCoro_inv h hbatch he hw hc hret hlooping (.inl ⟨rfl, hwas⟩)
  · simp only [hs, hpaused]
    exact continueCoro_inv h hbatch he hw hc hret hlooping (.inr ⟨rfl, hlate, hout⟩)

theorem create_inv {kind : Kind} (h : Inv s) (hnew : s.events e = none) :
    Inv (s.setEvent e { kind }) := by
  have hfresh : ¬(e ∈ s.readyEvents ∨ e ∈ s.batch ∨ e ∈ s.timeoutEvents) := by
    intro hin
    obtain ⟨ev, he⟩ := h.known e hin
    rw [hnew] at he
    cases he
  obtain ⟨hready, hbatch, htimeout⟩ : e ∉ s.readyEvents ∧ e ∉ s.batch ∧ e ∉ s.timeoutEvents := by
    simpa using hfresh
  have hne : ∀ e' x, s.events e' = some x → e' ≠ e := by
    intro e' x hx heq
    rw [heq, hnew] at hx
    cases hx
  refine ⟨h.running, ?_, ?_, h.queue, h.timeouts, ?_, ?_, h.stack, h.idle⟩
  · intro e' x hx
    by_cases heq : e' = e
    · subst heq
      rw [setEvent_self] at hx
      cases hx
      exact ⟨hready, hbatch, .inr ⟨.inl rfl, htimeout⟩⟩
    · rw [setEvent_of_ne s _ heq] at hx
      exact h.events e' x hx
  · intro e' hin
    obtain ⟨x, hx⟩ := h.known e' hin
    exact ⟨x, by rw [setEvent_of_ne s _ (hne e' x hx), hx]⟩
  · intro e₁ e₂ x₁ x₂ h₁ h₂ hw₁ hw₂ hco
    have hold : ∀ e' x, (s.setEvent e { kind }).events e' = some x → x.waiter.isSome = true →
        s.events e' = some x := by
      intro e' x hx hxw
      by_cases heq : e' = e
      · rw [heq, setEvent_self] at hx
        cases hx
        cases hxw
      · rwa [setEvent_of_ne s _ heq] at hx
    exact h.single e₁ e₂ x₁ x₂ (hold e₁ x₁ h₁ hw₁) (hold e₂ x₂ h₂ hw₂) hw₁ hw₂ hco
  · intro k call hc
    rcases h.calls k call hc with ⟨hret, x, hx, hxw⟩ | hrest
    · exact .inl ⟨hret, x, by rw [setEvent_of_ne s _ (hne _ x hx), hx], hxw⟩
    · exact .inr hrest

theorem coros_inv {stack : List Nat} {coros : Nat → CoroStatus} (h : Inv s)
    (hpaused : ∀ c, s.coros c = .paused → coros c = .paused)
    (hstack : stack.Nodup ∧ ∀ c ∈ stack, coros c = .running) : Inv { s with coros, stack } := by
  refine ⟨h.running, ?_, h.known, h.queue, h.timeouts, h.single, h.calls, hstack, h.idle⟩
  intro e ev he
  exact (h.events e ev he).frame (fun _ _ => rfl) (fun _ _ => hpaused ev.coro) Iff.rfl Iff.rfl Iff.rfl

theorem spawn_inv {c : Nat} (h : Inv s) (hc : s.coros c = .init) :
    Inv { s with coros := Function.update s.coros c .running, stack := c :: s.stack } := by
  obtain ⟨hnodup, hrunning⟩ := h.stack
  have hout : c ∉ s.stack := by
    intro hin
    have hrun := hrunning c hin
    rw [hc] at hrun
    cases hrun
  refine coros_inv h ?_ ⟨List.nodup_cons.mpr ⟨hout, hnodup⟩, ?_⟩
  · intro c' hpaused
    have hne : c' ≠ c := by
      intro heq
      rw [heq, hc] at hpaused
      cases hpaused
    rw [Function.update_of_ne hne, hpaused]
  · intro c' hin
    rcases List.mem_cons.mp hin with rfl | hin
    · exact Function.update_self ..
    · have hne : c' ≠ c := fun heq => hout (heq ▸ hin)
      rw [Function.update_of_ne hne, hrunning c' hin]

theorem finish_inv {c : Nat} {rest : List Nat} (h : Inv s) (hstack : s.stack = c :: rest) :
    Inv { s with coros := Function.update s.coros c .finished, stack := rest } := by
  obtain ⟨hnodup, hrunning⟩ := h.stack
  rw [hstack] at hnodup hrunning
  obtain ⟨hout, hrest⟩ := List.nodup_cons.mp hnodup
  refine coros_inv h ?_ ⟨hrest, ?_⟩
  · intro c' hpaused
    have hne : c' ≠ c := by
      intro heq
      rw [heq, hrunning c List.mem_cons_self] at hpaused
      cases hpaused
    rw [Function.update_of_ne hne, hpaused]
  · intro c' hin
    have hne : c' ≠ c := fun heq => hout (heq ▸ hin)
    rw [Function.update_of_ne hne, hrunning c' (List.mem_cons_of_mem c hin)]

end State

/-- The call does not move an event from `DONE` back to `INIT` that is still in the list of
timeouts. -/
def resetOk (s : State) : Act → Bool
  | .signal e sig =>
    match s.events e with
    | some ev =>
      match ev.kind.signal sig with
      | some kind =>
        sig == .clear || kind.isReady || ev.status != .done || !s.timeoutEvents.contains e
      | none => true
    | none => true
  | _ => true

theorem resetOk_signal {s : State} {e : Nat} {sig : Signal} (hok : resetOk s (.signal e sig) = true)
    (ev : Event) (kind : Kind) (he : s.events e = some ev) (hkind : ev.kind.signal sig = some kind)
    (hclear : sig ≠ .clear) (hnot : kind.isReady = false) (hdone : ev.status = .done) :
    e ∉ s.timeoutEvents := by
  simpa [resetOk, he, hkind, hclear, hnot, hdone] using hok

theorem step_inv {s t : State} {act : Act} (h : Inv s) (hok : resetOk s act = true)
    (hstep : s.step act = some t) : Inv t := by
  unfold State.step at hstep
  rw [if_neg (by simp [h.running])] at hstep
  cases act with
  | create e kind =>
    simp only at hstep
    split at hstep
    · next hcond =>
      cases hstep
      exact State.create_inv h (by simpa using (Bool.and_eq_true_iff.mp hcond).2)
    · cases hstep
  | spawn c =>
    simp only at hstep
    split at hstep
    · next hcond =>
      cases hstep
      exact State.spawn_inv h (by simpa using (Bool.and_eq_true_iff.mp hcond).2)
    · cases hstep
  | signal e sig =>
    simp only at hstep
    split at hstep
    · exact State.signal_inv h hstep (resetOk_signal hok)
    · cases hstep
  | wait e timeout now =>
    simp only at hstep
    split at hstep
    · next c rest ev hstack he =>
      split at hstep
      · next hw =>
        cases hstep
        exact State.wait_inv h hstack he (by simpa using hw)
      · cases hstep
    · cases hstep
  | finish =>
    simp only at hstep
    split at hstep
    · next c rest hstack =>
      cases hstep
      exact State.finish_inv h hstack
    · cases hstep
  | enter now =>
    simp only at hstep
    split at hstep
    · next check hstack hphase =>
      cases hstep
      exact (State.startRound_inv check now h (h.idle check hphase)).1
    · cases hstep
  | resume =>
    simp only at hstep
    split at hstep
    · next check e rest hstack hphase hbatch =>
      obtain ⟨ev, he⟩ := h.known e (.inr (.inl (hbatch ▸ List.mem_cons_self)))
      simp only [he] at hstep
      cases hstep
      exact State.resume_inv h hbatch he (by simp [hphase])
    · cases hstep
  | again now =>
    simp only at hstep
    split at hstep
    · next check e rest hstack hphase hbatch hready =>
      cases hstep
      exact (State.startRound_inv check now h hbatch).1
    · cases hstep
  | leave =>
    simp only at hstep
    split at hstep
    · next check hstack hphase hbatch hready =>
      cases hstep
      exact ⟨h.running, h.events, h.known, h.queue, h.timeouts, h.single, h.calls, h.stack,
        fun _ _ => hbatch⟩
    · cases hstep

theorem init_inv : Inv {} := by
  refine ⟨rfl, ?_, ?_, List.nodup_nil, List.nodup_nil, ?_, ?_, ⟨List.nodup_nil, ?_⟩, fun _ _ => rfl⟩
  · intro e ev he
    cases he
  · intro e hin
    simp at hin
  · intro e e' ev ev' he
    cases he
  · intro k call hc
    cases hc
  · intro c hin
    cases hin

/-- The coroutine of a call that has not returned is paused. It is due to go on, or its event was not
found ready and its deadline, if it has one, is watched. -/
def Blocked (s : State) (call : Call) : Prop :=
  s.coros call.coro = .paused ∧
    (call.ev ∈ s.readyEvents ∨ call.ev ∈ s.batch ∨
      call.wasReady = false ∧ call.missedAt = none ∧
        ∃ ev, s.events call.ev = some ev ∧ ev.status = .wait ∧ ev.kind.isReady = false ∧
          (call.deadline = none ∨
            call.deadline = some ev.wakeupTime ∧ call.ev ∈ s.timeoutEvents))

def Returns (s t : State) (e : Nat) : Prop :=
  ∃ (k : Nat) (call : Call) (status : Status), s.calls[k]? = some call ∧ call.ev = e ∧
    call.returned = [] ∧ t.calls[k]? = some { call with returned := [status] }

theorem Inv.blocked {s : State} {k : Nat} {call : Call} (h : Inv s) (hc : s.calls[k]? = some call)
    (hret : call.returned = []) : Blocked s call := by
  rcases h.calls k call hc with ⟨-, ev, he, hw⟩ | ⟨hdone, -⟩ | ⟨htimeout, -⟩
  · have hok := h.events call.ev ev he
    unfold EventOk at hok
    simp only [hw] at hok
    obtain ⟨call', hc', -, hco, -, hpaused, hcase⟩ := hok
    rw [hc] at hc'
    cases hc'
    rw [← hco] at hpaused
    refine ⟨hpaused, ?_⟩
    rcases hcase with ⟨hs, hkind, -, -, hwas, hmissed, htime⟩ | ⟨-, -, hin | hin⟩ | ⟨-, -, hin, -⟩
    · refine .inr (.inr ⟨hwas, hmissed, ev, he, hs, hkind, ?_⟩)
      rcases htime with ⟨hd, -⟩ | ⟨hd, -, hin⟩
      · exact .inl hd
      · exact .inr ⟨hd, hin⟩
    · exact .inl hin
    · exact .inr (.inl hin)
    · exact .inr (.inl hin)
  · rw [hret] at hdone
    cases hdone
  · rw [hret] at htimeout
    cases htimeout

/-- `Loop` finds a coroutine for the first event of its batch, and the call of this coroutine
returns. -/
theorem Inv.resume_returns {s : State} {e : Nat} {rest : List Nat} {check : Bool} (h : Inv s)
    (hstack : s.stack = []) (hphase : s.phase = .looping check) (hbatch : s.batch = e :: rest) :
    ∃ t, s.step .resume = some t ∧ Returns s t e := by
  obtain ⟨ev, he⟩ := h.known e (.inr (.inl (hbatch ▸ List.mem_cons_self)))
  obtain ⟨k, call, hw, hc, hev, hret, hpaused, hcase⟩ := State.batch_head h hbatch he
  have hstep : s.step .resume = some ({ s with batch := rest }.resume e ev) := by
    unfold State.step
    rw [if_neg (by simp [h.running])]
    simp only [hstack, hphase, hbatch, he]
  have hresume : ∃ status, { s with batch := rest }.resume e ev =
      { s with batch := rest }.continueCoro e ev status := by
    unfold State.resume
    rcases hcase with ⟨hs, -⟩ | ⟨hs, -⟩
    · exact ⟨.done, by simp [hs, hpaused]⟩
    · exact ⟨.timeout, by simp [hs, hpaused]⟩
  obtain ⟨status, hresume⟩ := hresume
  refine ⟨_, hstep, k, call, status, hc, hev, hret, ?_⟩
  rw [hresume]
  exact State.continueCoro_calls hw hc hret

/-- A round that checks the timeouts queues every call that is late. -/
theorem Inv.round_queues {s : State} {now k d : Nat} {call : Call} (h : Inv s)
    (hbatch : s.batch = []) (hc : (s.startRound true now).calls[k]? = some call)
    (hret : call.returned = []) (hd : call.deadline = some d) (hlate : d < now) :
    call.ev ∈ (s.startRound true now).readyEvents ∨ call.ev ∈ (s.startRound true now).batch := by
  obtain ⟨hinv, hwatched⟩ := State.startRound_inv true now h hbatch
  obtain ⟨-, hin | hin | ⟨-, -, ev, he, -, -, hnone | ⟨hsome, hin⟩⟩⟩ := hinv.blocked hc hret
  · exact .inl hin
  · exact .inr hin
  · rw [hd] at hnone
    cases hnone
  · rw [hd] at hsome
    cases hsome
    have hle := hwatched rfl call.ev hin ev he
    omega

/-- In every run without such a reset no `verify` fails and every call that blocks returns at most
once, for a reason. A call that has not returned is paused, and once its event was found ready or
late it is in the queue that `Loop` serves until it is empty. -/
theorem wait_wakes_up_once (s : State)
    (h : Transition.ReachableWhere State.step (fun s act => resetOk s act = true) {} s) :
    s.aborted = false ∧
    (∀ call ∈ s.calls,
      (call.returned = [] ∧ Blocked s call) ∨ (call.returned = [.done] ∧ call.wasReady = true) ∨
        (call.returned = [.timeout] ∧ Late call)) ∧
    (∀ e rest check, s.stack = [] → s.phase = .looping check → s.batch = e :: rest →
      ∃ t, s.step .resume = some t ∧ Returns s t e) ∧
    (∀ now t, s.phase = .polling true → s.step (.enter now) = some t →
      ∀ call ∈ t.calls, call.returned = [] → ∀ d, call.deadline = some d → d < now →
        call.ev ∈ t.readyEvents ∨ call.ev ∈ t.batch) := by
  have hinv : Inv s := h.invariant (fun _ _ _ hs hok hstep => step_inv hs hok hstep) init_inv
  refine ⟨hinv.running, ?_, ?_, ?_⟩
  · intro call hin
    obtain ⟨k, hc⟩ := List.mem_iff_getElem?.mp hin
    rcases hinv.calls k call hc with ⟨hret, -⟩ | hrest
    · exact .inl ⟨hret, hinv.blocked hc hret⟩
    · exact .inr hrest
  · intro e rest check hstack hphase hbatch
    exact hinv.resume_returns hstack hphase hbatch
  · intro now t hphase hstep call hin hret d hd hlate
    unfold State.step at hstep
    rw [if_neg (by simp [hinv.running])] at hstep
    simp only at hstep
    split at hstep
    · next check hstack hcheck =>
      rw [hphase] at hcheck
      cases hcheck
      cases hstep
      obtain ⟨k, hc⟩ := List.mem_iff_getElem?.mp hin
      exact hinv.round_queues (hinv.idle true hphase) hc hret hd hlate
    · cases hstep

def twoWaits : List Act :=
  [.create 0 (.int 0 fun v => 1 ≤ v), .create 1 (.box false),
    .spawn 0, .wait 0 5 10, .spawn 1, .wait 1 5 10, .signal 0 (.set 1), .enter 20, .resume, .finish,
    .resume, .finish, .leave]

theorem wait_wakes_up_once_twoWaits :
    ∃ s, Transition.ReachableWhere State.step (fun s act => resetOk s act = true) {} s ∧
      s.calls.map Call.returned = [[.done], [.timeout]] ∧ s.aborted = false := by
  obtain ⟨s, hs, hp⟩ := Transition.exists_reachableWhere
    (p := fun s => s.calls.map Call.returned = [[.done], [.timeout]])
    (show (Transition.runWhere State.step (fun s act => resetOk s act = true) {} twoWaits).any _ =
      true by decide +kernel)
  exact ⟨s, hs, by simpa using hp, (wait_wakes_up_once s hs).1⟩

/-- The event of a coroutine that was woken up in time is set back before the next check of the
timeouts. -/
def resetRun : List Act :=
  [.create 0 (.int 0 fun v => 1 ≤ v), .spawn 0, .wait 0 5 10, .enter 11, .leave,
    .signal 0 (.set 1), .enter 12, .resume, .signal 0 (.set 0), .finish, .leave, .enter 13]

theorem check_timeout_verify_fails :
    ¬∀ s, Transition.Reachable State.step {} s → s.aborted = false := by
  intro hall
  obtain ⟨s, hs, hp⟩ := Transition.exists_reachableWhere (p := State.aborted)
    (show (Transition.runWhere State.step (fun _ _ => True) {} resetRun).any _ = true by
      decide +kernel)
  rw [hall s hs] at hp
  cases hp

end Jetpack.Reactor
