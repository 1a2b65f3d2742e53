import Mathlib.Logic.Function.Basic
import Jetpack.Library.Transition

/-! The events of a reactor and the loop that wakes up the coroutines waiting for them. The program
of the coroutines is left open: any coroutine that runs may make any of the calls. -/

namespace Jetpack.Reactor

inductive Status where
  | init
  | wait
  | ready
  | done
  | timeout
  deriving Repr, DecidableEq

/-- What decides whether an event is ready. The value of an integer event is compared with its
target, or tested by a function. -/
inductive Kind where
  | box (isSet : Bool)
  | int (value : Int) (test : Int → Bool)
  | quorum (nVotedYes nVotedNo nTotal quorum : Int)

inductive Signal where
  | set (n : Int)
  | setBox
  | clear
  | voteYes
  | voteNo
  deriving Repr, DecidableEq

namespace Kind

def isReady : Kind → Bool
  | .box isSet => isSet
  | .int value test => test value
  | .quorum nVotedYes nVotedNo nTotal needed =>
    needed ≤ nVotedYes || nTotal - needed < nVotedNo

def signal : Kind → Signal → Option Kind
  | .int _ test, .set n => some (.int n test)
  | .box _, .setBox => some (.box true)
  | .box _, .clear => some (.box false)
  | .quorum y n total q, .voteYes => some (.quorum (y + 1) n total q)
  | .quorum y n total q, .voteNo => some (.quorum y (n + 1) total q)
  | _, _ => none

end Kind

/-- `coro` is the coroutine of the last call of `Wait` that blocked, and `waiter` that call as long as
it has not returned. -/
structure Event where
  kind : Kind
  status : Status := .init
  wakeupTime : Nat := 0
  coro : Nat := 0
  waiter : Option Nat := none

/-- A call of `Wait` that blocked: its deadline, whether the event was found ready, when it was found
late and not ready, and how it returned. -/
structure Call where
  ev : Nat
  coro : Nat
  deadline : Option Nat
  wasReady : Bool := false
  missedAt : Option Nat := none
  returned : List Status := []
  deriving Repr, DecidableEq

inductive CoroStatus where
  | init
  | running
  | paused
  | finished
  deriving Repr, DecidableEq

/-- `poll_loop` is outside of `Loop`, with the `check_timeout` of the next call, or inside. -/
inductive Phase where
  | polling (check : Bool)
  | looping (check : Bool)
  deriving Repr, DecidableEq

/-- `batch` is what is left of the local vector of `Loop`, and `stack` the running coroutines with
the innermost first. -/
structure State where
  events : Nat → Option Event := fun _ => none
  coros : Nat → CoroStatus := fun _ => .init
  stack : List Nat := []
  readyEvents : List Nat := []
  batch : List Nat := []
  timeoutEvents : List Nat := []
  phase : Phase := .polling true
  calls : List Call := []
  aborted : Bool := false

namespace State

def setEvent (s : State) (e : Nat) (ev : Event) : State :=
  { s with events := Function.update s.events e (some ev) }

def updateCall (s : State) (w : Option Nat) (f : Call → Call) : State :=
  { s with
    calls := match w with
      | none => s.calls
      | some k => s.calls.modify k f }

/-- A `verify` that does not hold. -/
def abort (s : State) : State := { s with aborted := true }

/-- `Test`, for an event whose kind has just changed. -/
def test (s : State) (e : Nat) (ev : Event) : State :=
  if ev.kind.isReady then
    match ev.status with
    | .wait =>
      if s.coros ev.coro = .finished then s.abort
      else
        { (s.setEvent e { ev with status := .ready }).updateCall ev.waiter
            fun call => { call with wasReady := true } with
          readyEvents := s.readyEvents ++ [e] }
    | _ => s.setEvent e ev
  else if ev.status = .done then s.setEvent e { ev with status := .init }
  else s.setEvent e ev

def signal (s : State) (e : Nat) (sig : Signal) : Option State := do
  let ev ← s.events e
  let kind ← ev.kind.signal sig
  return if sig = .clear then s.setEvent e { ev with kind } else s.test e { ev with kind }

/-- `Wait` in the coroutine `c`. A `timeout` of 0 means that there is none. -/
def wait (s : State) (c : Nat) (e : Nat) (ev : Event) (timeout now : Nat) : State :=
  if ev.status = .done then s
  else if ev.kind.isReady then s.setEvent e { ev with status := .done }
  else
    let ev := if 0 < timeout then { ev with wakeupTime := now + timeout } else ev
    { s.setEvent e { ev with status := .wait, coro := c, waiter := some s.calls.length } with
      timeoutEvents := if 0 < timeout then s.timeoutEvents ++ [e] else s.timeoutEvents
      calls := s.calls ++ [⟨e, c, if 0 < timeout then some (now + timeout) else none, false, none, []⟩]
      coros := Function.update s.coros c .paused
      stack := s.stack.tail }

/-- The event `e` is late. It is found ready now, or its time is up. -/
def expire (s : State) (now e : Nat) (ev : Event) (timeoutEvents : List Nat) : State :=
  { (s.setEvent e { ev with status := if ev.kind.isReady then .ready else .timeout }).updateCall
      ev.waiter fun call =>
        { call with
          wasReady := call.wasReady || ev.kind.isReady
          missedAt := if ev.kind.isReady then call.missedAt else some now } with
    batch := s.batch ++ [e]
    timeoutEvents }

/-- The loop of `CheckTimeout`. The entries before the iterator are `kept`. -/
def checkTimeout (now : Nat) (s : State) (kept : List Nat) : List Nat → State
  | [] => s
  | e :: es =>
    match s.events e with
    | none => s.abort
    | some ev =>
      match ev.status with
      | .init => s.abort
      | .wait =>
        if ev.wakeupTime = 0 then s.abort
        else if ev.wakeupTime < now then
          checkTimeout now (s.expire now e ev (kept ++ es)) kept es
        else checkTimeout now s (kept ++ [e]) es
      | .ready => checkTimeout now { s with timeoutEvents := kept ++ es } kept es
      | .done => checkTimeout now { s with timeoutEvents := kept ++ es } kept es
      | .timeout => s.abort

def startRound (s : State) (check : Bool) (now : Nat) : State :=
  let s := { s with batch := s.readyEvents, readyEvents := [], phase := .looping check }
  if s.batch.all fun e => (s.events e).any fun ev => ev.status == .ready then
    if check then s.checkTimeout now [] s.timeoutEvents else s
  else s.abort

/-- The coroutine that waits for the event `e` goes on, and its call of `Wait` returns. -/
def continueCoro (s : State) (e : Nat) (ev : Event) (status : Status) : State :=
  { (s.setEvent e { ev with status, waiter := none }).updateCall ev.waiter fun call =>
      { call with returned := call.returned ++ [status] } with
    coros := Function.update s.coros ev.coro .running
    stack := [ev.coro] }

def resume (s : State) (e : Nat) (ev : Event) : State :=
  if ev.status = .done then s
  else if s.coros ev.coro ≠ .paused then s.abort
  else
    let status := if ev.status = .ready then .done else ev.status
    if status = .done ∨ status = .timeout then s.continueCoro e ev status else s.abort

end State

inductive Act where
  | create (e : Nat) (kind : Kind)
  | spawn (c : Nat)
  | signal (e : Nat) (sig : Signal)
  | wait (e : Nat) (timeout now : Nat)
  | finish
  | enter (now : Nat)
  | resume
  | again (now : Nat)
  | leave

namespace State

/-- Code other than that of `Loop` runs. -/
def active (s : State) : Bool :=
  !s.stack.isEmpty || (match s.phase with | .polling _ => true | .looping _ => false)

/-- One call or one step of the loop. An event has at most one waiter at a time. -/
def step (s : State) (act : Act) : Option State :=
  if s.aborted then none
  else match act with
    | .create e kind =>
      if s.active && (s.events e).isNone then some (s.setEvent e { kind }) else none
    | .spawn c =>
      if s.active && s.coros c == .init then
        some { s with coros := Function.update s.coros c .running, stack := c :: s.stack }
      else none
    | .signal e sig => if s.active then s.signal e sig else none
    | .wait e timeout now =>
      match s.stack, s.events e with
      | c :: _, some ev => if ev.waiter.isNone then some (s.wait c e ev timeout now) else none
      | _, _ => none
    | .finish =>
      match s.stack with
      | c :: rest =>
        some { s with coros := Function.update s.coros c .finished, stack := rest }
      | [] => none
    | .enter now =>
      match s.stack, s.phase with
      | [], .polling check => some (s.startRound check now)
      | _, _ => none
    | .resume =>
      match s.stack, s.phase, s.batch with
      | [], .looping _, e :: rest =>
        match s.events e with
        | some ev => some ({ s with batch := rest }.resume e ev)
        | none => some s.abort
      | _, _, _ => none
    | .again now =>
      match s.stack, s.phase, s.batch, s.readyEvents with
      | [], .looping check, [], _ :: _ => some (s.startRound check now)
      | _, _, _, _ => none
    | .leave =>
      match s.stack, s.phase, s.batch, s.readyEvents with
      | [], .looping check, [], [] => some { s with phase := .polling !check }
      | _, _, _, _ => none

end State

end Jetpack.Reactor
