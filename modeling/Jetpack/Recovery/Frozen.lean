import Jetpack.Library.Transition
import Jetpack.Recovery.Server

/-! The pool of one replica between `PullRecovery` and `FinishRecovery`. A ghost history says which
recoveries the replica has joined and finished, which commands it accepted while one of them was
open, and which acknowledged commands a late `FinishRecovery` threw away. -/

namespace Jetpack.Recovery.Frozen

open Transition

structure State where
  server : TxLogServer
  /-- The `oepoch` of each `PullRecovery` answered with `ok` whose `FinishRecovery` has not come. -/
  opened : List Epoch := []
  finished : List Epoch := []
  /-- The commands acknowledged since the replica last returned to `READY`. -/
  acknowledged : List Marshallable := []
  /-- Each command accepted, with the recoveries open at that moment. -/
  accepted : List (Marshallable × List Epoch) := []
  discarded : List Marshallable := []

inductive Event
  | speculativeExecute (paused skipPoolConflict : Bool) (cmd : Marshallable)
  | placeHolder (cmd : Marshallable)
  | commandPoolGC (cmd : Marshallable)
  | pullRecovery (jepoch oepoch : Epoch)
  | prepare (jepoch oepoch : Epoch) (ballot : Int)
  | accept (jepoch oepoch : Epoch) (ballot sid : Int)
  | commit (jepoch oepoch : Epoch) (sid : Int)
  | finishRecovery (oepoch : Epoch)

def holds (p : JetpackCommandPool) (cmd : Marshallable) : Bool :=
  match extractPoolKeys cmd with
  | .ok (some k) => ((p.bucket k.key).getCmd k.cmdId).isSome
  | _ => false

def accept (s : State) (server : TxLogServer) (cmd : Marshallable) : State :=
  { s with
    server := server
    acknowledged := s.acknowledged ++ [cmd]
    accepted := s.accepted ++ [(cmd, s.opened)] }

def join (s : State) (server : TxLogServer) (oepoch : Epoch) : State :=
  { s with
    server := server
    opened := s.opened ++ [oepoch]
    finished := s.finished.filter (· != oepoch) }

def finish (s : State) (oepoch : Epoch) : State :=
  let server := s.server.onJetpackFinishRecovery oepoch
  let returns := s.server.jetpackStatus = .recovery ∧ server.jetpackStatus = .ready
  let lost := s.acknowledged.filter fun cmd =>
    holds s.server.commandPool cmd && !holds server.commandPool cmd
  { s with
    server := server
    opened := s.opened.filter (· != oepoch)
    finished := s.finished ++ [oepoch]
    acknowledged := if returns then [] else s.acknowledged
    discarded := if s.finished.contains oepoch then s.discarded ++ lost else s.discarded }

def step (s : State) : Event → Option State
  | .speculativeExecute paused skipPoolConflict cmd =>
    match s.server.onRuleSpeculativeExecute paused skipPoolConflict cmd with
    | .ok (server, true, _) => some (accept s server cmd)
    | .ok (server, false, _) => some { s with server := server }
    | .error _ => none
  | .placeHolder cmd =>
    match s.server.placeHolder cmd with
    | .ok server => some { s with server := server }
    | .error _ => none
  | .commandPoolGC cmd =>
    match s.server.ruleCommandPoolGC cmd with
    | .ok server => some { s with server := server }
    | .error _ => none
  | .pullRecovery jepoch oepoch =>
    match s.server.onJetpackPullRecovery jepoch oepoch with
    | .ok (server, true, _) => some (join s server oepoch)
    | .ok (server, false, _) => some { s with server := server }
    | .error _ => none
  | .prepare jepoch oepoch ballot =>
    some { s with server := (s.server.onJetpackPrepare jepoch oepoch ballot).1 }
  | .accept jepoch oepoch ballot sid =>
    some { s with server := (s.server.onJetpackAccept jepoch oepoch ballot sid).1 }
  | .commit jepoch oepoch sid =>
    some { s with server := s.server.onJetpackCommit jepoch oepoch sid }
  | .finishRecovery oepoch => some (finish s oepoch)

/-- A `FinishRecovery` that passes the check of the handler belongs to the recovery the replica is
in: no other one is open, and it does not come again while the pool holds acknowledged commands. -/
def FinishExpected (s : State) : Event → Prop
  | .finishRecovery oepoch =>
    s.server.oepoch ≤ oepoch →
      s.opened.all (· == oepoch) = true ∧
      (oepoch ∈ s.finished → ∀ cmd ∈ s.acknowledged, holds s.server.commandPool cmd = false)
  | _ => True

instance (s : State) (e : Event) : Decidable (FinishExpected s e) :=
  match e with
  | .finishRecovery oepoch =>
    inferInstanceAs (Decidable (s.server.oepoch ≤ oepoch →
      s.opened.all (· == oepoch) = true ∧
      (oepoch ∈ s.finished → ∀ cmd ∈ s.acknowledged, holds s.server.commandPool cmd = false)))
  | .speculativeExecute _ _ _ | .placeHolder _ | .commandPoolGC _ | .pullRecovery _ _
  | .prepare _ _ _ | .accept _ _ _ _ | .commit _ _ _ => isTrue trivial

/-- No command was accepted inside a recovery, and none was lost to a late `FinishRecovery`. -/
def Respected (s : State) : Prop :=
  (∀ a ∈ s.accepted, a.2 = []) ∧ s.discarded = []

instance (s : State) : Decidable (Respected s) :=
  inferInstanceAs (Decidable (_ ∧ _))

structure Inv (s : State) : Prop where
  frozen : s.opened ≠ [] → s.server.jetpackStatus = .recovery
  respected : Respected s

theorem Inv.withServer {s : State} (h : Inv s) {server : TxLogServer}
    (hstatus : server.jetpackStatus = s.server.jetpackStatus) : Inv { s with server := server } :=
  ⟨fun ho => hstatus.trans (h.frozen ho), h.respected⟩

theorem Inv.finish {s : State} (h : Inv s) {oepoch : Epoch}
    (hok : FinishExpected s (.finishRecovery oepoch)) : Inv (Frozen.finish s oepoch) := by
  by_cases hle : s.server.oepoch ≤ oepoch
  · obtain ⟨honly, hheld⟩ := hok hle
    have hnone : s.opened.filter (· != oepoch) = [] := by
      refine List.filter_eq_nil_iff.mpr (fun o ho => ?_)
      simpa using List.all_eq_true.mp honly o ho
    refine ⟨fun hne => absurd hnone hne, h.respected.1, ?_⟩
    by_cases hfin : s.finished.contains oepoch = true
    · have hmem : oepoch ∈ s.finished := by simpa using hfin
      have hlost : (s.acknowledged.filter fun cmd => holds s.server.commandPool cmd &&
          !holds (s.server.onJetpackFinishRecovery oepoch).commandPool cmd) = [] := by
        refine List.filter_eq_nil_iff.mpr (fun cmd hcmd => ?_)
        simp [hheld hmem cmd hcmd]
      simp only [Frozen.finish, hfin, if_true, hlost, List.append_nil]
      exact h.respected.2
    · simp only [Frozen.finish, hfin]
      exact h.respected.2
  · have hsame : s.server.onJetpackFinishRecovery oepoch = s.server := by
      simp [TxLogServer.onJetpackFinishRecovery, hle]
    refine ⟨fun hne => ?_, h.respected.1, ?_⟩
    · have hopen : s.opened ≠ [] := by
        intro hnil
        exact hne (by simp [Frozen.finish, hnil])
      simpa only [Frozen.finish, hsame] using h.frozen hopen
    · have hlost : (s.acknowledged.filter fun cmd => holds s.server.commandPool cmd &&
          !holds s.server.commandPool cmd) = [] := by
        refine List.filter_eq_nil_iff.mpr (fun cmd _ => ?_)
        simp
      simp only [Frozen.finish, hsame, hlost, List.append_nil, ite_self]
      exact h.respected.2

theorem Inv.accept {s : State} (h : Inv s) {server : TxLogServer} {cmd : Marshallable}
    (hstatus : server.jetpackStatus = s.server.jetpackStatus)
    (hready : s.server.jetpackStatus ≠ .recovery) : Inv (Frozen.accept s server cmd) := by
  have hclosed : s.opened = [] := by
    by_contra hne
    exact hready (h.frozen hne)
  refine ⟨fun ho => hstatus.trans (h.frozen ho), ?_, h.respected.2⟩
  intro a ha
  rcases List.mem_append.mp ha with ha | ha
  · exact h.respected.1 a ha
  · obtain rfl := List.mem_singleton.mp ha
    exact hclosed

theorem Inv.step {s t : State} {e : Event} (h : Inv s) (hok : FinishExpected s e)
    (hstep : Frozen.step s e = some t) : Inv t := by
  cases e with
  | speculativeExecute paused skip cmd =>
    simp only [Frozen.step] at hstep
    split at hstep
    · next heq =>
      cases hstep
      obtain ⟨hstatus, -, hrec⟩ := TxLogServer.onRuleSpeculativeExecute_spec heq
      exact h.accept hstatus (fun hr => Bool.noConfusion (hrec (.inr hr)))
    · next heq =>
      cases hstep
      exact h.withServer (TxLogServer.onRuleSpeculativeExecute_spec heq).1
    · cases hstep
  | placeHolder cmd =>
    simp only [Frozen.step] at hstep
    split at hstep
    · next heq =>
      cases hstep
      obtain ⟨a, -, heq⟩ := Except.bind_eq_ok heq
      cases heq
      exact h.withServer rfl
    · cases hstep
  | commandPoolGC cmd =>
    simp only [Frozen.step] at hstep
    split at hstep
    · next heq =>
      cases hstep
      obtain ⟨a, -, heq⟩ := Except.bind_eq_ok heq
      cases heq
      exact h.withServer rfl
    · cases hstep
  | pullRecovery jepoch oepoch =>
    simp only [Frozen.step] at hstep
    split at hstep
    · next heq =>
      cases hstep
      exact ⟨fun _ => (TxLogServer.onJetpackPullRecovery_spec heq).1, h.respected⟩
    · next heq =>
      cases hstep
      exact ⟨fun _ => (TxLogServer.onJetpackPullRecovery_spec heq).1, h.respected⟩
    · cases hstep
  | prepare jepoch oepoch ballot =>
    cases hstep
    exact h.withServer rfl
  | accept jepoch oepoch ballot sid =>
    obtain rfl := Option.some.inj hstep
    refine h.withServer ?_
    simp only [TxLogServer.onJetpackAccept]
    split <;> rfl
  | commit jepoch oepoch sid =>
    obtain rfl := Option.some.inj hstep
    refine h.withServer ?_
    simp only [TxLogServer.onJetpackCommit]
    split <;> rfl
  | finishRecovery oepoch =>
    cases hstep
    exact h.finish hok

/-- Whatever the replica starts from, if no unexpected `FinishRecovery` passes the check of its
handler, the pool is frozen inside every recovery and keeps what was acknowledged after it. -/
theorem pool_frozen_during_recovery {server : TxLogServer} {s : State}
    (h : ReachableWhere step FinishExpected { server := server } s) : Respected s :=
  (ReachableWhere.invariant (fun _ _ _ hi hok hstep => Inv.step hi hok hstep) h
    ⟨fun hne => absurd rfl hne, by simp [Respected]⟩).respected

def write : Marshallable :=
  .vecPiece { spVecPieceData := [{
    type := rwBenchmarkWTxn, clientId := 1, cmdIdInClient := 1,
    input := [(0, .i32 7), (1, .i32 5)] }] }

/-- One recovery into epoch 1, with a command refused inside it and accepted after it. -/
def oneRecovery : List Event :=
  [.pullRecovery 0 1, .speculativeExecute false false write, .finishRecovery 1,
    .speculativeExecute false false write]

theorem pool_frozen_during_recovery_once :
    ∃ s, ReachableWhere step FinishExpected { server := { jepoch := 0, oepoch := 0 } } s ∧
      s.accepted = [(write, [])] ∧ holds s.server.commandPool write = true ∧ Respected s := by
  have hrun : (runWhere step FinishExpected { server := { jepoch := 0, oepoch := 0 } }
      oneRecovery).any (fun s => decide (s.accepted = [(write, [])]) &&
        holds s.server.commandPool write) = true := by decide +kernel
  obtain ⟨s, hs, hp⟩ := exists_reachableWhere hrun
  have hand := Bool.and_eq_true_iff.mp hp
  exact ⟨s, hs, of_decide_eq_true hand.1, hand.2, pool_frozen_during_recovery hs⟩

/-- The `FinishRecovery` is delivered a second time, after the write was acknowledged. -/
theorem late_finishRecovery_discards_write :
    ∃ s, Reachable step { server := { jepoch := 0, oepoch := 0 } } s ∧
      s.accepted = [(write, [])] ∧ s.discarded = [write] ∧ ¬ Respected s := by
  have hrun : (runWhere step (fun _ _ => True) { server := { jepoch := 0, oepoch := 0 } }
      (oneRecovery ++ [.finishRecovery 1])).any (fun s => decide (s.accepted = [(write, [])]) &&
        decide (s.discarded = [write])) = true := by decide +kernel
  obtain ⟨s, hs, hp⟩ := exists_reachableWhere hrun
  have hand := Bool.and_eq_true_iff.mp hp
  have hlost := of_decide_eq_true hand.2
  refine ⟨s, hs, of_decide_eq_true hand.1, hlost, fun hr => ?_⟩
  have := hlost.symm.trans hr.2
  cases this

end Jetpack.Recovery.Frozen
