import Jetpack.Library.Transition
import Jetpack.Recovery.Server

/-! The last step of a recovery: the commands of the decided set are dispatched again, and
`FinishRecovery` is broadcast once every dispatch was answered, whatever the answer. -/

namespace Jetpack.Recovery

open Transition

abbrev Dispatch := (Key × CmdId) × TpcCommitCommand

inductive DispatchResult
  | success
  | reject
  | wrongLeader
  | other (code : Int)
  deriving Repr, DecidableEq

namespace TxLogServer

/-- A command for the entry is at hand, of a kind that can be dispatched. -/
def dispatchable (r : TxLogServer) (sid : Int) (e : Key × CmdId) : Bool :=
  match r.cmdAtHand sid e with
  | .ok (some cmd) => (asTpcCommit cmd).isSome
  | _ => false

/-- `cmds_to_dispatch`, with the entries the commands are for. -/
def dispatches (r : TxLogServer) (sid : Int) : List (Key × CmdId) → Except Fault (List Dispatch)
  | [] => .ok []
  | e :: es => do
    let cmd ← r.cmdAtHand sid e
    let rest ← r.dispatches sid es
    return ((cmd.bind asTpcCommit).map fun c => (e, c)).toList ++ rest

theorem map_dispatches (r : TxLogServer) (sid : Int) (es : List (Key × CmdId)) :
    (List.map Prod.snd) <$> r.dispatches sid es = r.cmdsToDispatch sid es := by
  induction es with
  | nil => rfl
  | cons e es ih =>
    simp only [dispatches, cmdsToDispatch, ← ih]
    cases r.cmdAtHand sid e with
    | error f => rfl
    | ok cmd =>
      cases r.dispatches sid es with
      | error f => rfl
      | ok rest =>
        have hmap : (((cmd.bind asTpcCommit).map fun c => (e, c)).toList ++ rest).map Prod.snd =
            (cmd.bind asTpcCommit).toList ++ rest.map Prod.snd := by
          cases cmd.bind asTpcCommit <;> simp
        exact congrArg Except.ok hmap

theorem dispatches_entries {r : TxLogServer} {sid : Int} {es : List (Key × CmdId)}
    {ds : List Dispatch} (h : r.dispatches sid es = .ok ds) :
    ds.map Prod.fst = es.filter (r.dispatchable sid) := by
  induction es generalizing ds with
  | nil =>
    cases h
    rfl
  | cons e es ih =>
    unfold dispatches at h
    cases hcmd : r.cmdAtHand sid e with
    | error f => simp [hcmd, bind, Except.bind] at h
    | ok cmd =>
      cases hrest : r.dispatches sid es with
      | error f => simp [hcmd, hrest, bind, Except.bind] at h
      | ok rest =>
        simp only [hcmd, hrest, bind, Except.bind, pure, Except.pure, Except.ok.injEq] at h
        subst h
        have hdisp : r.dispatchable sid e = (cmd.bind asTpcCommit).isSome := by
          unfold dispatchable
          rw [hcmd]
          cases cmd <;> rfl
        rw [List.filter_cons, hdisp, ← ih hrest]
        cases hc : cmd.bind asTpcCommit <;> simp

end TxLogServer

/-- `JetpackResubmit`: the dispatches still to make and those made, the callbacks with their results,
the value of `recovery_event`, and whether `FinishRecovery` was broadcast. -/
structure Resubmission where
  pending : List Dispatch
  sent : List Dispatch := []
  answers : List (Nat × DispatchResult) := []
  value : Nat := 0
  target : Nat
  finishSent : Bool := false

namespace Resubmission

/-- `rec_set_` may not know the set of the decided `sid`. -/
def start (r : TxLogServer) (sid : Int) : Option Resubmission :=
  match r.dispatches sid ((r.recSet.recSet sid).getD []) with
  | .ok ds => some { pending := ds, target := ds.length }
  | .error _ => none

inductive Event
  | dispatch
  | callback (k : Nat)
  | finish
  deriving Repr, DecidableEq

/-- The commands are those that `JetpackResubmit` of the server dispatches. -/
theorem start_commands (r : TxLogServer) (sid : Int) :
    (start r sid).map (fun s => s.pending.map Prod.snd) = (r.jetpackResubmit sid).toOption := by
  rw [TxLogServer.jetpackResubmit, ← TxLogServer.map_dispatches]
  unfold start
  cases r.dispatches sid ((r.recSet.recSet sid).getD []) with
  | ok ds => rfl
  | error f => rfl

variable (results : Nat → DispatchResult)

/-- The callback of a dispatch adds its weight for every result. -/
def step (s : Resubmission) : Event → Option Resubmission
  | .dispatch =>
    match s.pending with
    | [] => none
    | d :: ds => some { s with pending := ds, sent := s.sent ++ [d] }
  | .callback k =>
    if k < s.sent.length ∧ k ∉ s.answers.map Prod.fst then
      some { s with answers := s.answers ++ [(k, results k)], value := s.value + 1 }
    else none
  | .finish =>
    if s.pending = [] ∧ s.target ≤ s.value ∧ s.finishSent = false then
      some { s with finishSent := true }
    else none

/-- Every command of the set was dispatched once, and its dispatch succeeded or the command was
committed already. -/
def Complete (ids : List (Key × CmdId)) (committed : CmdId → Bool) (s : Resubmission) : Prop :=
  ∀ e ∈ ids, (s.sent.map fun d => d.1.2).count e.2 = 1 ∧
    ∀ k d, s.sent[k]? = some d → d.1.2 = e.2 →
      ∃ res, (k, res) ∈ s.answers ∧ (res = .success ∨ committed e.2 = true)

/-- Each id of the set has one entry whose command can be dispatched, and the results are such as the
step takes all of them to be. -/
structure AllRecoverable (r : TxLogServer) (sid : Int) (ids : List (Key × CmdId)) (known : Bool)
    (committed : CmdId → Bool) : Prop where
  known : known = true ∨ ids = []
  covered : ∀ e ∈ ids, e.2 ∈ (ids.filter (r.dispatchable sid)).map Prod.snd
  once : ((ids.filter (r.dispatchable sid)).map Prod.snd).Nodup
  results : ∀ k e, (ids.filter (r.dispatchable sid))[k]? = some e →
    results k = .success ∨ committed e.2 = true

structure Inv (ds : List Dispatch) (s : Resubmission) : Prop where
  dispatches : s.sent ++ s.pending = ds
  target : s.target = ds.length
  value : s.value = s.answers.length
  answers : ∀ a ∈ s.answers, a.1 < s.sent.length ∧ a.2 = results a.1
  once : (s.answers.map Prod.fst).Nodup
  finish : s.finishSent = true → s.pending = [] ∧ s.target ≤ s.value

variable {results} {ds : List Dispatch} {s t : Resubmission}

theorem step_inv {e : Event} (h : Inv results ds s) (hstep : step results s e = some t) :
    Inv results ds t := by
  cases e with
  | dispatch =>
    simp only [step] at hstep
    split at hstep
    · cases hstep
    · next d rest hp =>
      cases hstep
      refine ⟨by rw [← h.dispatches, hp]; simp, h.target, h.value, ?_, h.once, ?_⟩
      · intro a ha
        obtain ⟨hlt, hres⟩ := h.answers a ha
        refine ⟨?_, hres⟩
        simp only [List.length_append, List.length_singleton]
        omega
      · intro hf
        rw [(h.finish hf).1] at hp
        cases hp
  | callback k =>
    simp only [step] at hstep
    split at hstep
    · next hk =>
      cases hstep
      refine ⟨h.dispatches, h.target, ?_, ?_, ?_, ?_⟩
      · rw [h.value]
        simp
      · intro a ha
        rcases List.mem_append.mp ha with ha | ha
        · exact h.answers a ha
        · rw [List.mem_singleton.mp ha]
          exact ⟨hk.1, rfl⟩
      · have hnodup : (k :: s.answers.map Prod.fst).Nodup := List.nodup_cons.mpr ⟨hk.2, h.once⟩
        rw [List.map_append]
        exact List.nodup_append_comm.mp hnodup
      · intro hf
        obtain ⟨hp, hv⟩ := h.finish hf
        exact ⟨hp, Nat.le_succ_of_le hv⟩
    · cases hstep
  | finish =>
    simp only [step] at hstep
    split at hstep
    · next hc =>
      cases hstep
      exact ⟨h.dispatches, h.target, h.value, h.answers, h.once, fun _ => ⟨hc.1, hc.2.1⟩⟩
    · cases hstep

theorem reachable_inv (hrun : Reachable (step results) ⟨ds, [], [], 0, ds.length, false⟩ s) :
    Inv results ds s := by
  refine hrun.invariant (fun _ _ _ hs _ hstep => step_inv hs hstep) ?_
  exact ⟨rfl, rfl, rfl, fun _ ha => absurd ha List.not_mem_nil, List.nodup_nil,
    fun hf => absurd hf (by simp)⟩

/-- When `FinishRecovery` is broadcast every dispatch was made and answered. -/
theorem Inv.answered (h : Inv results ds s) (hf : s.finishSent = true) :
    s.sent = ds ∧ ∀ k < ds.length, (k, results k) ∈ s.answers := by
  obtain ⟨hp, hv⟩ := h.finish hf
  have hsent : s.sent = ds := by
    have hd := h.dispatches
    rwa [hp, List.append_nil] at hd
  refine ⟨hsent, ?_⟩
  -- the answered dispatches are as many as there are dispatches
  have hsub : (s.answers.map Prod.fst).toFinset ⊆ Finset.range ds.length := by
    intro k hk
    obtain ⟨a, ha, rfl⟩ := List.mem_map.mp (List.mem_toFinset.mp hk)
    rw [Finset.mem_range, ← hsent]
    exact (h.answers a ha).1
  have hcard : (Finset.range ds.length).card ≤ (s.answers.map Prod.fst).toFinset.card := by
    rw [Finset.card_range, List.toFinset_card_of_nodup h.once, List.length_map, ← h.value,
      ← h.target]
    exact hv
  have heq := Finset.eq_of_subset_of_card_le hsub hcard
  intro k hk
  have hmem : k ∈ (s.answers.map Prod.fst).toFinset := by
    rw [heq]
    exact Finset.mem_range.mpr hk
  obtain ⟨a, ha, rfl⟩ := List.mem_map.mp (List.mem_toFinset.mp hmem)
  rw [← (h.answers a ha).2]
  exact ha

variable {r : TxLogServer} {sid : Int} {ids : List (Key × CmdId)} {known : Bool}
  {committed : CmdId → Bool}

theorem AllRecoverable.complete (h : AllRecoverable results r sid ids known committed)
    (hentries : ds.map Prod.fst = ids.filter (r.dispatchable sid)) (hsent : s.sent = ds)
    (hanswered : ∀ k < ds.length, (k, results k) ∈ s.answers) : Complete ids committed s := by
  have hids : (ds.map fun d => d.1.2) = (ids.filter (r.dispatchable sid)).map Prod.snd := by
    rw [← hentries, List.map_map]
    rfl
  intro e he
  rw [hsent]
  constructor
  · rw [hids]
    exact List.count_eq_one_of_mem h.once (h.covered e he)
  · intro k d hk hid
    have hlt : k < ds.length := (List.getElem?_eq_some_iff.mp hk).1
    have hentry : (ids.filter (r.dispatchable sid))[k]? = some d.1 := by
      rw [← hentries, List.getElem?_map, hk]
      rfl
    refine ⟨results k, hanswered k hlt, ?_⟩
    rw [← hid]
    exact h.results k d.1 hentry

theorem AllRecoverable.of_complete (h : Complete ids committed s)
    (hentries : ds.map Prod.fst = (if known then ids else []).filter (r.dispatchable sid))
    (hsent : s.sent = ds) (hinv : Inv results ds s) :
    AllRecoverable results r sid ids known committed := by
  -- an unknown set has no dispatches, so that only an empty one is complete
  have hknown : known = true ∨ ids = [] := by
    cases known with
    | true => exact .inl rfl
    | false =>
      right
      cases ids with
      | nil => rfl
      | cons e es =>
        have hds : ds = [] := by simpa using hentries
        have hcount := (h e List.mem_cons_self).1
        rw [hsent, hds] at hcount
        simp at hcount
  have hsame : (if known then ids else []) = ids := by
    rcases hknown with hk | hk
    · rw [if_pos hk]
    · rw [hk, ite_self]
  rw [hsame] at hentries
  have hids : (s.sent.map fun d => d.1.2) = (ids.filter (r.dispatchable sid)).map Prod.snd := by
    rw [hsent, ← hentries, List.map_map]
    rfl
  refine ⟨hknown, ?_, ?_, ?_⟩
  · intro e he
    have hcount := (h e he).1
    rw [hids] at hcount
    exact List.count_pos_iff.mp (by omega)
  · rw [List.nodup_iff_count_eq_one]
    intro x hx
    obtain ⟨e, he, rfl⟩ := List.mem_map.mp hx
    rw [← hids]
    exact (h e (List.mem_filter.mp he).1).1
  · intro k e hk
    have he : e ∈ ids := (List.mem_filter.mp (List.mem_of_getElem? hk)).1
    rw [← hentries, List.getElem?_map] at hk
    obtain ⟨d, hd, rfl⟩ := Option.map_eq_some_iff.mp hk
    obtain ⟨res, hres, hgood⟩ := (h d.1 he).2 k d (hsent ▸ hd) rfl
    have hval : res = results k := (hinv.answers _ hres).2
    rw [← hval]
    exact hgood

/-- `FinishRecovery` is broadcast after a complete resubmission exactly if the set is known, each of
its commands is at hand under one key, and no dispatch of a command that is not committed fails. -/
theorem resubmission_complete_iff (r : TxLogServer) (sid : Int) (ids : List (Key × CmdId))
    (known : Bool) (committed : CmdId → Bool) (results : Nat → DispatchResult) (s₀ s : Resubmission)
    (hrec : r.recSet.recSet sid = if known then some ids else none) (hstart : start r sid = some s₀)
    (hrun : Reachable (step results) s₀ s) (hfinish : s.finishSent = true) :
    Complete ids committed s ↔ AllRecoverable results r sid ids known committed := by
  unfold start at hstart
  have hlocal : (r.recSet.recSet sid).getD [] = if known then ids else [] := by
    rw [hrec]
    cases known <;> rfl
  rw [hlocal] at hstart
  split at hstart
  · next ds hds =>
    cases hstart
    have hinv := reachable_inv hrun
    obtain ⟨hsent, hanswered⟩ := hinv.answered hfinish
    have hentries := TxLogServer.dispatches_entries hds
    constructor
    · intro h
      exact AllRecoverable.of_complete h hentries hsent hinv
    · intro h
      refine h.complete ?_ hsent hanswered
      rcases h.known with hk | hk
      · rwa [if_pos hk] at hentries
      · rw [hk, ite_self] at hentries
        rw [hk, hentries]
  · cases hstart

def writeOf (key : Key) (cmdIdInClient : BitVec 32) : VecPieceData :=
  ⟨[{ type := rwBenchmarkWTxn, clientId := 1, cmdIdInClient, input := [(0, .i32 key), (1, .i32 0)] }], false⟩

def threeIds : List (Key × CmdId) :=
  [(7, combineInt32 1 1), (8, combineInt32 1 2), (9, combineInt32 1 3)]

/-- A coordinator that has two of the recovered commands in its pool and fetched the third one. -/
def threeRecovered : TxLogServer :=
  { jepoch := 1
    oepoch := 2
    commandPool :=
      { candidates := (AList.singleton 7
            { candidates := AList.singleton (combineInt32 1 1) ⟨.vecPiece (writeOf 7 1), true⟩ }).insert 8
          { candidates := AList.singleton (combineInt32 1 2) ⟨.vecPiece (writeOf 8 2), true⟩ } }
    recSet :=
      { recSet := fun _ => some threeIds
        missedKeyCmdSet := fun _ => some [(9, .vecPiece (writeOf 9 3))] } }

/-- The answers come in another order, and the second command is committed already. -/
def threeDispatches : List Event :=
  [.dispatch, .dispatch, .callback 1, .dispatch, .callback 2, .callback 0, .finish]

def secondRejected : Nat → DispatchResult
  | 1 => .reject
  | _ => .success

theorem getCombinedCmdID_writeOf :
    getCombinedCmdID (some (.vecPiece (writeOf 9 3))) = .ok (combineInt32 1 3) := by
  decide +kernel

theorem threeRecovered_cmdAtHand :
    threeRecovered.cmdAtHand 0 (7, combineInt32 1 1) = .ok (some (.vecPiece (writeOf 7 1))) ∧
    threeRecovered.cmdAtHand 0 (8, combineInt32 1 2) = .ok (some (.vecPiece (writeOf 8 2))) ∧
    threeRecovered.cmdAtHand 0 (9, combineInt32 1 3) = .ok (some (.vecPiece (writeOf 9 3))) := by
  have hfetched : threeRecovered.cmdAtHand 0 (9, combineInt32 1 3) = (do
      let id ← getCombinedCmdID (some (.vecPiece (writeOf 9 3)))
      return if id = combineInt32 1 3 then some (.vecPiece (writeOf 9 3)) else none) := rfl
  rw [getCombinedCmdID_writeOf] at hfetched
  exact ⟨rfl, rfl, hfetched⟩

theorem resubmission_complete_three :
    ∃ s₀ s, start threeRecovered 0 = some s₀ ∧
      Reachable (step secondRejected) s₀ s ∧ s.finishSent = true ∧
      s.answers = [(1, .reject), (2, .success), (0, .success)] ∧
      Complete threeIds (fun id => id = combineInt32 1 2) s := by
  obtain ⟨h1, h2, h3⟩ := threeRecovered_cmdAtHand
  let ds : List Dispatch :=
    [((7, combineInt32 1 1), { cmd := writeOf 7 1 }), ((8, combineInt32 1 2), { cmd := writeOf 8 2 }),
      ((9, combineInt32 1 3), { cmd := writeOf 9 3 })]
  have hds : threeRecovered.dispatches 0 threeIds = .ok ds := by
    simp only [threeIds, TxLogServer.dispatches, h1, h2, h3]
    rfl
  have hstart : start threeRecovered 0 = some { pending := ds, target := 3 } := by
    unfold start
    rw [show (threeRecovered.recSet.recSet 0).getD [] = threeIds from rfl, hds]
    rfl
  have hrun : runWhere (step secondRejected) (fun _ _ => True) { pending := ds, target := 3 }
      threeDispatches =
        some ⟨[], ds, [(1, .reject), (2, .success), (0, .success)], 3, 3, true⟩ := by
    simp [threeDispatches, runWhere, step, secondRejected, ds]
  have hreach := reachableWhere_of_runWhere hrun
  have hfilter : threeIds.filter (threeRecovered.dispatchable 0) = threeIds := by
    simp only [threeIds, List.filter, TxLogServer.dispatchable, h1, h2, h3]
    rfl
  refine ⟨_, _, hstart, hreach, rfl, rfl, (resubmission_complete_iff threeRecovered 0 threeIds true
    _ _ _ _ rfl hstart hreach rfl).mpr ⟨.inl rfl, ?_, ?_, ?_⟩⟩
  · rw [hfilter]
    exact fun e he => List.mem_map_of_mem he
  · rw [hfilter]
    decide
  · rw [hfilter]
    intro k e hk
    match k with
    | 0 => exact .inl rfl
    | 1 =>
      cases hk
      exact .inr (decide_eq_true rfl)
    | n + 2 => exact .inl rfl

def writePiece : VecPieceData :=
  ⟨[{ type := rwBenchmarkWTxn, clientId := 1, cmdIdInClient := 1, input := [(0, .i32 7)] }], false⟩

def oneRecovered : TxLogServer :=
  { jepoch := 1
    oepoch := 2
    commandPool :=
      { candidates := AList.singleton 7
          { candidates := AList.singleton (combineInt32 1 1) ⟨.vecPiece writePiece, true⟩ } }
    recSet := { recSet := fun _ => some [(7, combineInt32 1 1)] } }

def oneDispatch : List Event := [.dispatch, .callback 0, .finish]

theorem oneRecovered_cmdAtHand :
    oneRecovered.cmdAtHand 0 (7, combineInt32 1 1) = .ok (some (.vecPiece writePiece)) := rfl

theorem oneRecovered_finishes (results : Nat → DispatchResult) :
    ∃ s₀ s, start oneRecovered 0 = some s₀ ∧ Reachable (step results) s₀ s ∧
      s.finishSent = true ∧ s.answers = [(0, results 0)] := by
  let d : Dispatch := ((7, combineInt32 1 1), { cmd := writePiece })
  have hds : oneRecovered.dispatches 0 [(7, combineInt32 1 1)] = .ok [d] := by
    unfold TxLogServer.dispatches
    rw [oneRecovered_cmdAtHand]
    rfl
  have hstart : start oneRecovered 0 = some { pending := [d], target := 1 } := by
    unfold start
    rw [show (oneRecovered.recSet.recSet 0).getD [] = [(7, combineInt32 1 1)] from rfl, hds]
    rfl
  have hrun : runWhere (step results) (fun _ _ => True)
      { pending := [d], target := 1 } oneDispatch = some ⟨[], [d], [(0, results 0)], 1, 1, true⟩ := by
    simp [oneDispatch, runWhere, step]
  exact ⟨_, _, hstart, reachableWhere_of_runWhere hrun, rfl, rfl⟩

/-- `FinishRecovery` is broadcast although the only dispatch found no leader. -/
theorem finishes_without_leader :
    ∃ s₀ s, start oneRecovered 0 = some s₀ ∧
      Reachable (step fun _ => .wrongLeader) s₀ s ∧ s.finishSent = true ∧
      ¬Complete [(7, combineInt32 1 1)] (fun _ => false) s := by
  obtain ⟨s₀, s, hstart, hrun, hfinish, hanswers⟩ := oneRecovered_finishes fun _ => .wrongLeader
  refine ⟨s₀, s, hstart, hrun, hfinish, ?_⟩
  intro h
  obtain ⟨hcount, hres⟩ := h _ (List.mem_singleton_self _)
  have hmem := List.count_pos_iff.mp (Nat.lt_of_lt_of_eq Nat.zero_lt_one hcount.symm)
  obtain ⟨d, hd, hid⟩ := List.mem_map.mp hmem
  obtain ⟨k, hk⟩ := List.mem_iff_getElem?.mp hd
  obtain ⟨res, hin, hgood⟩ := hres k d hk hid
  rw [hanswers] at hin
  obtain ⟨rfl, rfl⟩ : k = 0 ∧ res = .wrongLeader := by simpa using hin
  rcases hgood with hgood | hgood
  · cases hgood
  · cases hgood

end Resubmission

end Jetpack.Recovery
