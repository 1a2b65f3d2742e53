import Jetpack.FastPath.Admission
import Jetpack.RecoverableId

/-! What a replica still holds of commands it is done with. An entry goes when its command is
applied, so one that comes in later, or whose command is rejected, stays. -/

namespace Jetpack.FastPath

open Transition

def idOf (cmd : Marshallable) : Option CmdId :=
  match extractPoolKeys cmd with
  | .ok (some k) => some k.cmdId
  | _ => none

def Event.commands : Event → List Marshallable
  | .speculativeExecute cmd => [cmd]
  | .dispatch cmd => [cmd]
  | .wrongLeader cmd => [cmd]
  | .applyLogs log => PoolOp.members log
  | _ => []

def agrees (w : CmdId → Key × Bool) (cmd : Marshallable) : Bool :=
  match extractPoolKeys cmd, needRecordConflictInOriginalPath cmd with
  | .ok (some k), .ok original => w k.cmdId == (k.key, original)
  | _, _ => true

/-- A replica with the ids of the commands it is done with: those applied, and those rejected and
not dispatched again. -/
structure Replica where
  server : Server := {}
  finished : List CmdId := []

def finishedAfter (finished : List CmdId) : Event → List CmdId
  | .dispatch cmd => finished.filter fun id => some id != idOf cmd
  | .wrongLeader cmd => (idOf cmd).toList ++ finished
  | .applyLogs log => (PoolOp.members log).filterMap idOf ++ finished
  | _ => finished

/-- All messages of a command carry the key and the path that `w` gives its id. -/
def Replica.step (cfg : Config) (w : CmdId → Key × Bool) (r : Replica) (e : Event) : Option Replica :=
  if e.commands.all (agrees w) then
    (r.server.step cfg e).map fun s => ⟨s, finishedAfter r.finished e⟩
  else none

/-- Neither the pool nor the map has an entry with this id. -/
def Server.Free (s : Server) (id : CmdId) : Prop :=
  ∀ key, (s.commandPool.bucket key).candidates.lookup id = none ∧
    ∀ e ∈ s.inflight key, e.cmdId ≠ id

def NoPhantom (r : Replica) : Prop := ∀ id ∈ r.finished, r.server.Free id

def reachesPool (cfg : Config) (s : Server) (cmd : Marshallable) : Bool :=
  !cfg.isCurpMode && !s.paused && s.jetpackStatus == .ready &&
    s.skipPoolConflict cfg cmd == .ok false

/-- The event adds nothing for a command that is done with, and ends no command of which something
is recorded other than by applying it. -/
def leavesNothing (cfg : Config) (r : Replica) : Event → Bool
  | .speculativeExecute cmd =>
    !(reachesPool cfg r.server cmd && r.finished.any fun id => some id == idOf cmd)
  | .dispatch cmd =>
    match extractPoolKeys cmd with
    | .ok (some k) =>
      !(cfg.skipPoolForOriginalPath && needRecordConflictInOriginalPath cmd == .ok true &&
        (r.server.inflight k.key).any fun e => e.cmdId == k.cmdId)
    | _ => true
  | .wrongLeader cmd =>
    match extractPoolKeys cmd with
    | .ok (some k) =>
      ((r.server.commandPool.bucket k.key).candidates.lookup k.cmdId).isNone &&
        !(r.server.inflight k.key).any fun e => e.cmdId == k.cmdId
    | _ => true
  | _ => true

/-- What is stored, stored under the key and in the place that belong to its id, at most once in the
map, and nothing for a command that is done with. -/
structure Clean (cfg : Config) (w : CmdId → Key × Bool) (r : Replica) : Prop where
  recorded : Recorded cfg r.server
  pool : ∀ key id e, (r.server.commandPool.bucket key).candidates.lookup id = some e →
    (w id).1 = key ∧ (cfg.skipPoolForOriginalPath = true → (w id).2 = false)
  map : ∀ key, ∀ e ∈ r.server.inflight key, w e.cmdId = (key, true)
  once : ∀ key, ((r.server.inflight key).map InflightOriginalEntry.cmdId).Nodup
  free : NoPhantom r

variable {cfg : Config} {w : CmdId → Key × Bool} {r r' : Replica} {s s' : Server}
  {cmd : Marshallable} {k : PoolKeys}

theorem clean_start : Clean cfg w {} := by
  refine ⟨recorded_start, fun key id e he => ?_, fun key e he => ?_, fun key => List.nodup_nil,
    fun id hid => ?_⟩
  · cases he
  · cases he
  · cases hid

theorem needRecord_of_extract (hk : extractPoolKeys cmd = .ok (some k)) :
    ∃ original, needRecordConflictInOriginalPath cmd = .ok original := by
  obtain ⟨o, ho, hk⟩ := Except.bind_eq_ok hk
  cases o with
  | none => cases hk
  | some p =>
    refine ⟨p.ruleModeOnAndIsOriginalPathOnlyCommand, ?_⟩
    unfold needRecordConflictInOriginalPath
    rw [ho]
    rfl

theorem agrees_iff {original : Bool} (hk : extractPoolKeys cmd = .ok (some k))
    (hneed : needRecordConflictInOriginalPath cmd = .ok original) :
    agrees w cmd = true ↔ w k.cmdId = (k.key, original) := by
  simp [agrees, hk, hneed]

theorem idOf_eq (hk : extractPoolKeys cmd = .ok (some k)) : idOf cmd = some k.cmdId := by
  simp [idOf, hk]

theorem idOf_eq_some {id : CmdId} (h : idOf cmd = some id) :
    ∃ k, extractPoolKeys cmd = .ok (some k) ∧ k.cmdId = id := by
  unfold idOf at h
  split at h
  · next k hk =>
    cases h
    exact ⟨k, hk, rfl⟩
  · cases h

theorem lookup_of_pushBack {p p' : JetpackCommandPool} {b : Bool} {key : Key} {id : CmdId} {e : Entry}
    (hk : extractPoolKeys cmd = .ok (some k)) (h : p.pushBack .ready cmd = .ok (b, p'))
    (he : (p'.bucket key).candidates.lookup id = some e) :
    (key = k.key ∧ id = k.cmdId) ∨ (p.bucket key).candidates.lookup id = some e := by
  obtain ⟨k', bucket, hk', hbucket, heq, -⟩ := JetpackCommandPool.pushBack_ok h
  obtain rfl : k = k' := by
    rw [hk] at hk'
    cases hk'
    rfl
  rw [heq key] at he
  split at he
  · next hkey =>
    subst hkey
    rw [(RevoveryCandidates.pushBack_eq hbucket).1] at he
    by_cases hid : id = k.cmdId
    · exact .inl ⟨rfl, hid⟩
    · rw [AList.lookup_insert_ne hid] at he
      exact .inr he
  · exact .inr he

theorem Clean.pushBack {p : JetpackCommandPool} {b original : Bool} {finished : List CmdId}
    (h : Clean cfg w r) (hrec : Recorded cfg { r.server with commandPool := p })
    (hneed : needRecordConflictInOriginalPath cmd = .ok original) (hagrees : agrees w cmd = true)
    (hpath : cfg.skipPoolForOriginalPath = true → original = false)
    (hsub : ∀ id ∈ finished, id ∈ r.finished)
    (hlate : r.server.jetpackStatus = .ready → ∀ id ∈ finished, idOf cmd ≠ some id)
    (hpush : r.server.commandPool.pushBack r.server.jetpackStatus cmd = .ok (b, p)) :
    Clean cfg w ⟨{ r.server with commandPool := p }, finished⟩ := by
  obtain ⟨-, -, rfl⟩ | ⟨hready, hpush⟩ := pushBack_status hpush
  · exact ⟨h.recorded, h.pool, h.map, h.once, fun id hid => h.free id (hsub id hid)⟩
  obtain ⟨k, -, hk, -⟩ := JetpackCommandPool.pushBack_ok hpush
  have hw := (agrees_iff hk hneed).mp hagrees
  refine ⟨hrec, fun key id e he => ?_, h.map, h.once, fun id hid key => ⟨?_, ?_⟩⟩
  · rcases lookup_of_pushBack hk hpush he with ⟨rfl, rfl⟩ | hold
    · rw [hw]
      exact ⟨rfl, hpath⟩
    · exact h.pool key id e hold
  · refine Option.eq_none_iff_forall_ne_some.mpr fun e he => ?_
    rcases lookup_of_pushBack hk hpush he with ⟨-, rfl⟩ | hold
    · exact hlate hready k.cmdId hid (idOf_eq hk)
    · rw [(h.free id (hsub id hid) key).1] at hold
      cases hold
  · exact (h.free id (hsub id hid) key).2

theorem Clean.keep {finished : List CmdId} (h : Clean cfg w r)
    (hp : s'.commandPool = r.server.commandPool)
    (hm : s'.inflightOriginalPath = r.server.inflightOriginalPath)
    (hfree : ∀ id ∈ finished, r.server.Free id) : Clean cfg w ⟨s', finished⟩ := by
  have hinflight : ∀ key, s'.inflight key = r.server.inflight key := by
    intro key
    unfold Server.inflight
    rw [hm]
  refine ⟨h.recorded.of_witness hp hm, ?_, ?_, ?_, fun id hid key => ?_⟩
  · dsimp only
    rw [hp]
    exact h.pool
  · intro key
    dsimp only
    rw [hinflight key]
    exact h.map key
  · intro key
    dsimp only
    rw [hinflight key]
    exact h.once key
  · dsimp only
    rw [hp, hinflight key]
    exact hfree id hid key

theorem Clean.speculativeExecute {b : Bool} (h : Clean cfg w r)
    (hneed : needRecordConflictInOriginalPath cmd = .ok false) (hagrees : agrees w cmd = true)
    (hok : leavesNothing cfg r (.speculativeExecute cmd) = true)
    (hexec : r.server.onRuleSpeculativeExecute cfg cmd = .ok (b, s')) :
    Clean cfg w ⟨s', r.finished⟩ := by
  have hrec := h.recorded.speculativeExecute hexec
  obtain ⟨-, rfl, -⟩ | ⟨-, witness, rfl⟩ | ⟨hcurp, hpaused, hskip, p, hpush, rfl⟩ :=
    Server.onRuleSpeculativeExecute_ok hexec
  · exact h
  · exact h.keep rfl rfl h.free
  · refine h.pushBack hrec hneed hagrees (fun _ => rfl) (fun _ hid => hid) ?_ hpush
    intro hready id hid heq
    have hreaches : reachesPool cfg r.server cmd = true := by
      simp [reachesPool, hcurp, hpaused, hready, hskip]
    simp only [leavesNothing, hreaches, Bool.true_and, Bool.not_eq_true', List.any_eq_false] at hok
    exact hok id hid (by simp [heq])

theorem inflight_insert (s : Server) (key key' : Key) (bucket : List InflightOriginalEntry) :
    ({ s with inflightOriginalPath := s.inflightOriginalPath.insert key bucket } : Server).inflight key'
      = if key' = key then bucket else s.inflight key' := by
  unfold Server.inflight
  by_cases hkey : key' = key
  · subst hkey
    simp
  · simp [hkey, AList.lookup_insert_ne hkey]

theorem inflight_eraseInflight (s : Server) (key key' : Key) (id : CmdId) :
    (s.eraseInflight key id).inflight key' =
      if key' = key then (s.inflight key).eraseP fun e => e.cmdId == id else s.inflight key' := by
  unfold Server.eraseInflight
  split
  · next hnone =>
    split
    · next hkey =>
      subst hkey
      simp [Server.inflight, hnone]
    · rfl
  · next bucket hbucket =>
    have hold : s.inflight key = bucket := by simp [Server.inflight, hbucket]
    rw [hold]
    dsimp only
    by_cases hempty : (bucket.eraseP fun e => e.cmdId == id).isEmpty = true
    · rw [if_pos hempty]
      by_cases hkey : key' = key
      · subst hkey
        rw [if_pos rfl, List.isEmpty_iff.mp hempty]
        simp [Server.inflight]
      · simp [Server.inflight, hkey, AList.lookup_erase_ne hkey]
    · rw [if_neg hempty]
      exact inflight_insert s key key' _

theorem commandPool_eraseInflight (s : Server) (key : Key) (id : CmdId) :
    (s.eraseInflight key id).commandPool = s.commandPool := by
  unfold Server.eraseInflight
  split <;> rfl

theorem Clean.dispatch (h : Clean cfg w r) (hsent : Event.sent cfg (.dispatch cmd) = true)
    (hagrees : agrees w cmd = true) (hok : leavesNothing cfg r (.dispatch cmd) = true)
    (hexec : r.server.originalPathUnexecutedCmdConflictPlaceHolder cfg cmd = .ok s') :
    Clean cfg w ⟨s', finishedAfter r.finished (.dispatch cmd)⟩ := by
  have hsub : ∀ id ∈ finishedAfter r.finished (.dispatch cmd), id ∈ r.finished :=
    fun id hid => (List.mem_filter.mp hid).1
  have hother : ∀ id ∈ finishedAfter r.finished (.dispatch cmd), idOf cmd ≠ some id := by
    intro id hid heq
    have hne := (List.mem_filter.mp hid).2
    simp [heq] at hne
  have hrec : Recorded cfg s' := by
    refine h.recorded.placeHolder (fun hcurp hneed => ?_) hexec
    simp [Event.sent, hcurp, hneed] at hsent
  obtain ⟨-, rfl⟩ | ⟨hneed, hskip, ⟨-, rfl⟩ | ⟨k, hk, rfl⟩⟩ | ⟨hneed, hskip, b, p, hpush, rfl⟩ :=
    Server.placeHolder_ok hexec
  · exact h.keep rfl rfl fun id hid => h.free id (hsub id hid)
  · exact h.keep rfl rfl fun id hid => h.free id (hsub id hid)
  · have hw := (agrees_iff hk hneed).mp hagrees
    have hnew : ∀ e ∈ r.server.inflight k.key, e.cmdId ≠ k.cmdId := by
      simpa [leavesNothing, hk, hskip, hneed, -Bool.forall_bool] using hok
    refine ⟨hrec, h.pool, fun key e he => ?_, fun key => ?_, fun id hid key => ⟨?_, fun e he => ?_⟩⟩
    · rw [inflight_insert] at he
      split at he
      · next hkey =>
        subst hkey
        rcases List.mem_append.mp he with hold | hlast
        · exact h.map _ e hold
        · obtain rfl := List.mem_singleton.mp hlast
          exact hw
      · exact h.map key e he
    · dsimp only
      rw [inflight_insert]
      split
      · rw [List.map_append, List.nodup_append]
        refine ⟨h.once k.key, List.nodup_singleton _, fun a ha b hb => ?_⟩
        obtain ⟨e, he, rfl⟩ := List.mem_map.mp ha
        obtain rfl : b = k.cmdId := by simpa using hb
        exact hnew e he
      · exact h.once key
    · exact (h.free id (hsub id hid) key).1
    · rw [inflight_insert] at he
      have hold := (h.free id (hsub id hid) key).2
      split at he
      · next hkey =>
        subst hkey
        rcases List.mem_append.mp he with hmem | hlast
        · exact hold e hmem
        · obtain rfl := List.mem_singleton.mp hlast
          rintro rfl
          exact hother _ hid (idOf_eq hk)
      · exact hold e he
  · refine h.pushBack hrec hneed hagrees (fun hon => ?_) hsub (fun _ => hother) hpush
    rw [hskip] at hon
    cases hon

theorem Clean.wrongLeader (h : Clean cfg w r) (hagrees : agrees w cmd = true)
    (hok : leavesNothing cfg r (.wrongLeader cmd) = true) :
    Clean cfg w ⟨r.server, finishedAfter r.finished (.wrongLeader cmd)⟩ := by
  refine h.keep rfl rfl fun id hid => ?_
  rcases List.mem_append.mp hid with hown | hold
  · obtain ⟨k, hk, rfl⟩ := idOf_eq_some (Option.mem_toList.mp hown)
    obtain ⟨original, hneed⟩ := needRecord_of_extract hk
    have hw := (agrees_iff hk hneed).mp hagrees
    simp only [leavesNothing, hk, Bool.and_eq_true, Option.isNone_iff_eq_none, Bool.not_eq_true',
      List.any_eq_false, beq_iff_eq] at hok
    intro key
    -- an entry elsewhere would be under another key than the one that belongs to the id
    refine ⟨Option.eq_none_iff_forall_ne_some.mpr fun e he => ?_, fun e he heq => ?_⟩
    · have hkey := (h.pool key k.cmdId e he).1
      rw [hw] at hkey
      subst hkey
      rw [hok.1] at he
      cases he
    · have hkey := h.map key e he
      rw [heq, hw] at hkey
      cases hkey
      exact hok.2 e he heq
  · exact h.free id hold

/-- A log entry that can be read as one command has that command as its only member. -/
theorem members_of_needRecord {log : Marshallable} {original : Bool}
    (h : needRecordConflictInOriginalPath log = .ok original) :
    ∀ m ∈ PoolOp.members log, extractPoolKeys m = extractPoolKeys log ∧
      needRecordConflictInOriginalPath m = .ok original := by
  intro m hm
  have hsame : m.vector0 = log.vector0 := by
    cases log with
    | tpcBatch cs =>
      obtain ⟨c, hc, rfl⟩ := List.mem_map.mp hm
      cases cs with
      | nil => cases hc
      | cons c' rest =>
        cases rest with
        | nil =>
          obtain rfl := List.mem_singleton.mp hc
          rfl
        | cons c'' rest => cases h
    | _ =>
      obtain rfl := List.mem_singleton.mp hm
      rfl
  have hneed : needRecordConflictInOriginalPath m = needRecordConflictInOriginalPath log := by
    unfold needRecordConflictInOriginalPath
    rw [hsame]
  refine ⟨?_, hneed.trans h⟩
  unfold extractPoolKeys
  rw [hsame]

theorem lookup_removeCmd {p p' : JetpackCommandPool} {b : Bool}
    (hk : extractPoolKeys cmd = .ok (some k)) (h : p.removeCmd cmd = .ok (b, p')) :
    (p'.bucket k.key).candidates.lookup k.cmdId = none := by
  obtain ⟨k', hk', hbucket⟩ := JetpackCommandPool.removeCmd_ok h
  obtain rfl : k = k' := by
    rw [hk] at hk'
    cases hk'
    rfl
  rw [hbucket, if_pos rfl]
  unfold RevoveryCandidates.remove
  split
  · next hnone => exact hnone
  · exact AList.lookup_erase _ _

theorem lookup_run_removeMember {p p' : JetpackCommandPool} {ms : List Marshallable}
    (h : Calls.run JetpackCommandPool.removeMember p ms = .ok p') {m : Marshallable} (hm : m ∈ ms)
    (hk : extractPoolKeys m = .ok (some k)) :
    (p'.bucket k.key).candidates.lookup k.cmdId = none := by
  induction ms generalizing p with
  | nil => cases hm
  | cons m' ms ih =>
    obtain ⟨q, hq, hrest⟩ := Calls.run_cons_eq_ok h
    rcases List.mem_cons.mp hm with rfl | hm
    · obtain ⟨b, hq⟩ := JetpackCommandPool.removeMember_eq_ok hq
      have hgone := lookup_removeCmd hk hq
      refine Calls.run_mem_induct (P := fun q' => (q'.bucket k.key).candidates.lookup k.cmdId = none)
        (fun t c _ t' ht hc => ?_) hgone hrest
      obtain ⟨b', hc⟩ := JetpackCommandPool.removeMember_eq_ok hc
      refine Option.eq_none_iff_forall_ne_some.mpr fun e he => ?_
      rw [JetpackCommandPool.lookup_of_removeCmd hc he] at ht
      cases ht
    · exact ih hrest hm

theorem eraseP_ne {l : List InflightOriginalEntry} {id : CmdId}
    (hnd : (l.map InflightOriginalEntry.cmdId).Nodup) :
    ∀ e ∈ l.eraseP (fun e => e.cmdId == id), e.cmdId ≠ id := by
  induction l with
  | nil => simp
  | cons x l ih =>
    rw [List.map_cons, List.nodup_cons] at hnd
    intro e he
    by_cases hx : x.cmdId = id
    · rw [List.eraseP_cons_of_pos (by simp [hx])] at he
      rintro rfl
      exact hnd.1 (hx ▸ List.mem_map_of_mem he)
    · rw [List.eraseP_cons_of_neg (by simp [hx])] at he
      rcases List.mem_cons.mp he with rfl | he
      · exact hx
      · exact ih hnd.2 e he

theorem Clean.eraseInflight (h : Clean cfg w r)
    (hrec : Recorded cfg (r.server.eraseInflight k.key k.cmdId))
    (hskip : cfg.skipPoolForOriginalPath = true) (hw : w k.cmdId = (k.key, true))
    {finished : List CmdId} (hfin : ∀ id ∈ finished, id = k.cmdId ∨ id ∈ r.finished) :
    Clean cfg w ⟨r.server.eraseInflight k.key k.cmdId, finished⟩ := by
  have hpool := commandPool_eraseInflight r.server k.key k.cmdId
  have hsub : ∀ key, ((r.server.eraseInflight k.key k.cmdId).inflight key).Sublist
      (r.server.inflight key) := by
    intro key
    rw [inflight_eraseInflight]
    split
    · next hkey =>
      subst hkey
      exact List.eraseP_sublist
    · exact List.Sublist.refl _
  refine ⟨hrec, ?_, fun key e he => h.map key e ((hsub key).subset he),
    fun key => ((hsub key).map _).nodup (h.once key), fun id hid key => ?_⟩
  · dsimp only
    rw [hpool]
    exact h.pool
  · dsimp only
    rw [hpool]
    rcases hfin id hid with rfl | hold
    · refine ⟨Option.eq_none_iff_forall_ne_some.mpr fun e he => ?_, fun e he heq => ?_⟩
      · have hpath := (h.pool key k.cmdId e he).2 hskip
        rw [hw] at hpath
        cases hpath
      · have hkey := h.map key e ((hsub key).subset he)
        rw [heq, hw] at hkey
        cases hkey
        rw [inflight_eraseInflight, if_pos rfl] at he
        exact eraseP_ne (h.once k.key) e he heq
    · have hfree := h.free id hold key
      exact ⟨hfree.1, fun e he => hfree.2 e ((hsub key).subset he)⟩

theorem Clean.remove {p : JetpackCommandPool} {n : Int} {log : Marshallable} (h : Clean cfg w r)
    (hrec : Recorded cfg { r.server with commandPool := p })
    (hagrees : ∀ m ∈ PoolOp.members log, agrees w m = true)
    (hpath : cfg.skipPoolForOriginalPath = true → needRecordConflictInOriginalPath log = .ok false)
    (hremove : r.server.commandPool.remove log = .ok (n, p)) :
    Clean cfg w ⟨{ r.server with commandPool := p }, finishedAfter r.finished (.applyLogs log)⟩ := by
  refine ⟨hrec, fun key id e he => ?_, h.map, h.once, fun id hid key => ?_⟩
  · exact h.pool key id e (JetpackCommandPool.lookup_of_remove hremove he)
  rcases List.mem_append.mp hid with hown | hold
  · obtain ⟨m, hm, hid⟩ := List.mem_filterMap.mp hown
    obtain ⟨k, hk, rfl⟩ := idOf_eq_some hid
    obtain ⟨original, hneed⟩ := needRecord_of_extract hk
    have hw := (agrees_iff hk hneed).mp (hagrees m hm)
    refine ⟨Option.eq_none_iff_forall_ne_some.mpr fun e he => ?_, fun e he heq => ?_⟩
    · have hkey := (h.pool key k.cmdId e (JetpackCommandPool.lookup_of_remove hremove he)).1
      rw [hw] at hkey
      subst hkey
      rw [lookup_run_removeMember (JetpackCommandPool.remove_eq_run hremove) hm hk] at he
      cases he
    · -- commands of the fast path have no entry in the map
      cases hskip : cfg.skipPoolForOriginalPath with
      | false =>
        have hempty : r.server.inflight key = [] := h.recorded.no_map (.inr hskip) key
        have he : e ∈ r.server.inflight key := he
        rw [hempty] at he
        cases he
      | true =>
        have hmember := (members_of_needRecord (hpath hskip) m hm).2
        rw [hneed] at hmember
        cases hmember
        have hkey := h.map key e he
        rw [heq, hw] at hkey
        cases hkey
  · refine ⟨Option.eq_none_iff_forall_ne_some.mpr fun e he => ?_, (h.free id hold key).2⟩
    have he := JetpackCommandPool.lookup_of_remove hremove he
    rw [(h.free id hold key).1] at he
    cases he

theorem Clean.applyLogs {log : Marshallable} (h : Clean cfg w r)
    (hagrees : ∀ m ∈ PoolOp.members log, agrees w m = true)
    (hexec : r.server.ruleCommandPoolGC cfg log = .ok s') :
    Clean cfg w ⟨s', finishedAfter r.finished (.applyLogs log)⟩ := by
  have hrec := h.recorded.gc hexec
  obtain ⟨hcurp, witness, rfl⟩ | ⟨-, hskip, hneed, hcases⟩ | ⟨-, hpath, n, p, hremove, rfl⟩ :=
    Server.ruleCommandPoolGC_ok hexec
  · refine h.keep rfl rfl fun id _ key => ?_
    rw [h.recorded.no_pool hcurp, h.recorded.no_map (.inl hcurp)]
    exact ⟨rfl, fun e he => by cases he⟩
  · have hmembers := members_of_needRecord hneed
    obtain ⟨hnone, rfl⟩ | ⟨k, hk, rfl⟩ := hcases
    · refine h.keep rfl rfl fun id hid => ?_
      rcases List.mem_append.mp hid with hown | hold
      · obtain ⟨m, hm, hid⟩ := List.mem_filterMap.mp hown
        obtain ⟨k, hk, -⟩ := idOf_eq_some hid
        rw [(hmembers m hm).1, hnone] at hk
        cases hk
      · exact h.free id hold
    · have hone : PoolOp.members log ≠ [] := by
        intro hempty
        cases log with
        | tpcBatch cs =>
          cases cs with
          | nil => cases hneed
          | cons c cs => cases hempty
        | _ => cases hempty
      obtain ⟨m, hm⟩ := List.exists_mem_of_ne_nil _ hone
      obtain ⟨hsame, hneed'⟩ := hmembers m hm
      have hw := (agrees_iff (hsame.trans hk) hneed').mp (hagrees m hm)
      refine h.eraseInflight hrec hskip hw fun id hid => ?_
      rcases List.mem_append.mp hid with hown | hold
      · obtain ⟨m', hm', hid⟩ := List.mem_filterMap.mp hown
        obtain ⟨k', hk', rfl⟩ := idOf_eq_some hid
        rw [(hmembers m' hm').1, hk] at hk'
        cases hk'
        exact .inl rfl
      · exact .inr hold
  · exact h.remove hrec hagrees hpath hremove

theorem Clean.step {e : Event} (h : Clean cfg w r) (hok : leavesNothing cfg r e = true)
    (hstep : r.step cfg w e = some r') : Clean cfg w r' := by
  unfold Replica.step at hstep
  split at hstep
  case isFalse => cases hstep
  case isTrue hagrees =>
    obtain ⟨s', hs, rfl⟩ := Option.map_eq_some_iff.mp hstep
    unfold Server.step at hs
    split at hs
    case isFalse => cases hs
    case isTrue hsent =>
      have hs := Except.toOption_eq_some hs
      rw [List.all_eq_true] at hagrees
      cases e with
      | speculativeExecute cmd =>
        have hneed : needRecordConflictInOriginalPath cmd = .ok false := by
          simpa [Event.sent] using hsent
        cases hexec : r.server.onRuleSpeculativeExecute cfg cmd with
        | error f => simp [Server.handle, hexec, Functor.map, Except.map] at hs
        | ok x =>
          obtain ⟨b, t⟩ := x
          obtain rfl : t = s' := by simpa [Server.handle, hexec, Functor.map, Except.map] using hs
          exact h.speculativeExecute hneed (hagrees cmd List.mem_cons_self) hok hexec
      | dispatch cmd => exact h.dispatch hsent (hagrees cmd List.mem_cons_self) hok hs
      | wrongLeader cmd =>
        cases hs
        exact h.wrongLeader (hagrees cmd List.mem_cons_self) hok
      | applyLogs log => exact h.applyLogs hagrees hs
      | resetPool =>
        cases hs
        refine ⟨⟨JetpackCommandPool.wellFormed_empty, JetpackCommandPool.keyed_empty,
          h.recorded.no_map, fun _ => rfl⟩, fun key id e he => ?_, h.map, h.once, fun id hid key => ?_⟩
        · cases he
        · exact ⟨rfl, (h.free id hid key).2⟩
      | setPaused b =>
        cases hs
        exact h.keep rfl rfl h.free
      | setIsLeader b =>
        cases hs
        exact h.keep rfl rfl h.free
      | setStatus st =>
        cases hs
        exact h.keep rfl rfl h.free

/-- In every run whose events add nothing for a command that is done with, and in which a command is
rejected only while nothing is recorded of it, neither the pool nor the map holds an entry of a
command that was applied or rejected. -/
theorem no_phantom_conflicts (cfg : Config) (w : CmdId → Key × Bool) (r : Replica)
    (h : ReachableWhere (Replica.step cfg w) (fun r e => leavesNothing cfg r e = true) {} r) :
    NoPhantom r := by
  have hclean : Clean cfg w r :=
    h.invariant (fun _ _ _ hr hok hstep => hr.step hok hstep) clean_start
  exact hclean.free

/-- A write of key 7 by client 1 that is sent on the original path alone. -/
def originalWriteOfKey7 (cmdIdInClient : BitVec 32) : Marshallable :=
  .container { type := rwBenchmarkWTxn, clientId := 1, cmdIdInClient,
               ruleModeOnAndIsOriginalPathOnlyCommand := true, input := [(0, .i32 7), (1, .i32 0)] }

def secondOriginal (id : CmdId) : Key × Bool := (7, id == combineInt32 1 2)

def bothPaths : List Event :=
  [.speculativeExecute (PoolOp.writeOfKey7 1), .dispatch (PoolOp.writeOfKey7 1),
    .dispatch (originalWriteOfKey7 2), .applyLogs (PoolOp.writeOfKey7 1),
    .applyLogs (originalWriteOfKey7 2)]

theorem no_phantom_conflicts_both_paths :
    ∃ r, ReachableWhere (Replica.step ⟨false, true⟩ secondOriginal)
        (fun r e => leavesNothing ⟨false, true⟩ r e = true) {} r ∧
      r.finished = [combineInt32 1 2, combineInt32 1 1] ∧ NoPhantom r := by
  obtain ⟨r, hreach, hfinished⟩ := exists_reachableWhere
    (p := fun r => r.finished == [combineInt32 1 2, combineInt32 1 1])
    (show (runWhere (Replica.step ⟨false, true⟩ secondOriginal)
      (fun r e => leavesNothing ⟨false, true⟩ r e = true) {} bothPaths).any _ = true
      by decide +kernel)
  exact ⟨r, hreach, by simpa using hfinished, no_phantom_conflicts _ _ r hreach⟩

def lateRequest : List Event :=
  [.dispatch (PoolOp.writeOfKey7 1), .applyLogs (PoolOp.writeOfKey7 1),
    .speculativeExecute (PoolOp.writeOfKey7 1)]

def rejectedDispatch : List Event :=
  [.dispatch (originalWriteOfKey7 2), .wrongLeader (originalWriteOfKey7 2)]

/-- A late request leaves an entry of an applied command in the pool, and a rejected dispatch one of
a rejected command, in the pool and in the map alike. -/
theorem phantoms_remain :
    (∃ r, Reachable (Replica.step ⟨false, false⟩ secondOriginal) {} r ∧ ¬ NoPhantom r ∧
      combineInt32 1 1 ∈ r.finished) ∧
    ∀ skip : Bool, ∃ r, Reachable (Replica.step ⟨false, skip⟩ secondOriginal) {} r ∧
      ¬ NoPhantom r ∧ combineInt32 1 2 ∈ r.finished := by
  constructor
  · obtain ⟨r, hreach, hp⟩ := exists_reachableWhere
      (p := fun r => r.finished.contains (combineInt32 1 1) &&
        ((r.server.commandPool.bucket 7).candidates.lookup (combineInt32 1 1)).isSome)
      (show (runWhere (Replica.step ⟨false, false⟩ secondOriginal)
        (fun _ _ => True) {} lateRequest).any _ = true by decide +kernel)
    obtain ⟨hfin, hstored⟩ := Bool.and_eq_true_iff.mp hp
    have hmem : combineInt32 1 1 ∈ r.finished := by simpa using hfin
    refine ⟨r, hreach, fun hfree => ?_, hmem⟩
    rw [(hfree _ hmem 7).1] at hstored
    cases hstored
  · intro skip
    obtain ⟨r, hreach, hp⟩ := exists_reachableWhere
      (p := fun r => r.finished.contains (combineInt32 1 2) &&
        (((r.server.commandPool.bucket 7).candidates.lookup (combineInt32 1 2)).isSome ||
          (r.server.inflight 7).any fun e => e.cmdId == combineInt32 1 2))
      (show (runWhere (Replica.step ⟨false, skip⟩ secondOriginal)
        (fun _ _ => True) {} rejectedDispatch).any _ = true by cases skip <;> decide +kernel)
    obtain ⟨hfin, hstored⟩ := Bool.and_eq_true_iff.mp hp
    have hmem : combineInt32 1 2 ∈ r.finished := by simpa using hfin
    refine ⟨r, hreach, fun hfree => ?_, hmem⟩
    obtain ⟨hpool, hmap⟩ := hfree _ hmem 7
    rw [hpool, Option.isSome_none, Bool.false_or, List.any_eq_true] at hstored
    obtain ⟨e, he, heq⟩ := hstored
    exact hmap e he (by simpa using heq)

end Jetpack.FastPath
