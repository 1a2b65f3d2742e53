import Mathlib

/-! The part of a Multi-Paxos server that executes what was decided. Calls of `OnCommit` arrive in any
order, also while the coroutine of an earlier one is suspended in `app_next_`. `none` is a `verify`
that does not hold. -/

namespace Jetpack.Paxos

variable {γ : Type}

structure PaxosData (γ : Type) where
  committedCmd : Option γ := none

structure PaxosServer (γ : Type) where
  minActiveSlot : Nat := 0
  maxExecutedSlot : Nat := 0
  maxCommittedSlot : Nat := 0
  logs : Nat → Option (PaxosData γ) := fun _ => none
  inApplyingLogs : Bool := false

/-- `int i = slot`. -/
def toInt (slot : Nat) : Int := Int.bmod slot (2 ^ 32)

def toSlot (i : Int) : Nat := (i % 2 ^ 64).toNat

namespace PaxosServer

def getInstance (s : PaxosServer γ) (id : Nat) : Option (PaxosServer γ × PaxosData γ) :=
  if id < s.minActiveSlot then none
  else
    let instance' := (s.logs id).getD {}
    some ({ s with logs := Function.update s.logs id (some instance') }, instance')

/-- The loop that frees slots. An overflow of the `int` is undefined, and `none` as well. -/
def trim (maxExecuted : Nat) : Nat → Int → (Nat → Option (PaxosData γ)) →
    Option (Int × (Nat → Option (PaxosData γ)))
  | 0, _, _ => none
  | fuel + 1, i, logs =>
    if 2 ^ 31 ≤ i + 1000 then none
    else if toSlot (i + 1000) < maxExecuted then
      trim maxExecuted fuel (i + 1) (Function.update logs (toSlot i) none)
    else some (i, logs)

/-- What `OnCommit` does after its loop. -/
def finish (s : PaxosServer γ) : Option (PaxosServer γ) := do
  let (i, logs) ← trim s.maxExecutedSlot (s.maxExecutedSlot + 1) (toInt s.minActiveSlot) s.logs
  return { s with logs := logs, minActiveSlot := toSlot i, inApplyingLogs := false }

end PaxosServer

/-- A server, the slots in whose `app_next_` a coroutine is suspended, the calls of `app_next_`, and the
commands that were decided. -/
structure State (γ : Type) extends PaxosServer γ where
  suspended : List Nat := []
  calls : List (Nat × γ) := []
  decided : List (Nat × γ) := []

inductive Event (γ : Type)
  | onCommit (slot : Nat) (cmd : γ)
  | resume (coroutine : Nat)

namespace State

/-- The loop of `OnCommit` up to its next call of `app_next_`. -/
def applyLogs (s : State γ) (id : Nat) : Option (State γ) :=
  if id ≤ s.maxCommittedSlot then do
    let (t, nextInstance) ← s.getInstance id
    match nextInstance.committedCmd with
    | some cmd =>
      return { s with
        toPaxosServer := t
        suspended := s.suspended ++ [id]
        calls := s.calls ++ [(id, cmd)] }
    | none => t.finish.map fun t => { s with toPaxosServer := t }
  else s.finish.map fun t => { s with toPaxosServer := t }

def onCommit (s : State γ) (slot : Nat) (cmd : γ) : Option (State γ) := do
  let (t, _) ← s.getInstance slot
  let u : PaxosServer γ := { t with
    logs := Function.update t.logs slot (some { committedCmd := some cmd })
    maxCommittedSlot := max t.maxCommittedSlot slot }
  let v : State γ := { s with toPaxosServer := u, decided := s.decided ++ [(slot, cmd)] }
  if slot ≤ u.maxExecutedSlot then none
  else if u.inApplyingLogs then return v
  else applyLogs { v with inApplyingLogs := true } (u.maxExecutedSlot + 1)

def resume (s : State γ) (coroutine : Nat) : Option (State γ) := do
  let id ← s.suspended[coroutine]?
  applyLogs { s with
    suspended := s.suspended.eraseIdx coroutine
    maxExecutedSlot := s.maxExecutedSlot + 1 } (id + 1)

def step (s : State γ) : Event γ → Option (State γ)
  | .onCommit slot cmd => s.onCommit slot cmd
  | .resume coroutine => s.resume coroutine

theorem applyLogs_decided {s t : State γ} {id : Nat} (h : s.applyLogs id = some t) :
    t.decided = s.decided := by
  unfold applyLogs at h
  split at h
  · obtain ⟨⟨t', d⟩, hget, h⟩ := Option.bind_eq_some_iff.mp h
    dsimp only at h
    split at h
    · cases h
      rfl
    · obtain ⟨u, hu, rfl⟩ := Option.map_eq_some_iff.mp h
      rfl
  · obtain ⟨u, hu, rfl⟩ := Option.map_eq_some_iff.mp h
    rfl

theorem onCommit_decided {s t : State γ} {slot : Nat} {cmd : γ} (h : s.onCommit slot cmd = some t) :
    t.decided = s.decided ++ [(slot, cmd)] := by
  obtain ⟨⟨t', d⟩, hget, h⟩ := Option.bind_eq_some_iff.mp h
  dsimp only at h
  split at h
  · cases h
  split at h
  · cases h
    rfl
  · exact applyLogs_decided h

end State

namespace Event

def commit? : Event γ → Option (Nat × γ)
  | .onCommit slot cmd => some (slot, cmd)
  | .resume _ => none

end Event

def commits (es : List (Event γ)) : List (Nat × γ) := es.filterMap Event.commit?

/-- Slots are decided once, and are numbered from 1 below 2^31. -/
structure DecidedOnce (decided : List (Nat × γ)) : Prop where
  numbered : ∀ c ∈ decided, 1 ≤ c.1 ∧ c.1 < 2 ^ 31
  once : (decided.map Prod.fst).Nodup

/-- Between 0 and the last executed slot, which are the slots that a loop has freed. -/
def Behind (active executed : Nat) : Prop := active = 0 ∨ active + 1000 ≤ executed

theorem toInt_of_lt {slot : Nat} (h : slot < 2 ^ 31) : toInt slot = slot := by
  unfold toInt
  apply Int.bmod_eq_of_le <;> omega

theorem toSlot_natCast {slot : Nat} (h : slot < 2 ^ 64) : toSlot slot = slot := by
  unfold toSlot
  omega

/-- The trimming loop ends, and leaves the last thousand executed slots and all that come after. -/
theorem PaxosServer.trim_spec {executed : Nat} (hexecuted : executed < 2 ^ 31) (fuel active : Nat)
    (logs : Nat → Option (PaxosData γ)) (hactive : Behind active executed)
    (hfuel : executed < active + fuel) :
    ∃ (j : Nat) (logs' : Nat → Option (PaxosData γ)), trim executed fuel active logs = some (↑j, logs') ∧
      Behind j executed ∧ ∀ slot, executed ≤ slot + 1000 → logs' slot = logs slot := by
  unfold Behind at hactive
  induction fuel generalizing active logs with
  | zero => omega
  | succ fuel ih =>
    have hsmall : ¬ (2 : Int) ^ 31 ≤ (active : Int) + 1000 := by omega
    have hslot : toSlot ((active : Int) + 1000) = active + 1000 := by
      have hcast := toSlot_natCast (show active + 1000 < 2 ^ 64 by omega)
      push_cast at hcast
      exact hcast
    unfold trim
    rw [if_neg hsmall, hslot]
    by_cases hlt : active + 1000 < executed
    · rw [if_pos hlt, toSlot_natCast (by omega)]
      obtain ⟨j, logs', htrim, hj, hkept⟩ := ih (active + 1) (Function.update logs active none)
        (by omega) (by omega)
      refine ⟨j, logs', htrim, hj, fun slot hslot => ?_⟩
      have hne : slot ≠ active := by omega
      rw [hkept slot hslot, Function.update_of_ne hne]
    · rw [if_neg hlt]
      exact ⟨active, logs, rfl, hactive, fun slot _ => rfl⟩

/-- The committed command of a slot. -/
def PaxosServer.committed (s : PaxosServer γ) (slot : Nat) : Option γ :=
  (s.logs slot).bind PaxosData.committedCmd

/-- Only executed slots are freed on the way from one server to another. -/
def PaxosServer.FreesExecuted (s t : PaxosServer γ) : Prop :=
  ∀ slot, t.maxExecutedSlot < slot → (s.logs slot).isSome → (t.logs slot).isSome

theorem isSome_update {logs : Nat → Option (PaxosData γ)} {slot : Nat} (id : Nat) (d : PaxosData γ)
    (h : (logs slot).isSome) : (Function.update logs id (some d) slot).isSome := by
  by_cases hslot : slot = id
  · rw [hslot, Function.update_self]
    rfl
  · rwa [Function.update_of_ne hslot]

/-- The server knows what was decided behind the last executed slot, and frees nothing there. -/
structure PaxosServer.Keeps (s : PaxosServer γ) (decided : List (Nat × γ)) : Prop where
  committed : ∀ slot cmd, s.maxExecutedSlot < slot →
    (s.committed slot = some cmd ↔ (slot, cmd) ∈ decided)
  upTo : ∀ c ∈ decided, c.1 ≤ s.maxCommittedSlot
  bound : s.maxExecutedSlot ≤ s.maxCommittedSlot ∧ s.maxCommittedSlot < 2 ^ 31
  active : Behind s.minActiveSlot s.maxExecutedSlot

theorem PaxosServer.getInstance_spec {s : PaxosServer γ} {decided : List (Nat × γ)}
    (h : s.Keeps decided) {id : Nat} (hid : s.maxExecutedSlot < id) :
    ∃ t d, s.getInstance id = some (t, d) ∧ t.Keeps decided ∧ d.committedCmd = s.committed id ∧
      t.minActiveSlot = s.minActiveSlot ∧ t.maxExecutedSlot = s.maxExecutedSlot ∧
      t.maxCommittedSlot = s.maxCommittedSlot ∧ t.inApplyingLogs = s.inApplyingLogs ∧
      (∀ slot, t.committed slot = s.committed slot) ∧ s.FreesExecuted t := by
  have hactive : ¬ id < s.minActiveSlot := by
    have hbehind := h.active
    unfold Behind at hbehind
    omega
  have hsame : ∀ slot, PaxosServer.committed
      { s with logs := Function.update s.logs id (some ((s.logs id).getD {})) } slot =
        s.committed slot := by
    intro slot
    unfold committed
    by_cases hslot : slot = id
    · subst hslot
      dsimp only
      rw [Function.update_self]
      cases s.logs slot <;> rfl
    · dsimp only
      rw [Function.update_of_ne hslot]
  refine ⟨_, _, if_neg hactive, ?_, ?_, rfl, rfl, rfl, rfl, hsame, ?_⟩
  · refine ⟨fun slot cmd hslot => ?_, h.upTo, h.bound, h.active⟩
    rw [hsame]
    exact h.committed slot cmd hslot
  · unfold committed
    cases s.logs id <;> rfl
  · exact fun slot _ hsome => isSome_update id _ hsome

theorem PaxosServer.finish_spec {s : PaxosServer γ} {decided : List (Nat × γ)}
    (h : s.Keeps decided) :
    ∃ t, s.finish = some t ∧ t.Keeps decided ∧ t.inApplyingLogs = false ∧
      t.maxExecutedSlot = s.maxExecutedSlot ∧ s.FreesExecuted t := by
  have hbehind := h.active
  have hbound := h.bound
  have hactive : s.minActiveSlot < 2 ^ 31 := by
    unfold Behind at hbehind
    omega
  obtain ⟨j, logs', htrim, hj, hkept⟩ := trim_spec (show s.maxExecutedSlot < 2 ^ 31 by omega)
    (s.maxExecutedSlot + 1) s.minActiveSlot s.logs hbehind (by omega)
  have hslot : toSlot j = j := by
    unfold Behind at hj
    exact toSlot_natCast (by omega)
  unfold finish
  rw [toInt_of_lt hactive, htrim]
  refine ⟨_, rfl, ⟨fun slot cmd hlt => ?_, h.upTo, hbound, ?_⟩, rfl, rfl, fun slot hlt hsome => ?_⟩
  · rw [← h.committed slot cmd hlt]
    have hsame := hkept slot (by dsimp only at hlt; omega)
    unfold committed
    dsimp only
    rw [hsame]
  · rw [hslot]
    exact hj
  · have hsame := hkept slot (by dsimp only at hlt; omega)
    dsimp only
    rwa [hsame]

/-- At most one coroutine is suspended, in `app_next_` of the slot behind the last executed one. The
slots up to there were called once each, in order, with what was decided. -/
structure Inv (s : State γ) : Prop where
  keeps : s.Keeps s.decided
  applying : (s.suspended = [] ∧ s.inApplyingLogs = false) ∨
    (s.suspended = [s.maxExecutedSlot + 1] ∧ s.inApplyingLogs = true)
  order : s.calls.map Prod.fst = List.range' 1 (s.maxExecutedSlot + s.suspended.length)
  decided : ∀ c ∈ s.calls, c ∈ s.decided
  numbered : ∀ c ∈ s.decided, 1 ≤ c.1
  once : (s.decided.map Prod.fst).Nodup
  stopped : s.suspended = [] → ∀ cmd, (s.maxExecutedSlot + 1, cmd) ∉ s.decided

/-- The loop of a coroutine that has the flag. -/
structure Applying (s : State γ) : Prop where
  keeps : s.Keeps s.decided
  alone : s.suspended = [] ∧ s.inApplyingLogs = true
  order : s.calls.map Prod.fst = List.range' 1 s.maxExecutedSlot
  decided : ∀ c ∈ s.calls, c ∈ s.decided
  numbered : ∀ c ∈ s.decided, 1 ≤ c.1
  once : (s.decided.map Prod.fst).Nodup

theorem Applying.stop {s : State γ} {t : PaxosServer γ} (h : Applying s) (ht : t.Keeps s.decided)
    (hflag : t.inApplyingLogs = false) (hexecuted : t.maxExecutedSlot = s.maxExecutedSlot)
    (hstop : ∀ cmd, (s.maxExecutedSlot + 1, cmd) ∉ s.decided) :
    Inv { s with toPaxosServer := t } where
  keeps := ht
  applying := .inl ⟨h.alone.1, hflag⟩
  order := by
    show s.calls.map Prod.fst = List.range' 1 (t.maxExecutedSlot + s.suspended.length)
    rw [h.alone.1, hexecuted]
    exact h.order
  decided := h.decided
  numbered := h.numbered
  once := h.once
  stopped _ cmd := by
    show (t.maxExecutedSlot + 1, cmd) ∉ s.decided
    rw [hexecuted]
    exact hstop cmd

theorem Applying.applyLogs {s : State γ} (h : Applying s) :
    ∃ t, s.applyLogs (s.maxExecutedSlot + 1) = some t ∧ Inv t ∧ t.decided = s.decided ∧
      t.maxExecutedSlot = s.maxExecutedSlot ∧ s.FreesExecuted t.toPaxosServer := by
  unfold State.applyLogs
  by_cases hle : s.maxExecutedSlot + 1 ≤ s.maxCommittedSlot
  · rw [if_pos hle]
    obtain ⟨t, d, hget, ht, hd, -, hexecuted, hmax, hflag, hsame, hfrees⟩ :=
      PaxosServer.getInstance_spec h.keeps (Nat.lt_succ_self s.maxExecutedSlot)
    have hcommitted := fun cmd => h.keeps.committed (s.maxExecutedSlot + 1) cmd (by omega)
    rw [hget, Option.bind_eq_bind, Option.bind_some]
    dsimp only
    cases hcmd : d.committedCmd with
    | some cmd =>
      rw [hcmd] at hd
      have hdecided := (hcommitted cmd).mp hd.symm
      refine ⟨_, rfl, ⟨ht, .inr ⟨?_, ?_⟩, ?_, ?_, h.numbered, h.once, ?_⟩, rfl, hexecuted, hfrees⟩
      · show s.suspended ++ [s.maxExecutedSlot + 1] = [t.maxExecutedSlot + 1]
        rw [h.alone.1, hexecuted]
        rfl
      · exact hflag.trans h.alone.2
      · show (s.calls ++ [(s.maxExecutedSlot + 1, cmd)]).map Prod.fst =
          List.range' 1 (t.maxExecutedSlot + (s.suspended ++ [s.maxExecutedSlot + 1]).length)
        rw [h.alone.1, hexecuted, List.map_append, h.order, List.nil_append, List.length_singleton,
          List.range'_1_concat, Nat.add_comm 1]
        rfl
      · intro c hc
        rcases List.mem_append.mp hc with hc | hc
        · exact h.decided c hc
        · rw [List.mem_singleton.mp hc]
          exact hdecided
      · intro hnil
        simp at hnil
    | none =>
      rw [hcmd] at hd
      obtain ⟨u, hfinish, hu, huflag, huexecuted, hufrees⟩ := PaxosServer.finish_spec ht
      dsimp only
      rw [hfinish]
      have hexec := huexecuted.trans hexecuted
      refine ⟨_, rfl, h.stop hu huflag hexec fun cmd hmem => ?_, rfl, hexec, fun slot hlt hsome => ?_⟩
      · rw [(hcommitted cmd).mpr hmem] at hd
        cases hd
      · dsimp only at hlt
        exact hufrees slot hlt (hfrees slot (by omega) hsome)
  · rw [if_neg hle]
    obtain ⟨u, hfinish, hu, huflag, huexecuted, hufrees⟩ := PaxosServer.finish_spec h.keeps
    rw [hfinish]
    refine ⟨_, rfl, h.stop hu huflag huexecuted fun cmd hmem => ?_, rfl, huexecuted, hufrees⟩
    exact hle (h.keeps.upTo _ hmem)

theorem PaxosServer.Keeps.commit {s : PaxosServer γ} {decided : List (Nat × γ)}
    (h : s.Keeps decided) {slot : Nat} (cmd : γ) (hslot : slot < 2 ^ 31)
    (hnew : slot ∉ decided.map Prod.fst) :
    PaxosServer.Keeps { s with
      logs := Function.update s.logs slot (some { committedCmd := some cmd })
      maxCommittedSlot := max s.maxCommittedSlot slot } (decided ++ [(slot, cmd)]) where
  committed k c hk := by
    unfold PaxosServer.committed
    dsimp only
    by_cases hks : k = slot
    · subst hks
      rw [Function.update_self, List.mem_append, List.mem_singleton, Prod.mk.injEq]
      have hnone : (k, c) ∉ decided := fun hmem => hnew (List.mem_map_of_mem hmem)
      constructor
      · intro hsome
        exact .inr ⟨rfl, (Option.some.inj hsome).symm⟩
      · rintro (hmem | ⟨-, rfl⟩)
        · exact absurd hmem hnone
        · rfl
    · rw [Function.update_of_ne hks, List.mem_append, List.mem_singleton, Prod.mk.injEq]
      have hold := h.committed k c hk
      unfold PaxosServer.committed at hold
      rw [hold]
      constructor
      · exact .inl
      · rintro (hmem | ⟨rfl, -⟩)
        · exact hmem
        · exact absurd rfl hks
  upTo c hc := by
    rcases List.mem_append.mp hc with hc | hc
    · exact le_trans (h.upTo c hc) (le_max_left _ _)
    · rw [List.mem_singleton.mp hc]
      exact le_max_right _ _
  bound := ⟨le_trans h.bound.1 (le_max_left _ _), max_lt h.bound.2 hslot⟩
  active := h.active

theorem Inv.executed {s : State γ} (h : Inv s) {slot : Nat} (hpos : 1 ≤ slot)
    (hle : slot ≤ s.maxExecutedSlot + s.suspended.length) : slot ∈ s.decided.map Prod.fst := by
  have hmem : slot ∈ s.calls.map Prod.fst := by
    rw [h.order, List.mem_range'_1]
    omega
  obtain ⟨c, hc, rfl⟩ := List.mem_map.mp hmem
  exact List.mem_map_of_mem (h.decided c hc)

theorem Inv.onCommit {s : State γ} (h : Inv s) {slot : Nat} (cmd : γ)
    (hslot : 1 ≤ slot ∧ slot < 2 ^ 31) (hnew : slot ∉ s.decided.map Prod.fst) :
    ∃ t, s.onCommit slot cmd = some t ∧ Inv t ∧ s.FreesExecuted t.toPaxosServer := by
  have hlater : s.maxExecutedSlot < slot := by
    by_contra hle
    exact hnew (h.executed hslot.1 (by omega))
  obtain ⟨t, d, hget, ht, -, -, hexecuted, -, hflag, -, hfrees⟩ :=
    PaxosServer.getInstance_spec h.keeps hlater
  have hkeeps := ht.commit cmd hslot.2 hnew
  have hdecided : ∀ c ∈ s.calls, c ∈ s.decided ++ [(slot, cmd)] :=
    fun c hc => List.mem_append_left _ (h.decided c hc)
  have hnumbered : ∀ c ∈ s.decided ++ [(slot, cmd)], 1 ≤ c.1 := by
    intro c hc
    rcases List.mem_append.mp hc with hc | hc
    · exact h.numbered c hc
    · rw [List.mem_singleton.mp hc]
      exact hslot.1
  have honce : ((s.decided ++ [(slot, cmd)]).map Prod.fst).Nodup := by
    rw [List.map_append, List.nodup_append]
    refine ⟨h.once, List.nodup_singleton slot, fun a ha b hb hab => ?_⟩
    rw [hab, List.mem_singleton.mp hb] at ha
    exact hnew ha
  have hkept : ∀ k, (s.logs k).isSome → t.maxExecutedSlot < k →
      (Function.update t.logs slot (some { committedCmd := some cmd }) k).isSome :=
    fun k hsome hk => isSome_update slot _ (hfrees k hk hsome)
  unfold State.onCommit
  rw [hget, Option.bind_eq_bind, Option.bind_some]
  dsimp only
  rw [if_neg (by omega)]
  rcases h.applying with ⟨hnil, hidle⟩ | ⟨hone, hbusy⟩
  · rw [if_neg (by rw [hflag, hidle]; decide)]
    have happlying : Applying ({ s with
        minActiveSlot := t.minActiveSlot
        maxExecutedSlot := t.maxExecutedSlot
        maxCommittedSlot := max t.maxCommittedSlot slot
        logs := Function.update t.logs slot (some { committedCmd := some cmd })
        inApplyingLogs := true
        decided := s.decided ++ [(slot, cmd)] } : State γ) := by
      refine ⟨⟨hkeeps.committed, hkeeps.upTo, hkeeps.bound, hkeeps.active⟩, ⟨hnil, rfl⟩, ?_, hdecided,
        hnumbered, honce⟩
      show s.calls.map Prod.fst = List.range' 1 t.maxExecutedSlot
      rw [h.order, hnil, hexecuted]
      rfl
    obtain ⟨u, happly, hu, -, huexecuted, hufrees⟩ := happlying.applyLogs
    refine ⟨u, happly, hu, fun k hk hsome => hufrees k hk (hkept k hsome ?_)⟩
    rw [huexecuted] at hk
    exact hk
  · rw [if_pos (hflag.trans hbusy)]
    refine ⟨_, rfl, ⟨hkeeps, .inr ⟨?_, hflag.trans hbusy⟩, ?_, hdecided, hnumbered, honce, ?_⟩,
      fun k hk hsome => hkept k hsome hk⟩
    · show s.suspended = [t.maxExecutedSlot + 1]
      rw [hone, hexecuted]
    · show s.calls.map Prod.fst = List.range' 1 (t.maxExecutedSlot + s.suspended.length)
      rw [h.order, hexecuted]
    · intro hnil
      rw [hone] at hnil
      cases hnil

theorem Inv.resume {s : State γ} (h : Inv s) {coroutine : Nat}
    (hlt : coroutine < s.suspended.length) :
    ∃ t, s.resume coroutine = some t ∧ Inv t ∧ s.FreesExecuted t.toPaxosServer ∧
      t.decided = s.decided ∧ t.maxExecutedSlot = s.maxExecutedSlot + 1 := by
  rcases h.applying with ⟨hnil, -⟩ | ⟨hone, hbusy⟩
  · rw [hnil] at hlt
    simp at hlt
  rw [hone] at hlt
  obtain rfl : coroutine = 0 := by simpa using hlt
  have hexecuted : s.maxExecutedSlot + 1 ∈ s.decided.map Prod.fst :=
    h.executed (by omega) (by rw [hone, List.length_singleton])
  have hbound := h.keeps.bound
  have hbehind := h.keeps.active
  have happlying : Applying ({ s with
      suspended := s.suspended.eraseIdx 0
      maxExecutedSlot := s.maxExecutedSlot + 1 } : State γ) := by
    refine ⟨⟨fun slot cmd hslot => ?_, h.keeps.upTo, ⟨?_, hbound.2⟩, ?_⟩, ⟨?_, hbusy⟩, ?_, h.decided,
      h.numbered, h.once⟩
    · exact h.keeps.committed slot cmd (by dsimp only at hslot; omega)
    · obtain ⟨c, hc, heq⟩ := List.mem_map.mp hexecuted
      have hup := h.keeps.upTo c hc
      dsimp only
      omega
    · unfold Behind at hbehind ⊢
      dsimp only
      omega
    · show s.suspended.eraseIdx 0 = []
      rw [hone]
      rfl
    · show s.calls.map Prod.fst = List.range' 1 (s.maxExecutedSlot + 1)
      rw [h.order, hone]
      rfl
  obtain ⟨u, happly, hu, hdecided, huexecuted, hufrees⟩ := happlying.applyLogs
  refine ⟨u, ?_, hu, hufrees, hdecided, huexecuted⟩
  unfold State.resume
  rw [hone, List.getElem?_cons_zero, Option.bind_eq_bind, Option.bind_some]
  rw [hone] at happly
  exact happly

theorem Inv.step {s : State γ} (h : Inv s) {e : Event γ}
    (hdecided : DecidedOnce (s.decided ++ e.commit?.toList))
    (hsuspended : ∀ coroutine, e = .resume coroutine → coroutine < s.suspended.length) :
    ∃ t, s.step e = some t ∧ Inv t ∧ t.decided = s.decided ++ e.commit?.toList ∧
      s.FreesExecuted t.toPaxosServer := by
  cases e with
  | onCommit slot cmd =>
    have hslot := hdecided.numbered (slot, cmd) (List.mem_append_right _ (List.mem_singleton_self _))
    have honce := hdecided.once
    rw [List.map_append, List.nodup_append] at honce
    have hnew : slot ∉ s.decided.map Prod.fst :=
      fun hmem => honce.2.2 slot hmem slot (List.mem_singleton_self _) rfl
    obtain ⟨t, ht, hinv, hfrees⟩ := h.onCommit cmd hslot hnew
    exact ⟨t, ht, hinv, State.onCommit_decided ht, hfrees⟩
  | resume coroutine =>
    obtain ⟨t, ht, hinv, hfrees, hsame, -⟩ := h.resume (hsuspended coroutine rfl)
    exact ⟨t, ht, hinv, hsame.trans (List.append_nil _).symm, hfrees⟩

theorem Inv.initial : Inv ({} : State γ) where
  keeps :=
    { committed := fun slot cmd _ => by simp [PaxosServer.committed]
      upTo := fun c hc => by cases hc
      bound := ⟨le_refl 0, Nat.two_pow_pos 31⟩
      active := .inl rfl }
  applying := .inl ⟨rfl, rfl⟩
  order := rfl
  decided c hc := by cases hc
  numbered c hc := by cases hc
  once := List.nodup_nil
  stopped _ cmd hmem := by cases hmem

theorem commits_cons (e : Event γ) (es : List (Event γ)) :
    commits (e :: es) = e.commit?.toList ++ commits es := by
  cases e <;> rfl

theorem State.suspended_of_resume {s t : State γ} {coroutine : Nat}
    (h : s.resume coroutine = some t) : coroutine < s.suspended.length := by
  obtain ⟨id, hid, -⟩ := Option.bind_eq_some_iff.mp h
  exact (List.getElem?_eq_some_iff.mp hid).1

theorem DecidedOnce.left {decided more : List (Nat × γ)} (h : DecidedOnce (decided ++ more)) :
    DecidedOnce decided where
  numbered c hc := h.numbered c (List.mem_append_left _ hc)
  once := by
    have honce := h.once
    rw [List.map_append] at honce
    exact honce.of_append_left

/-- A run keeps the invariant, and decides what its calls of `OnCommit` say. -/
theorem Inv.run {s t : State γ} (h : Inv s) (es : List (Event γ))
    (hdecided : DecidedOnce (s.decided ++ commits es)) (hrun : es.foldlM State.step s = some t) :
    Inv t ∧ t.decided = s.decided ++ commits es := by
  induction es generalizing s with
  | nil =>
    obtain rfl := Option.some.inj hrun
    exact ⟨h, (List.append_nil _).symm⟩
  | cons e es ih =>
    rw [commits_cons, ← List.append_assoc] at hdecided ⊢
    obtain ⟨u, hu, hrest⟩ := Option.bind_eq_some_iff.mp hrun
    obtain ⟨u', hu', hinv, hsame, -⟩ := h.step hdecided.left fun coroutine he => by
      subst he
      exact State.suspended_of_resume hu
    obtain rfl := Option.some.inj (hu.symm.trans hu')
    rw [← hsame] at hdecided ⊢
    exact ih hinv hdecided hrest

/-- The suspended calls of `app_next_` only have to return. -/
theorem Inv.finishes {s : State γ} (h : Inv s) :
    ∃ m t, (List.replicate m (Event.resume 0)).foldlM State.step s = some t ∧ t.suspended = [] := by
  generalize hn : 2 ^ 31 - s.maxExecutedSlot = n
  induction n using Nat.strong_induction_on generalizing s with
  | _ n ih =>
    by_cases hnil : s.suspended = []
    · exact ⟨0, s, rfl, hnil⟩
    · obtain ⟨t, ht, hinv, -, hdecided, hexecuted⟩ := h.resume (List.length_pos_iff.mpr hnil)
      have hbound := hinv.keeps.bound
      obtain ⟨m, u, hu, hsuspended⟩ := ih (2 ^ 31 - t.maxExecutedSlot) (by omega) hinv rfl
      refine ⟨m + 1, u, ?_, hsuspended⟩
      rw [List.replicate_succ, List.foldlM_cons]
      exact Option.bind_eq_some_iff.mpr ⟨t, ht, hu⟩

def InPrefix (decided : List (Nat × γ)) (slot : Nat) : Prop :=
  1 ≤ slot ∧ ∀ k, 1 ≤ k → k ≤ slot → k ∈ decided.map Prod.fst

theorem Inv.called_iff {s : State γ} (h : Inv s) (hidle : s.suspended = []) (slot : Nat) :
    slot ∈ s.calls.map Prod.fst ↔ InPrefix s.decided slot := by
  have hlast : s.maxExecutedSlot + s.suspended.length = s.maxExecutedSlot := by
    rw [hidle]
    rfl
  rw [h.order, hlast, List.mem_range'_1]
  constructor
  · intro hle
    exact ⟨hle.1, fun k hpos hk => h.executed hpos (by omega)⟩
  · intro hshared
    refine ⟨hshared.1, ?_⟩
    by_contra hgt
    obtain ⟨c, hc, heq⟩ := List.mem_map.mp (hshared.2 (s.maxExecutedSlot + 1) (by omega) (by omega))
    apply h.stopped hidle c.2
    rw [← heq]
    exact hc

/-- What holds after every run with these calls of `OnCommit`: `app_next_` was called for slots in
order, each once and with what was decided; no `verify` can fail, and only executed slots are freed. When
no call of `app_next_` is suspended, which is so once they have returned, the whole prefix was executed. -/
structure InOrder (commits : List (Nat × γ)) (s : State γ) : Prop where
  order : ∃ n, s.calls.map Prod.fst = List.range' 1 n
  decided : ∀ c ∈ s.calls, c ∈ commits ∧ InPrefix commits c.1
  complete : s.suspended = [] → ∀ slot, slot ∈ s.calls.map Prod.fst ↔ InPrefix commits slot
  finishes : ∃ m t, (List.replicate m (Event.resume 0)).foldlM State.step s = some t ∧
    t.suspended = []
  verifies : ∀ e, DecidedOnce (commits ++ e.commit?.toList) →
    (∀ coroutine, e = .resume coroutine → coroutine < s.suspended.length) →
    ∃ t, s.step e = some t ∧ s.FreesExecuted t.toPaxosServer
  executed : ∀ slot, 1 ≤ slot → slot ≤ s.maxExecutedSlot → slot ∈ s.calls.map Prod.fst

/-- Multi-Paxos executes what was decided in the order of the slots. -/
theorem executes_in_order (es : List (Event γ)) {s : State γ} (hdecided : DecidedOnce (commits es))
    (hrun : es.foldlM State.step {} = some s) : InOrder (commits es) s := by
  obtain ⟨h, hsame⟩ := Inv.run .initial es hdecided hrun
  rw [show commits es = s.decided from hsame.symm]
  refine ⟨⟨_, h.order⟩, fun c hc => ⟨h.decided c hc, ?_⟩, h.called_iff, h.finishes,
    fun e he hsuspended => ?_, ?_⟩
  · have hslot := List.mem_map_of_mem (f := Prod.fst) hc
    rw [h.order, List.mem_range'_1] at hslot
    exact ⟨hslot.1, fun k hpos hk => h.executed hpos (by omega)⟩
  · obtain ⟨t, ht, -, -, hfrees⟩ := h.step he hsuspended
    exact ⟨t, ht, hfrees⟩
  · intro slot hpos hle
    rw [h.order, List.mem_range'_1]
    omega

/-- Slot 2 is decided before slot 1, and slot 3 while `app_next_` of slot 1 is suspended. -/
def threeSlots : List (Event Nat) :=
  [.onCommit 2 20, .onCommit 1 10, .onCommit 3 30, .resume 0, .resume 0, .resume 0]

theorem executes_in_order_three : ∃ s, threeSlots.foldlM State.step {} = some s ∧
    s.calls = [(1, 10), (2, 20), (3, 30)] ∧ s.suspended = [] ∧
    InOrder [(2, 20), (1, 10), (3, 30)] s := by
  have hdecided : DecidedOnce (commits threeSlots) := ⟨by decide, by decide⟩
  exact ⟨_, rfl, rfl, rfl, executes_in_order threeSlots hdecided rfl⟩

end Jetpack.Paxos
