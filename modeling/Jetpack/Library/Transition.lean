import Mathlib.Logic.Relation

/-! Runs of a partial step function. A run may be restricted to steps at which a condition on the
state and the event holds. -/

namespace Transition

variable {σ ε : Type}

def StepWhere (step : σ → ε → Option σ) (ok : σ → ε → Prop) (s t : σ) : Prop :=
  ∃ e, ok s e ∧ step s e = some t

abbrev ReachableWhere (step : σ → ε → Option σ) (ok : σ → ε → Prop) :=
  Relation.ReflTransGen (StepWhere step ok)

abbrev Reachable (step : σ → ε → Option σ) :=
  ReachableWhere step (fun _ _ => True)

theorem ReachableWhere.invariant {step : σ → ε → Option σ} {ok : σ → ε → Prop} {I : σ → Prop}
    (hstep : ∀ s e t, I s → ok s e → step s e = some t → I t) {s t : σ}
    (h : ReachableWhere step ok s t) (hs : I s) : I t := by
  induction h with
  | refl => exact hs
  | tail _ hlast ih =>
    obtain ⟨e, hok, he⟩ := hlast
    exact hstep _ e _ ih hok he

theorem ReachableWhere.weaken {step : σ → ε → Option σ} {ok ok' : σ → ε → Prop}
    (hok : ∀ s e, ok s e → ok' s e) {s t : σ} (h : ReachableWhere step ok s t) :
    ReachableWhere step ok' s t := by
  induction h with
  | refl => exact .refl
  | tail _ hlast ih =>
    obtain ⟨e, he, hstep⟩ := hlast
    exact ih.tail ⟨e, hok _ e he, hstep⟩

/-- The state after a list of events, if all of them can happen and meet the condition. -/
def runWhere (step : σ → ε → Option σ) (ok : σ → ε → Prop) [∀ s e, Decidable (ok s e)] (s : σ) :
    List ε → Option σ
  | [] => some s
  | e :: es => if ok s e then (step s e).bind fun t => runWhere step ok t es else none

theorem reachableWhere_of_runWhere {step : σ → ε → Option σ} {ok : σ → ε → Prop}
    [∀ s e, Decidable (ok s e)] {s t : σ} {es : List ε} (h : runWhere step ok s es = some t) :
    ReachableWhere step ok s t := by
  induction es generalizing s with
  | nil =>
    cases h
    exact .refl
  | cons e es ih =>
    unfold runWhere at h
    split at h
    · next hok =>
      obtain ⟨u, hu, h⟩ := Option.bind_eq_some_iff.mp h
      exact .head ⟨e, hok, hu⟩ (ih h)
    · cases h

/-- A check of the last state of a run finds a reachable state. -/
theorem exists_reachableWhere {step : σ → ε → Option σ} {ok : σ → ε → Prop}
    [∀ s e, Decidable (ok s e)] {s : σ} {es : List ε} {p : σ → Bool}
    (h : (runWhere step ok s es).any p = true) :
    ∃ t, ReachableWhere step ok s t ∧ p t = true := by
  cases hrun : runWhere step ok s es with
  | none => simp [hrun] at h
  | some t => exact ⟨t, reachableWhere_of_runWhere hrun, by simpa [hrun] using h⟩

/-- A relation between state, event and next state holds at every step of a run. The run ends where
an event cannot happen. -/
def EveryStep (step : σ → ε → Option σ) (R : σ → ε → σ → Prop) (s : σ) : List ε → Prop
  | [] => True
  | e :: es => ∀ t, step s e = some t → R s e t ∧ EveryStep step R t es

theorem everyStep_cons {step : σ → ε → Option σ} {R : σ → ε → σ → Prop} {s t : σ} {e : ε}
    {es : List ε} (h : step s e = some t) :
    R s e t ∧ EveryStep step R t es ↔ EveryStep step R s (e :: es) := by
  constructor
  · intro hnext u hu
    obtain rfl := Option.some.inj (h.symm.trans hu)
    exact hnext
  · exact fun hall => hall t h

instance decidableEveryStep (step : σ → ε → Option σ) (R : σ → ε → σ → Prop)
    [∀ s e t, Decidable (R s e t)] : (s : σ) → (es : List ε) → Decidable (EveryStep step R s es)
  | _, [] => isTrue trivial
  | s, e :: es =>
    match h : step s e with
    | none => isTrue fun t ht => by simp [h] at ht
    | some t =>
      haveI := decidableEveryStep step R t es
      decidable_of_iff _ (everyStep_cons h)

/-- Two relations that agree where an invariant holds, and keep it, hold at every step of the same
runs. -/
theorem everyStep_iff {step : σ → ε → Option σ} {Q R : σ → ε → σ → Prop} {I : σ → Prop}
    (hagree : ∀ s e t, I s → step s e = some t → (Q s e t ↔ R s e t))
    (hkeep : ∀ s e t, I s → step s e = some t → R s e t → I t) {s : σ} (hs : I s) (es : List ε) :
    EveryStep step Q s es ↔ EveryStep step R s es := by
  induction es generalizing s with
  | nil => exact Iff.rfl
  | cons e es ih =>
    constructor
    · intro h t ht
      obtain ⟨hq, hrest⟩ := h t ht
      have hr := (hagree s e t hs ht).mp hq
      exact ⟨hr, (ih (hkeep s e t hs ht hr)).mp hrest⟩
    · intro h t ht
      obtain ⟨hr, hrest⟩ := h t ht
      exact ⟨(hagree s e t hs ht).mpr hr, (ih (hkeep s e t hs ht hr)).mpr hrest⟩

end Transition
