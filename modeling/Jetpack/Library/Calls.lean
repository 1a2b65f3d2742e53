import Mathlib.Data.List.Infix

/-! Sequences of fallible calls on one object. A sequence stops at its first failure. -/

namespace Calls

variable {σ ε κ : Type}

def run (call : σ → κ → Except ε σ) (s : σ) : List κ → Except ε σ
  | [] => .ok s
  | c :: cs =>
    match call s c with
    | .ok t => run call t cs
    | .error e => .error e

/-- Every call that is made meets the condition in the state it is made in. -/
def everyCall (call : σ → κ → Except ε σ) (good : σ → κ → Bool) (s : σ) : List κ → Bool
  | [] => true
  | c :: cs =>
    match call s c with
    | .ok t => good s c && everyCall call good t cs
    | .error _ => true

theorem run_cons_eq_ok {call : σ → κ → Except ε σ} {s u : σ} {c : κ} {cs : List κ}
    (h : run call s (c :: cs) = .ok u) : ∃ t, call s c = .ok t ∧ run call t cs = .ok u := by
  unfold run at h
  split at h
  · next t ht => exact ⟨t, ht, h⟩
  · cases h

theorem run_cons {call : σ → κ → Except ε σ} {s t : σ} {c : κ} (cs : List κ)
    (h : call s c = .ok t) : run call s (c :: cs) = run call t cs := by
  simp only [run, h]

/-- What every call that meets the condition keeps, a sequence of such calls keeps. -/
theorem run_induct {call : σ → κ → Except ε σ} {good : σ → κ → Bool} {P : σ → Prop}
    (hstep : ∀ s c t, P s → good s c = true → call s c = .ok t → P t) {s u : σ} {cs : List κ}
    (hs : P s) (hgood : everyCall call good s cs = true) (h : run call s cs = .ok u) : P u := by
  induction cs generalizing s with
  | nil =>
    cases h
    exact hs
  | cons c cs ih =>
    obtain ⟨t, ht, h⟩ := run_cons_eq_ok h
    simp only [everyCall, ht, Bool.and_eq_true] at hgood
    exact ih (hstep s c t hs hgood.1 ht) hgood.2 h

theorem everyCall_of_initial {call : σ → κ → Except ε σ} {good : σ → κ → Bool} {s : σ}
    {before cs : List κ} (hpre : before <+: cs) (h : everyCall call good s cs = true) :
    everyCall call good s before = true := by
  induction before generalizing s cs with
  | nil => rfl
  | cons c before ih =>
    obtain ⟨rest, rfl⟩ := hpre
    cases hc : call s c with
    | error e => simp only [everyCall, hc]
    | ok t =>
      simp only [List.cons_append, everyCall, hc, Bool.and_eq_true] at h ⊢
      exact ⟨h.1, ih (List.prefix_append before rest) h.2⟩

theorem run_mem_induct {call : σ → κ → Except ε σ} {P : σ → Prop} {cs : List κ}
    (hstep : ∀ s, ∀ c ∈ cs, ∀ t, P s → call s c = .ok t → P t) {s u : σ} (hs : P s)
    (h : run call s cs = .ok u) : P u := by
  induction cs generalizing s with
  | nil =>
    cases h
    exact hs
  | cons c cs ih =>
    obtain ⟨t, ht, h⟩ := run_cons_eq_ok h
    have hrest : ∀ s, ∀ c' ∈ cs, ∀ t, P s → call s c' = .ok t → P t :=
      fun s c' hc' => hstep s c' (List.mem_cons_of_mem c hc')
    exact ih hrest (hstep s c List.mem_cons_self t hs ht) h

/-- Where a call that meets a condition keeps an invariant, and one that does not meet it breaks a
property the invariant implies, the property holds in every state passed through exactly when every
call meets the condition. -/
theorem forall_prefix_iff {call : σ → κ → Except ε σ} {good : σ → κ → Bool} {P Q : σ → Prop}
    (hPQ : ∀ s, P s → Q s)
    (hstep : ∀ s c t, P s → call s c = .ok t → (good s c = true → P t) ∧ (Q t → good s c = true))
    {s : σ} (hs : P s) (cs : List κ) :
    (∀ before, before <+: cs → ∀ u, run call s before = .ok u → Q u) ↔
      everyCall call good s cs = true := by
  constructor
  · intro hall
    induction cs generalizing s with
    | nil => rfl
    | cons c cs ih =>
      cases hc : call s c with
      | error e => simp only [everyCall, hc]
      | ok t =>
        obtain ⟨hkeep, hneed⟩ := hstep s c t hs hc
        have hgood := hneed (hall [c] (List.prefix_append [c] cs) t (run_cons [] hc))
        simp only [everyCall, hc, Bool.and_eq_true]
        refine ⟨hgood, ih (hkeep hgood) fun before hpre u hu => ?_⟩
        refine hall (c :: before) (List.cons_prefix_cons.mpr ⟨rfl, hpre⟩) u ?_
        rw [run_cons before hc]
        exact hu
  · intro hgood before hpre u hu
    refine hPQ u (run_induct (fun s c t hs hg hc => (hstep s c t hs hc).1 hg) hs ?_ hu)
    exact everyCall_of_initial hpre hgood

end Calls
