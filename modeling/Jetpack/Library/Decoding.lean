import Mathlib.Data.List.Forall2
import Mathlib.Tactic.Basic

/-! Decoders that take bytes from the front of a stream. A decoder of recursive data is a family
indexed by fuel. `Spec` says of a decoder and the bytes written for a value when it reads that
value back: if a condition holds it does, given enough fuel, and otherwise it never returns the
value. -/

namespace Decoding

abbrev Bytes := List UInt8

abbrev Parser (α : Type) := StateT Bytes Option α

structure Codec (α : Type) where
  put : α → Bytes
  get : Parser α
  get_put : ∀ x rest, get.run (put x ++ rest) = some (x, rest)

variable {α β : Type}

def Reads (d : Nat → Parser α) (b : Bytes) (x : α) : Prop :=
  (∃ N, ∀ fuel, N ≤ fuel → ∀ rest, (d fuel).run (b ++ rest) = some (x, rest)) ∧
  ∀ fuel rest y r, (d fuel).run (b ++ rest) = some (y, r) → y = x ∧ r = rest

def Misreads (d : Nat → Parser α) (b : Bytes) (x : α) : Prop :=
  ∀ fuel rest y r, (d fuel).run (b ++ rest) = some (y, r) → y ≠ x

def Spec (d : Nat → Parser α) (b : Bytes) (x : α) (good : Prop) : Prop :=
  (good → Reads d b x) ∧ (¬ good → Misreads d b x)

/-- Whatever the decoder returns, on any bytes, has the property. -/
def Yields (d : Parser α) (Q : α → Prop) : Prop :=
  ∀ s y r, d.run s = some (y, r) → Q y

theorem run_bind_eq_some {d : Parser α} {f : α → Parser β} {s : Bytes} {y : β} {r : Bytes}
    (h : (d >>= f).run s = some (y, r)) :
    ∃ x t, d.run s = some (x, t) ∧ (f x).run t = some (y, r) := by
  rw [StateT.run_bind] at h
  obtain ⟨⟨x, t⟩, hd, hf⟩ := Option.bind_eq_some_iff.mp h
  exact ⟨x, t, hd, hf⟩

theorem run_bind_of_eq {d : Parser α} {f : α → Parser β} {s t : Bytes} {x : α}
    (h : d.run s = some (x, t)) : (d >>= f).run s = (f x).run t := by
  rw [StateT.run_bind, h]
  rfl

theorem Yields.pure {x : α} {Q : α → Prop} (h : Q x) : Yields (Pure.pure x : Parser α) Q := by
  intro s y r hrun
  cases hrun
  exact h

theorem Yields.bind {d : Parser α} {f : α → Parser β} {Q : β → Prop} (h : ∀ x, Yields (f x) Q) :
    Yields (d >>= f) Q := by
  intro s y r hrun
  obtain ⟨x, t, -, hf⟩ := run_bind_eq_some hrun
  exact h x t y r hf

theorem Yields.bind_of {d : Parser α} {f : α → Parser β} {P : α → Prop} {Q : β → Prop}
    (hd : Yields d P) (h : ∀ x, P x → Yields (f x) Q) : Yields (d >>= f) Q := by
  intro s y r hrun
  obtain ⟨x, t, hx, hf⟩ := run_bind_eq_some hrun
  exact h x (hd s x t hx) t y r hf

theorem Codec.reads (c : Codec α) (x : α) : Reads (fun _ => c.get) (c.put x) x := by
  refine ⟨⟨0, fun _ _ rest => c.get_put x rest⟩, fun _ rest y r h => ?_⟩
  rw [c.get_put] at h
  cases h
  exact ⟨rfl, rfl⟩

theorem Reads.pure (x : α) : Reads (fun _ => Pure.pure x) [] x := by
  refine ⟨⟨0, fun _ _ rest => rfl⟩, fun _ rest y r h => ?_⟩
  cases h
  exact ⟨rfl, rfl⟩

theorem Reads.bind {d : Nat → Parser α} {f : Nat → α → Parser β} {b b' : Bytes} {x : α} {y : β}
    (h : Reads d b x) (h' : Reads (fun n => f n x) b' y) :
    Reads (fun n => d n >>= f n) (b ++ b') y := by
  obtain ⟨⟨N, hN⟩, hsound⟩ := h
  obtain ⟨⟨M, hM⟩, hsound'⟩ := h'
  refine ⟨⟨max N M, fun fuel hfuel rest => ?_⟩, fun fuel rest z r hrun => ?_⟩
  · rw [List.append_assoc, run_bind_of_eq (hN fuel (by omega) (b' ++ rest))]
    exact hM fuel (by omega) rest
  · rw [List.append_assoc] at hrun
    obtain ⟨w, t, hd, hf⟩ := run_bind_eq_some hrun
    obtain ⟨rfl, rfl⟩ := hsound fuel _ w t hd
    exact hsound' fuel rest z r hf

theorem Reads.map {d : Nat → Parser α} {b : Bytes} {x : α} (h : Reads d b x) (F : α → β) :
    Reads (fun n => d n >>= fun x => Pure.pure (F x)) b (F x) := by
  have hbind := h.bind (f := fun _ x => Pure.pure (F x)) (Reads.pure (F x))
  rwa [List.append_nil] at hbind

theorem Codec.reads_map (c : Codec α) (F : α → β) (x : α) :
    Reads (fun _ => c.get >>= fun x => Pure.pure (F x)) (c.put x) (F x) :=
  (c.reads x).map F

theorem Reads.bind_misreads {d : Nat → Parser α} {f : Nat → α → Parser β} {b b' : Bytes} {x : α}
    {y : β} (h : Reads d b x) (h' : Misreads (fun n => f n x) b' y) :
    Misreads (fun n => d n >>= f n) (b ++ b') y := by
  intro fuel rest z r hrun
  rw [List.append_assoc] at hrun
  obtain ⟨w, t, hd, hf⟩ := run_bind_eq_some hrun
  obtain ⟨rfl, rfl⟩ := h.2 fuel _ w t hd
  exact h' fuel rest z r hf

/-- A wrong part makes the whole wrong if it can be seen in what is built from it. -/
theorem Misreads.bind {d : Nat → Parser α} {f : Nat → α → Parser β} {b : Bytes} (b' : Bytes)
    {x : α} {y : β} (h : Misreads d b x)
    (hf : ∀ n x', x' ≠ x → Yields (f n x') (· ≠ y)) :
    Misreads (fun n => d n >>= f n) (b ++ b') y := by
  intro fuel rest z r hrun
  rw [List.append_assoc] at hrun
  obtain ⟨w, t, hd, hrest⟩ := run_bind_eq_some hrun
  exact hf fuel w (h fuel _ w t hd) t z r hrest

theorem Spec.of_reads {d : Nat → Parser α} {b : Bytes} {x : α} (h : Reads d b x) :
    Spec d b x True :=
  ⟨fun _ => h, fun hno => absurd trivial hno⟩

theorem Spec.congr {d : Nat → Parser α} {b : Bytes} {x : α} {g g' : Prop} (h : Spec d b x g)
    (hg : g ↔ g') : Spec d b x g' :=
  ⟨fun h' => h.1 (hg.mpr h'), fun h' => h.2 (fun hgood => h' (hg.mp hgood))⟩

theorem Spec.bind {d : Nat → Parser α} {f : Nat → α → Parser β} {b b' : Bytes} {x : α} {y : β}
    {g g' : Prop} (h : Spec d b x g) (h' : Spec (fun n => f n x) b' y g')
    (hf : ∀ n x', x' ≠ x → Yields (f n x') (· ≠ y)) :
    Spec (fun n => d n >>= f n) (b ++ b') y (g ∧ g') := by
  refine ⟨fun hgood => (h.1 hgood.1).bind (h'.1 hgood.2), fun hbad => ?_⟩
  by_cases hg : g
  · exact (h.1 hg).bind_misreads (h'.2 fun hg' => hbad ⟨hg, hg'⟩)
  · exact (h.2 hg).bind b' hf

theorem Spec.bind_reads {d : Nat → Parser α} {f : Nat → α → Parser β} {b b' : Bytes} {x : α}
    {y : β} {g : Prop} (h : Spec d b x g) (h' : Reads (fun n => f n x) b' y)
    (hf : ∀ n x', x' ≠ x → Yields (f n x') (· ≠ y)) :
    Spec (fun n => d n >>= f n) (b ++ b') y g :=
  (h.bind (Spec.of_reads h') hf).congr ⟨fun h => h.1, fun h => ⟨h, trivial⟩⟩

theorem Spec.codec {c : Codec α} {f : Nat → α → Parser β} {x : α} {b : Bytes} {y : β} {g : Prop}
    (h : Spec (fun n => f n x) b y g) : Spec (fun n => c.get >>= f n) (c.put x ++ b) y g :=
  ⟨fun hg => (c.reads x).bind (h.1 hg), fun hg => (c.reads x).bind_misreads (h.2 hg)⟩

theorem Spec.last {d : Nat → Parser α} {F : α → β} {b : Bytes} {x : α} {g : Prop}
    (h : Spec d b x g) (hF : ∀ x', F x' = F x → x' = x) :
    Spec (fun n => d n >>= fun x => Pure.pure (F x)) b (F x) g := by
  have hbind := h.bind_reads (f := fun _ x => Pure.pure (F x)) (Reads.pure (F x))
    (fun _ x' hne => Yields.pure fun heq => hne (hF x' heq))
  rwa [List.append_nil] at hbind

/-- What is read is exact, but what is built from it may not be the value that was written. -/
theorem Spec.of_reads_map {d : Nat → Parser α} {F : α → β} {b : Bytes} {x : α} (h : Reads d b x)
    (y : β) : Spec (fun n => d n >>= fun x => Pure.pure (F x)) b y (F x = y) := by
  refine ⟨fun heq => heq ▸ h.map F, fun hne fuel rest z r hrun heq => hne ?_⟩
  exact ((h.map F).2 fuel rest z r hrun).1.symm.trans heq

theorem Reads.succ {d e : Nat → Parser α} {b : Bytes} {x : α} (h : Reads d b x)
    (hzero : e 0 = failure) (hsucc : ∀ n, e (n + 1) = d n) : Reads e b x := by
  obtain ⟨⟨N, hN⟩, hsound⟩ := h
  refine ⟨⟨N + 1, fun fuel hfuel rest => ?_⟩, fun fuel rest y r hrun => ?_⟩
  · cases fuel with
    | zero => omega
    | succ n =>
      rw [hsucc]
      exact hN n (by omega) rest
  · cases fuel with
    | zero =>
      rw [hzero] at hrun
      cases hrun
    | succ n =>
      rw [hsucc] at hrun
      exact hsound n rest y r hrun

theorem Misreads.succ {d e : Nat → Parser α} {b : Bytes} {x : α} (h : Misreads d b x)
    (hzero : e 0 = failure) (hsucc : ∀ n, e (n + 1) = d n) : Misreads e b x := by
  intro fuel rest y r hrun
  cases fuel with
  | zero =>
    rw [hzero] at hrun
    cases hrun
  | succ n =>
    rw [hsucc] at hrun
    exact h n rest y r hrun

theorem Spec.succ {d e : Nat → Parser α} {b : Bytes} {x : α} {g : Prop} (h : Spec d b x g)
    (hzero : e 0 = failure) (hsucc : ∀ n, e (n + 1) = d n) : Spec e b x g :=
  ⟨fun hg => (h.1 hg).succ hzero hsucc, fun hg => (h.2 hg).succ hzero hsucc⟩

def getMany (d : Parser α) : Nat → Parser (List α)
  | 0 => pure []
  | n + 1 => do
    let x ← d
    let xs ← getMany d n
    return x :: xs

theorem yields_getMany (d : Parser α) (n : Nat) : Yields (getMany d n) (fun xs => xs.length = n) := by
  induction n with
  | zero => exact Yields.pure rfl
  | succ n ih => exact Yields.bind fun x => ih.bind_of fun xs hxs => Yields.pure (by simp [hxs])

theorem Reads.getMany {d : Nat → Parser α} {xs : List α} {bs : List Bytes}
    (h : List.Forall₂ (fun x b => Reads d b x) xs bs) :
    Reads (fun n => getMany (d n) xs.length) bs.flatten xs := by
  induction h with
  | nil => exact Reads.pure []
  | cons hx _ ih => exact hx.bind (ih.map _)

theorem Spec.getMany {d : Nat → Parser α} {good : α → Prop} {xs : List α} {bs : List Bytes}
    (h : List.Forall₂ (fun x b => Spec d b x (good x)) xs bs) :
    Spec (fun n => getMany (d n) xs.length) bs.flatten xs (∀ x ∈ xs, good x) := by
  induction h with
  | nil => exact (Spec.of_reads (Reads.pure [])).congr (by simp)
  | @cons x b xs bs hx _ ih =>
    have htail : Spec (fun n => Decoding.getMany (d n) xs.length >>= fun ys => Pure.pure (x :: ys))
        bs.flatten (x :: xs) (∀ y ∈ xs, good y) :=
      ih.last fun ys heq => (List.cons.inj heq).2
    have hboth := hx.bind (f := fun n y => Decoding.getMany (d n) xs.length >>=
      fun ys => Pure.pure (y :: ys)) htail
      (fun n y hne => Yields.bind fun ys => Yields.pure fun heq => hne (List.cons.inj heq).1)
    exact hboth.congr (by simp)

end Decoding
