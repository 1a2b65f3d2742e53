import Mathlib

/-! Packets in a stream: cutting the stream as it arrives, or at its end, gives the same packets. -/

/-- How to cut the next packet off, once all of it is there. -/
structure Framing (β α : Type) where
  next : List β → Option (α × List β)
  consumes : ∀ bs a rest, next bs = some (a, rest) → rest.length < bs.length
  stable : ∀ bs a rest more, next bs = some (a, rest) → next (bs ++ more) = some (a, rest ++ more)

namespace Framing

variable {β α : Type} (F : Framing β α)

def frames (bs : List β) : List α × List β :=
  match _h : F.next bs with
  | none => ([], bs)
  | some (a, rest) => (a :: (frames rest).1, (frames rest).2)
termination_by bs.length
decreasing_by
  all_goals exact F.consumes bs a rest _h

variable {F} {bs : List β}

theorem frames_none (h : F.next bs = none) : F.frames bs = ([], bs) := by
  rw [frames]
  split
  · rfl
  · next a rest heq =>
    rw [h] at heq
    cases heq

theorem frames_some {a : α} {rest : List β} (h : F.next bs = some (a, rest)) :
    F.frames bs = (a :: (F.frames rest).1, (F.frames rest).2) := by
  rw [frames]
  split
  · next heq =>
    rw [h] at heq
    cases heq
  · next a' rest' heq =>
    obtain ⟨rfl, rfl⟩ := Prod.mk.inj (Option.some.inj (h.symm.trans heq))
    rfl

/-- What is left of the first part is cut together with the second. -/
theorem frames_append (F : Framing β α) (bs more : List β) :
    F.frames (bs ++ more) = ((F.frames bs).1 ++ (F.frames ((F.frames bs).2 ++ more)).1,
      (F.frames ((F.frames bs).2 ++ more)).2) := by
  induction hn : bs.length using Nat.strong_induction_on generalizing bs with
  | _ n ih =>
    cases h : F.next bs with
    | none =>
      rw [frames_none h]
      rfl
    | some packet =>
      obtain ⟨a, rest⟩ := packet
      have hlt := F.consumes bs a rest h
      rw [frames_some h, frames_some (F.stable bs a rest more h),
        ih rest.length (by omega) rest rfl]
      rfl

/-- What `encode` writes for a packet is cut off again, whatever comes after it. -/
def Encodes (F : Framing β α) (encode : α → List β) (ok : α → Prop) : Prop :=
  ∀ a more, ok a → F.next (encode a ++ more) = some (a, more)

/-- The start of a stream of packets is incomplete, or it has the whole of the first one. -/
theorem Encodes.next {encode : α → List β} {ok : α → Prop} (henc : F.Encodes encode ok)
    {as : List α} (hok : ∀ a ∈ as, ok a) {rest : List β} (hbs : bs ++ rest = as.flatMap encode) :
    F.next bs = none ∨ ∃ a as' left, as = a :: as' ∧ F.next bs = some (a, left) ∧
      left ++ rest = as'.flatMap encode := by
  cases hnext : F.next bs with
  | none => exact .inl rfl
  | some packet =>
    right
    obtain ⟨a, left⟩ := packet
    have hstable := F.stable bs a left rest hnext
    cases as with
    | nil =>
      have hempty := F.consumes _ _ _ hstable
      rw [hbs] at hempty
      exact absurd hempty (Nat.not_lt_zero _)
    | cons a' as' =>
      have hfirst := henc a' (as'.flatMap encode) (hok a' List.mem_cons_self)
      rw [hbs, List.flatMap_cons, hfirst] at hstable
      obtain ⟨rfl, hrest⟩ := Prod.mk.inj (Option.some.inj hstable)
      exact ⟨a', as', left, rfl, rfl, hrest.symm⟩

theorem Encodes.frames {encode : α → List β} {ok : α → Prop} (henc : F.Encodes encode ok)
    {as : List α} (hok : ∀ a ∈ as, ok a) {rest : List β} (hbs : bs ++ rest = as.flatMap encode) :
    (F.frames bs).1 <+: as ∧ (F.frames bs).2 ++ rest =
      (as.drop (F.frames bs).1.length).flatMap encode := by
  induction as generalizing bs with
  | nil =>
    rcases henc.next hok hbs with hnone | ⟨a, as', left, hcons, -, -⟩
    · rw [frames_none hnone]
      exact ⟨List.nil_prefix, hbs⟩
    · cases hcons
  | cons a as ih =>
    rcases henc.next hok hbs with hnone | ⟨a', as', left, hcons, hsome, hleft⟩
    · rw [frames_none hnone]
      exact ⟨List.nil_prefix, hbs⟩
    · obtain ⟨rfl, rfl⟩ := List.cons.inj hcons
      obtain ⟨hfront, hrest⟩ := ih (fun b hb => hok b (List.mem_cons_of_mem _ hb)) hleft
      rw [frames_some hsome]
      exact ⟨List.cons_prefix_cons.mpr ⟨rfl, hfront⟩, hrest⟩

end Framing
