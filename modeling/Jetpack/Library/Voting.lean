import Mathlib.Data.Finset.Card
import Mathlib.Data.Fintype.Card

/-! Quorums, and votes cast in terms. A voter whose term never falls and who votes only in a term
above its own gives one vote a term, so a term has at most one winner. -/

namespace QuorumVoting

structure QuorumSystem (ι : Type) where
  IsQuorum : Finset ι → Prop
  inter : ∀ {P Q : Finset ι}, IsQuorum P → IsQuorum Q → ∃ v, v ∈ P ∧ v ∈ Q

def majority (ι : Type) [Fintype ι] [DecidableEq ι] : QuorumSystem ι where
  IsQuorum P := Fintype.card ι < 2 * P.card
  inter := by
    intro P Q hP hQ
    have hcard : (Finset.univ : Finset ι).card < P.card + Q.card := by
      rw [Finset.card_univ]
      omega
    obtain ⟨v, hv⟩ := Finset.inter_nonempty_of_card_lt_card_add_card (Finset.subset_univ P)
      (Finset.subset_univ Q) hcard
    exact ⟨v, Finset.mem_inter.mp hv⟩

variable {ι : Type}

/-- Who voted for whom in which term, and the voters' terms. -/
structure Ballots (ι : Type) where
  term : ι → Nat
  vote : ι → Nat → ι → Prop

namespace Ballots

structure WellFormed (b : Ballots ι) : Prop where
  vote_le : ∀ {v u c}, b.vote v u c → u ≤ b.term v
  vote_unique : ∀ {v u c c'}, b.vote v u c → b.vote v u c' → c = c'

/-- Terms grow, and a new vote is the only new one of its voter, in a term above its old one. -/
structure Grows (b b' : Ballots ι) : Prop where
  term_le : ∀ v, b.term v ≤ b'.term v
  vote_keep : ∀ {v u c}, b.vote v u c → b'.vote v u c
  vote_new : ∀ {v u c}, b'.vote v u c → b.vote v u c ∨
    (b.term v < u ∧ u ≤ b'.term v ∧ ∀ c', b'.vote v u c' → b.vote v u c' ∨ c' = c)

theorem WellFormed.grows {b b' : Ballots ι} (hb : b.WellFormed) (h : b.Grows b') :
    b'.WellFormed := by
  refine ⟨fun {v u c} hvote => ?_, fun {v u c c'} hvote hvote' => ?_⟩
  · rcases h.vote_new hvote with hold | ⟨-, hle, -⟩
    · exact le_trans (hb.vote_le hold) (h.term_le v)
    · exact hle
  · rcases h.vote_new hvote with hold | ⟨hlt, -, honly⟩
    · rcases h.vote_new hvote' with hold' | ⟨hlt, -, -⟩
      · exact hb.vote_unique hold hold'
      · exact absurd (hb.vote_le hold) (Nat.not_le.mpr hlt)
    · rcases honly c' hvote' with hold' | heq
      · exact absurd (hb.vote_le hold') (Nat.not_le.mpr hlt)
      · exact heq.symm

def Elected (q : QuorumSystem ι) (b : Ballots ι) (c : ι) (u : Nat) : Prop :=
  ∃ P, q.IsQuorum P ∧ ∀ v ∈ P, b.vote v u c

theorem Elected.grows {q : QuorumSystem ι} {b b' : Ballots ι} {c : ι} {u : Nat}
    (h : b.Elected q c u) (hg : b.Grows b') : b'.Elected q c u := by
  obtain ⟨P, hP, hvotes⟩ := h
  exact ⟨P, hP, fun v hv => hg.vote_keep (hvotes v hv)⟩

theorem WellFormed.elected_unique {q : QuorumSystem ι} {b : Ballots ι} (hb : b.WellFormed)
    {c c' : ι} {u : Nat} (h : b.Elected q c u) (h' : b.Elected q c' u) : c = c' := by
  obtain ⟨P, hP, hvotes⟩ := h
  obtain ⟨P', hP', hvotes'⟩ := h'
  obtain ⟨v, hv, hv'⟩ := q.inter hP hP'
  exact hb.vote_unique (hvotes v hv) (hvotes' v hv')

end Ballots

end QuorumVoting
