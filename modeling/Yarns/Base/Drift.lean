import Mathlib.Algebra.BigOperators.Ring.Finset
import Mathlib.Algebra.Order.BigOperators.Group.Finset
import Mathlib.Algebra.Order.Field.Basic
import Mathlib.Data.Fintype.BigOperators
import Mathlib.Logic.Relation
import Mathlib.Tactic.Linarith

/-!
# Bounded potentials

Finitely many parties, each at some height in every state, and moves of one party at a
time in which nobody else rises. The potential is the weighted sum of the heights. If for
every `D` there is a height `K` such that each move either takes `D` from the potential or
leaves the mover at most `K` high, the potential of a run exceeds its first value by a
bound that does not depend on the run (`potential_bounded`).

The induction is on the number of parties that move. A run of `m + 1` movers is cut at
every move that takes what `m` movers can add, and whenever all of them have come down to
`K`: the potential at a cut exceeds the first one by at most the movers at height `K`, and
between cuts at most `m` of the parties move.
-/

namespace Yarns.Base

open Relation

variable {σ ι 𝕜 : Type} [Fintype ι] [DecidableEq ι] [Field 𝕜] [LinearOrder 𝕜]
  [IsStrictOrderedRing 𝕜]

def potential (weight : ι → 𝕜) (height : σ → ι → 𝕜) (s : σ) : 𝕜 := ∑ i, weight i * height s i

/-- One move of a party of `A`. -/
def MoveOf (move : ι → σ → σ → Prop) (A : Finset ι) (s t : σ) : Prop := ∃ i ∈ A, move i s t

/-- What is asked of the heights and the moves. -/
structure Settling (weight : ι → 𝕜) (height : σ → ι → 𝕜) (move : ι → σ → σ → Prop) : Prop where
  weight_nonneg : ∀ i, 0 ≤ weight i
  nonneg : ∀ s i, 0 ≤ height s i
  others : ∀ i s t, move i s t → ∀ j, j ≠ i → height t j ≤ height s j
  settle : ∀ D, ∃ K, ∀ i s t, move i s t →
    potential weight height t + D ≤ potential weight height s ∨ height t i ≤ K

variable {weight : ι → 𝕜} {height : σ → ι → 𝕜} {move : ι → σ → σ → Prop} {A A' : Finset ι}
  {s t u : σ} {K f : 𝕜}

omit [DecidableEq ι] [IsStrictOrderedRing 𝕜] in
/-- Who does not move does not rise. -/
theorem Settling.height_le (h : Settling weight height move)
    (hst : ReflTransGen (MoveOf move A) s t) {j : ι} (hj : j ∉ A) : height t j ≤ height s j := by
  induction hst with
  | refl => exact le_refl _
  | tail _ hmove ih =>
    obtain ⟨i, hi, hmove⟩ := hmove
    exact (h.others i _ _ hmove j fun hji => hj (hji ▸ hi)).trans ih

/-- With all movers at most `K` high the potential is what it was, and `K` for each. -/
theorem Settling.potential_le (h : Settling weight height move)
    (hst : ReflTransGen (MoveOf move A) s t) (hK : 0 ≤ K) (hlow : ∀ j ∈ A, height t j ≤ K) :
    potential weight height t ≤ potential weight height s + K * ∑ i, weight i := by
  rw [potential, potential, Finset.mul_sum, ← Finset.sum_add_distrib]
  refine Finset.sum_le_sum fun j _ => ?_
  have hw := h.weight_nonneg j
  by_cases hj : j ∈ A
  · have h1 := mul_le_mul_of_nonneg_left (hlow j hj) hw
    have h2 := mul_nonneg hw (h.nonneg s j)
    linarith
  · have h1 := mul_le_mul_of_nonneg_left (h.height_le hst hj) hw
    have h2 := mul_nonneg hK hw
    linarith

/-- One more mover: from the last cut on, some of the movers have not moved. -/
theorem Settling.cut (h : Settling weight height move) (hK : 0 ≤ K)
    (hf : ∀ A' ⊂ A, ∀ u t, ReflTransGen (MoveOf move A') u t →
      potential weight height t ≤ potential weight height u + f)
    (hmove : ∀ i s t, move i s t →
      potential weight height t + f ≤ potential weight height s ∨ height t i ≤ K)
    (hne : A.Nonempty) (hst : ReflTransGen (MoveOf move A) s t) :
    ∃ u, ∃ A' ⊂ A, ReflTransGen (MoveOf move A') u t ∧ (∀ j ∈ A', height t j ≤ K) ∧
      potential weight height u ≤ potential weight height s + K * ∑ i, weight i := by
  have hbound : (0 : 𝕜) ≤ K * ∑ i, weight i :=
    mul_nonneg hK (Finset.sum_nonneg fun i _ => h.weight_nonneg i)
  have hempty : ∅ ⊂ A := Finset.empty_ssubset.mpr hne
  induction hst with
  | refl => exact ⟨s, ∅, hempty, ReflTransGen.refl, fun j hj => absurd hj (Finset.notMem_empty j),
      by linarith⟩
  | @tail t t' hst hstep ih =>
    obtain ⟨i, hi, hit⟩ := hstep
    obtain ⟨u, A', hA', hut, hlow, hu⟩ := ih
    rcases hmove i t t' hit with hbig | hsmall
    · -- the move takes what came since the last cut
      have hsince := hf A' hA' u t hut
      exact ⟨t', ∅, hempty, ReflTransGen.refl, fun j hj => absurd hj (Finset.notMem_empty j),
        by linarith⟩
    · have hlow' : ∀ j ∈ insert i A', height t' j ≤ K := by
        intro j hj
        by_cases hji : j = i
        · rw [hji]
          exact hsmall
        · exact (h.others i t t' hit j hji).trans (hlow j (Finset.mem_of_mem_insert_of_ne hj hji))
      have hsub : insert i A' ⊆ A := Finset.insert_subset hi hA'.subset
      rcases hsub.eq_or_ssubset with heq | hss
      · -- all movers have come down
        rw [heq] at hlow'
        exact ⟨t', ∅, hempty, ReflTransGen.refl, fun j hj => absurd hj (Finset.notMem_empty j),
          h.potential_le (hst.tail ⟨i, hi, hit⟩) hK hlow'⟩
      · refine ⟨u, insert i A', hss, ?_, hlow', hu⟩
        have hmore : MoveOf move A' ≤ MoveOf move (insert i A') :=
          fun a b ⟨j, hj, hjm⟩ => ⟨j, Finset.mem_insert_of_mem hj, hjm⟩
        exact (ReflTransGen.mono hmore u t hut).tail ⟨i, Finset.mem_insert_self i A', hit⟩

theorem Settling.bounded_of_card (h : Settling weight height move) (m : ℕ) :
    ∃ f, 0 ≤ f ∧ ∀ A : Finset ι, A.card ≤ m → ∀ s t, ReflTransGen (MoveOf move A) s t →
      potential weight height t ≤ potential weight height s + f := by
  induction m with
  | zero =>
    refine ⟨0, le_refl 0, fun A hA s t hst => ?_⟩
    have hempty : A = ∅ := Finset.card_eq_zero.mp (Nat.le_zero.mp hA)
    rcases hst.cases_tail with rfl | ⟨u, -, i, hi, -⟩
    · rw [add_zero]
    · rw [hempty] at hi
      exact absurd hi (Finset.notMem_empty i)
  | succ m ih =>
    obtain ⟨f, hf0, hf⟩ := ih
    obtain ⟨K, hK⟩ := h.settle f
    have hW : (0 : 𝕜) ≤ ∑ i, weight i := Finset.sum_nonneg fun i _ => h.weight_nonneg i
    have hKW : (0 : 𝕜) ≤ max K 0 * ∑ i, weight i := mul_nonneg (le_max_right K 0) hW
    refine ⟨max K 0 * (∑ i, weight i) + f, by linarith, fun A hA s t hst => ?_⟩
    rcases Nat.lt_or_ge m A.card with hlt | hle
    · have hne : A.Nonempty := Finset.card_pos.mp (by omega)
      have hcard : ∀ A' ⊂ A, A'.card ≤ m := fun A' hA' => by
        have := Finset.card_lt_card hA'
        omega
      obtain ⟨u, A', hA', hut, -, hu⟩ := h.cut (K := max K 0) (f := f) (le_max_right K 0)
        (fun A' hA' u t hut => hf A' (hcard A' hA') u t hut)
        (fun i s t hit => (hK i s t hit).imp id fun hi => hi.trans (le_max_left K 0)) hne hst
      have hlast := hf A' (hcard A' hA') u t hut
      linarith
    · have hfew := hf A hle s t hst
      linarith

/-- The potential of a run exceeds its first value by a bound that no run exceeds. -/
theorem Settling.potential_bounded (h : Settling weight height move) :
    ∃ f, ∀ s t, ReflTransGen (fun s t => ∃ i, move i s t) s t →
      potential weight height t ≤ potential weight height s + f := by
  obtain ⟨f, -, hf⟩ := h.bounded_of_card (Fintype.card ι)
  have hall : (fun s t => ∃ i, move i s t) ≤ MoveOf move Finset.univ :=
    fun a b ⟨i, hi⟩ => ⟨i, Finset.mem_univ i, hi⟩
  exact ⟨f, fun s t hst =>
    hf Finset.univ (le_of_eq Finset.card_univ) s t (ReflTransGen.mono hall s t hst)⟩

end Yarns.Base
