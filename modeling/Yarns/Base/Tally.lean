import Mathlib.Algebra.Order.Floor.Div
import Yarns.Base.Run

/-!
# Counting steps of a run

`tally counted ends s as` is the number of steps of a run that are counted, up to the first
one that ends the count. A potential bounds it (`tally_le`): a step that is counted starts
below a bound and brings the potential up by `d` at least, any other step does not bring it
down. `spent w s as` adds up what the steps of a run cost; where each step takes its cost out
of a potential, that is what the potential has lost (`spent_add`).
-/

namespace Yarns.Base

variable {σ α : Type}

def tally (step : σ → α → Option σ) (counted ends : σ → α → Bool) : σ → List α → ℕ
  | _, [] => 0
  | s, a :: as =>
    match step s a with
    | none => 0
    | some t =>
      if ends s a then 0
      else (if counted s a then 1 else 0) + tally step counted ends t as

variable {step : σ → α → Option σ} {counted ends : σ → α → Bool} {s t : σ} {a : α} {as : List α}

theorem tally_cons (hs : step s a = some t) (hends : ends s a = false) :
    tally step counted ends s (a :: as) =
      (if counted s a then 1 else 0) + tally step counted ends t as := by
  rw [tally, hs, hends]
  rfl

theorem tally_cons_of_ends (hends : ends s a = true) :
    tally step counted ends s (a :: as) = 0 := by
  rw [tally]
  split
  · rfl
  · rw [if_pos hends]

theorem ceilDiv_mono {m n d : ℕ} (hd : 0 < d) (hmn : m ≤ n) : m ⌈/⌉ d ≤ n ⌈/⌉ d :=
  (gc_mul_ceilDiv hd).monotone_l hmn

/-- Of what is left, `d` or all is used up: then it counted for one more. -/
theorem one_add_ceilDiv_le {m n d : ℕ} (hd : 0 < d) (hpos : 0 < n) (hmn : m ≤ n - d) :
    1 + m ⌈/⌉ d ≤ n ⌈/⌉ d := by
  have hn : n ⌈/⌉ d = (n - 1) / d + 1 := by
    rw [Nat.ceilDiv_eq_add_pred_div, ← Nat.add_div_right _ hd]
    congr 1
    omega
  have hm : m ⌈/⌉ d ≤ (n - 1) / d := by
    rw [Nat.ceilDiv_eq_add_pred_div]
    rcases Nat.eq_zero_or_pos m with rfl | hm
    · rw [Nat.div_eq_of_lt (by omega)]
      exact Nat.zero_le _
    · exact Nat.div_le_div_right (by omega)
  omega

theorem tally_le {I : σ → Prop} {good : σ → α → σ → Prop} {φ : σ → ℕ} {bound d : ℕ} (hd : 0 < d)
    (h0 : I s)
    (hstep : ∀ s a t, I s → good s a t → step s a = some t → ends s a = false →
      I t ∧ φ s ≤ φ t ∧ (counted s a → φ s < bound ∧ φ s + d ≤ φ t))
    (hgood : Along step good s as) :
    tally step counted ends s as ≤ (bound - φ s) ⌈/⌉ d := by
  induction as generalizing s with
  | nil => exact Nat.zero_le _
  | cons a as ih =>
    cases hs : step s a with
    | none =>
      rw [tally, hs]
      exact Nat.zero_le _
    | some t =>
      obtain ⟨hg, hrest⟩ := hgood t hs
      cases hends : ends s a with
      | true =>
        rw [tally_cons_of_ends hends]
        exact Nat.zero_le _
      | false =>
        obtain ⟨hI, hle, hcount⟩ := hstep s a t h0 hg hs hends
        have hcounts := ih hI hrest
        rw [tally_cons hs hends]
        by_cases hc : counted s a
        · obtain ⟨hlt, hup⟩ := hcount hc
          rw [if_pos hc]
          exact (Nat.add_le_add_left hcounts 1).trans
            (one_add_ceilDiv_le hd (by omega) (by omega))
        · rw [if_neg hc, zero_add]
          exact hcounts.trans (ceilDiv_mono hd (Nat.sub_le_sub_left hle bound))

/-- A call brings in work for `d` steps at most, and each step that works does some of it. -/
theorem run_work_le {works calls : α → Bool} {φ : σ → ℕ} {d : ℕ}
    (hstep : ∀ s a t, step s a = some t →
      φ t + (if works a then 1 else 0) ≤ φ s + if calls a then d else 0)
    (h : run step s as = some t) : as.countP works + φ t ≤ φ s + d * as.countP calls := by
  induction as generalizing s with
  | nil =>
    obtain rfl := Option.some.inj h
    exact Nat.add_comm _ _ ▸ Nat.le_refl _
  | cons a as ih =>
    obtain ⟨u, hu, hrest⟩ := run_cons_iff.mp h
    have hle := ih hrest
    have hone := hstep s a u hu
    have hcost : d * (if calls a then 1 else 0) = if calls a then d else 0 := by
      split
      · exact Nat.mul_one d
      · rfl
    rw [List.countP_cons, List.countP_cons, Nat.mul_add, hcost]
    omega

/-- What the steps of a run cost, up to the first action that is not enabled. -/
def spent (step : σ → α → Option σ) (w : σ → α → ℕ) : σ → List α → ℕ
  | _, [] => 0
  | s, a :: as =>
    match step s a with
    | none => 0
    | some t => w s a + spent step w t as

section

variable {w : σ → α → ℕ} {I : σ → Prop} {good : σ → α → σ → Prop} {φ : σ → ℕ}

theorem spent_cons (hs : step s a = some t) :
    spent step w s (a :: as) = w s a + spent step w t as := by
  rw [spent, hs]

theorem spent_add (h0 : I s)
    (hstep : ∀ s a t, I s → good s a t → step s a = some t → I t ∧ w s a + φ t = φ s)
    (hgood : Along step good s as) (h : run step s as = some t) :
    I t ∧ spent step w s as + φ t = φ s := by
  induction as generalizing s with
  | nil =>
    obtain rfl := Option.some.inj h
    exact ⟨h0, Nat.zero_add _⟩
  | cons a as ih =>
    obtain ⟨u, hu, hrest⟩ := run_cons_iff.mp h
    obtain ⟨hg, hgrest⟩ := hgood u hu
    obtain ⟨hI, hcost⟩ := hstep s a u h0 hg hu
    obtain ⟨hIt, hsum⟩ := ih hI hgrest hrest
    rw [spent_cons hu]
    exact ⟨hIt, by omega⟩

/-- A run never costs more than the potential it starts with. -/
theorem spent_le (h0 : I s)
    (hstep : ∀ s a t, I s → good s a t → step s a = some t → I t ∧ w s a + φ t = φ s)
    (hgood : Along step good s as) : spent step w s as ≤ φ s := by
  induction as generalizing s with
  | nil => exact Nat.zero_le _
  | cons a as ih =>
    cases hs : step s a with
    | none =>
      rw [spent, hs]
      exact Nat.zero_le _
    | some t =>
      obtain ⟨hg, hrest⟩ := hgood t hs
      obtain ⟨hI, hcost⟩ := hstep s a t h0 hg hs
      have hle := ih hI hrest
      rw [spent_cons hs]
      omega

end

end Yarns.Base
