import Mathlib.Algebra.BigOperators.Group.Finset.Basic
import Mathlib.Data.Fintype.Basic
import Yarns.Base.Tally

/-!
# Parties around a shared memory

A shared memory `μ` and, for every party `i : ι`, its local state: where it is in its own
code and what it holds. One step is one access of one party, so a list of pairs (party,
action) is an interleaving. `act i m l a` is the code of party `i`: what the action `a`
does to the memory and to its own local state, if it can be taken.

The lemmas say how facts about all parties change with one step: a sum over the parties
(`sum_update`), a property of every party (`forall_update`), the parties with a property
(`exists_update`). While one party moves alone, a run is one of its own code (`run_own`), and
costs what that costs (`spent_own`).
-/

namespace Yarns.Base

variable {μ L A ι : Type}

structure Parties (μ L ι : Type) where
  memory : μ
  locals : ι → L

namespace Parties

variable [DecidableEq ι]

/-- Party `p.1` takes the action `p.2`. -/
def step (act : ι → μ → L → A → Option (μ × L)) (s : Parties μ L ι) (p : ι × A) :
    Option (Parties μ L ι) :=
  (act p.1 s.memory (s.locals p.1) p.2).map fun r =>
    ⟨r.1, Function.update s.locals p.1 r.2⟩

variable {act : ι → μ → L → A → Option (μ × L)} {s t : Parties μ L ι} {i : ι} {a : A}

theorem step_cases (h : step act s (i, a) = some t) :
    ∃ m l, act i s.memory (s.locals i) a = some (m, l) ∧
      t = ⟨m, Function.update s.locals i l⟩ := by
  obtain ⟨⟨m, l⟩, hact, ht⟩ := Option.map_eq_some_iff.mp h
  exact ⟨m, l, hact, ht.symm⟩

/-- A run of one party: the others stay where they are. -/
theorem run_own {as : List A} : run (step act) s (as.map (i, ·)) =
    (run (fun r a => act i r.1 r.2 a) (s.memory, s.locals i) as).map fun r =>
      ⟨r.1, Function.update s.locals i r.2⟩ := by
  induction as generalizing s with
  | nil =>
    show some s = some ⟨s.memory, Function.update s.locals i (s.locals i)⟩
    rw [Function.update_eq_self]
  | cons a as ih =>
    rw [List.map_cons, run, run, step]
    cases act i s.memory (s.locals i) a with
    | none => rfl
    | some r =>
      rw [Option.map_some, Option.bind_some, Option.bind_some, ih]
      simp only [Function.update_self, Function.update_idem]

/-- What a run of one party costs, where a step is charged by the place it is taken at. -/
theorem spent_own {as : List A} {w : L → A → ℕ} :
    spent (step act) (fun s p => w (s.locals p.1) p.2) s (as.map (i, ·)) =
      spent (fun r a => act i r.1 r.2 a) (fun r a => w r.2 a) (s.memory, s.locals i) as := by
  induction as generalizing s with
  | nil => rfl
  | cons a as ih =>
    rw [List.map_cons, spent, spent, step]
    cases act i s.memory (s.locals i) a with
    | none => rfl
    | some r =>
      rw [Option.map_some]
      dsimp only
      rw [ih]
      dsimp only
      rw [Function.update_self]

end Parties

variable [DecidableEq ι] {f : ι → L} {i : ι} {l : L}

/-- A sum over the parties changes by what the one that moved contributes. -/
theorem sum_update [Fintype ι] (f : ι → L) (i : ι) (l : L) (g : L → Nat) :
    ∑ j, g (Function.update f i l j) + g (f i) = ∑ j, g (f j) + g l := by
  have hrest : ∑ j ∈ Finset.univ.erase i, g (Function.update f i l j) =
      ∑ j ∈ Finset.univ.erase i, g (f j) := by
    refine Finset.sum_congr rfl fun j hj => ?_
    rw [Function.update_of_ne (Finset.ne_of_mem_erase hj)]
  have hold := Finset.add_sum_erase Finset.univ (fun j => g (f j)) (Finset.mem_univ i)
  have hnew := Finset.add_sum_erase Finset.univ (fun j => g (Function.update f i l j))
    (Finset.mem_univ i)
  simp only [Function.update_self] at hnew
  omega

theorem le_sum_of_party [Fintype ι] (f : ι → L) (i : ι) (g : L → Nat) :
    g (f i) ≤ ∑ j, g (f j) := by
  rw [← Finset.add_sum_erase Finset.univ (fun j => g (f j)) (Finset.mem_univ i)]
  exact Nat.le_add_right _ _

theorem forall_update {P : ι → L → Prop} (h : ∀ j, j ≠ i → P j (f j)) (hi : P i l) :
    ∀ j, P j (Function.update f i l j) := by
  intro j
  by_cases hj : j = i
  · subst hj
    rwa [Function.update_self]
  · rw [Function.update_of_ne hj]
    exact h j hj

theorem exists_update {P : L → Prop} :
    (∃ j, P (Function.update f i l j)) ↔ P l ∨ ∃ j, j ≠ i ∧ P (f j) := by
  constructor
  · intro h
    obtain ⟨j, hj⟩ := h
    by_cases hji : j = i
    · subst hji
      rw [Function.update_self] at hj
      exact Or.inl hj
    · rw [Function.update_of_ne hji] at hj
      exact Or.inr ⟨j, hji, hj⟩
  · intro h
    rcases h with hl | ⟨j, hji, hj⟩
    · exact ⟨i, by rwa [Function.update_self]⟩
    · exact ⟨j, by rwa [Function.update_of_ne hji]⟩

/-- Where the moving party has the property before and after, or neither, the parties
with the property are as before. -/
theorem exists_update_iff {P : L → Prop} (h : P l ↔ P (f i)) :
    (∃ j, P (Function.update f i l j)) ↔ ∃ j, P (f j) := by
  rw [exists_update, h]
  constructor
  · rintro (hi | ⟨j, -, hj⟩)
    · exact ⟨i, hi⟩
    · exact ⟨j, hj⟩
  · rintro ⟨j, hj⟩
    by_cases hji : j = i
    · exact Or.inl (hji ▸ hj)
    · exact Or.inr ⟨j, hji, hj⟩

end Yarns.Base
