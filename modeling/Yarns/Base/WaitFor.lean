import Mathlib.Logic.Function.Basic
import Mathlib.Logic.Relation

/-!
# Holding and waiting for locks

A lock is taken exactly while one party holds it (`Locked`), whoever takes a free one and
whoever gives one back.

Parties that hold locks and wait for one: `WaitsFor waits holds c d` when `c` waits for a
lock that `d` holds. If the pairs (lock held, lock waited for) lie in an acyclic relation
between locks, nobody waits for itself and there is no cycle of parties
(`no_wait_cycle`). `Acyclic.insert` says which pair may be added to an acyclic relation.
-/

namespace Yarns.Base

open Relation

variable {ι κ : Type}

/-- The locks that are taken are the ones that a party holds, and one party does. -/
structure Locked (locks : κ → Bool) (holds : ι → κ → Prop) : Prop where
  taken : ∀ c l, holds c l → locks l = true
  held : ∀ l, locks l = true → ∃ c, holds c l
  unique : ∀ c d l, holds c l → holds d l → c = d

section

variable {locks : κ → Bool} {holds holds' : ι → κ → Prop} {i : ι} {k : κ}

theorem Locked.congr (h : Locked locks holds) (hsame : ∀ c l, holds' c l ↔ holds c l) :
    Locked locks holds' := by
  obtain rfl : holds' = holds := funext₂ fun c l => propext (hsame c l)
  exact h

variable [DecidableEq κ]

/-- Party `i` takes a free lock. -/
theorem Locked.acquire (h : Locked locks holds) (hfree : locks k = false)
    (hother : ∀ c, c ≠ i → ∀ l, holds' c l ↔ holds c l)
    (hi : ∀ l, holds' i l ↔ holds i l ∨ l = k) :
    Locked (Function.update locks k true) holds' := by
  have hnone : ∀ c, ¬ holds c k := by
    intro c hc
    rw [h.taken c k hc] at hfree
    cases hfree
  have hcases : ∀ c l, holds' c l → holds c l ∨ (c = i ∧ l = k) := by
    intro c l hl
    by_cases hc : c = i
    · subst hc
      exact ((hi l).mp hl).imp id fun hk => ⟨rfl, hk⟩
    · exact Or.inl ((hother c hc l).mp hl)
  have hkeeps : ∀ c l, holds c l → holds' c l := by
    intro c l hl
    by_cases hc : c = i
    · subst hc
      exact (hi l).mpr (Or.inl hl)
    · exact (hother c hc l).mpr hl
  refine ⟨fun c l hl => ?_, fun l hl => ?_, fun c d l hc hd => ?_⟩
  · rw [Function.update_apply]
    split
    · rfl
    · rcases hcases c l hl with hold | ⟨-, hk⟩
      · exact h.taken c l hold
      · exact absurd hk ‹_›
  · rw [Function.update_apply] at hl
    split at hl
    next hk => exact ⟨i, (hi l).mpr (Or.inr hk)⟩
    next =>
      obtain ⟨c, hc⟩ := h.held l hl
      exact ⟨c, hkeeps c l hc⟩
  · rcases hcases c l hc with hc' | ⟨rfl, rfl⟩
    · rcases hcases d l hd with hd' | ⟨rfl, rfl⟩
      · exact h.unique c d l hc' hd'
      · exact absurd hc' (hnone c)
    · rcases hcases d l hd with hd' | ⟨rfl, -⟩
      · exact absurd hd' (hnone d)
      · rfl

/-- Party `i` gives a lock back. -/
theorem Locked.release (h : Locked locks holds)
    (hother : ∀ c, c ≠ i → ∀ l, holds' c l ↔ holds c l)
    (hi : ∀ l, holds i l ↔ l = k ∨ holds' i l) (hnot : ¬ holds' i k) :
    Locked (Function.update locks k false) holds' := by
  have hk : holds i k := (hi k).mpr (Or.inl rfl)
  have hiff : ∀ c l, holds' c l ↔ holds c l ∧ l ≠ k := by
    intro c l
    by_cases hc : c = i
    · subst hc
      constructor
      · exact fun hl => ⟨(hi l).mpr (Or.inr hl), fun hlk => hnot (hlk ▸ hl)⟩
      · exact fun hl => ((hi l).mp hl.1).resolve_left hl.2
    · rw [hother c hc l]
      refine ⟨fun hl => ⟨hl, ?_⟩, And.left⟩
      rintro rfl
      exact hc (h.unique c i l hl hk)
  refine ⟨fun c l hl => ?_, fun l hl => ?_, fun c d l hc hd => ?_⟩
  · obtain ⟨hl, hne⟩ := (hiff c l).mp hl
    rw [Function.update_of_ne hne]
    exact h.taken c l hl
  · rw [Function.update_apply] at hl
    split at hl
    · cases hl
    next hne =>
      obtain ⟨c, hc⟩ := h.held l hl
      exact ⟨c, (hiff c l).mpr ⟨hc, hne⟩⟩
  · exact h.unique c d l ((hiff c l).mp hc).1 ((hiff d l).mp hd).1

end

def Acyclic (r : κ → κ → Prop) : Prop := ∀ a, ¬ TransGen r a a

theorem Acyclic.mono {r r' : κ → κ → Prop} (h : Acyclic r) (hsub : ∀ a b, r' a b → r a b) :
    Acyclic r' := fun a hcycle => h a (TransGen.mono hsub a a hcycle)

/-- A pair that closes no path keeps a relation acyclic. -/
theorem Acyclic.insert {r r' : κ → κ → Prop} {x y : κ} (h : Acyclic r)
    (hpath : ¬ ReflTransGen r y x) (hsub : ∀ a b, r' a b → r a b ∨ (a = x ∧ b = y)) :
    Acyclic r' := by
  have hsplit : ∀ a b, TransGen r' a b →
      TransGen r a b ∨ (ReflTransGen r a x ∧ ReflTransGen r y b) := by
    intro a b hab
    induction hab with
    | single hedge =>
      rcases hsub _ _ hedge with hold | ⟨rfl, rfl⟩
      · exact Or.inl (TransGen.single hold)
      · exact Or.inr ⟨ReflTransGen.refl, ReflTransGen.refl⟩
    | tail _ hedge ih =>
      rcases hsub _ _ hedge with hold | ⟨rfl, rfl⟩
      · rcases ih with hpre | ⟨hpre, hpost⟩
        · exact Or.inl (hpre.tail hold)
        · exact Or.inr ⟨hpre, hpost.tail hold⟩
      · rcases ih with hpre | ⟨-, hpost⟩
        · exact Or.inr ⟨hpre.to_reflTransGen, ReflTransGen.refl⟩
        · exact absurd hpost hpath
  intro a hcycle
  rcases hsplit a a hcycle with hold | ⟨hpre, hpost⟩
  · exact h a hold
  · exact hpath (hpost.trans hpre)

/-- `c` waits for a lock that `d` holds. -/
def WaitsFor (waits holds : ι → κ → Prop) (c d : ι) : Prop := ∃ l, waits c l ∧ holds d l

variable {waits holds : ι → κ → Prop} {r : κ → κ → Prop}

theorem path_of_waitsFor (hedge : ∀ c k l, holds c k → waits c l → r k l) {c d : ι} {k : κ}
    (hk : holds c k) (h : TransGen (WaitsFor waits holds) c d) :
    ∃ l, holds d l ∧ TransGen r k l := by
  induction h with
  | single hwait =>
    obtain ⟨l, hw, hl⟩ := hwait
    exact ⟨l, hl, TransGen.single (hedge _ _ _ hk hw)⟩
  | tail _ hwait ih =>
    obtain ⟨l, hl, hpath⟩ := ih
    obtain ⟨l', hw, hl'⟩ := hwait
    exact ⟨l', hl', hpath.tail (hedge _ _ _ hl hw)⟩

/-- Who waits holds one lock at most, and the pairs are acyclic: then nobody waits for
itself, not even over others. -/
theorem no_wait_cycle (hedge : ∀ c k l, holds c k → waits c l → r k l)
    (hone : ∀ c k k' l, holds c k → holds c k' → waits c l → k = k') (hr : Acyclic r) (c : ι) :
    ¬ TransGen (WaitsFor waits holds) c c := by
  intro hcycle
  obtain ⟨d, ⟨l, hw, -⟩, -⟩ := TransGen.head'_iff.mp hcycle
  obtain ⟨e, -, l', -, hk⟩ := TransGen.tail'_iff.mp hcycle
  obtain ⟨k, hk', hpath⟩ := path_of_waitsFor hedge hk hcycle
  rw [hone c k l' l hk' hk hw] at hpath
  exact hr l' hpath

end Yarns.Base
