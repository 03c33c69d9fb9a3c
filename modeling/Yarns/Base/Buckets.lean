import Mathlib.Data.List.FinRange
import Mathlib.Data.List.Perm.Basic
import Mathlib.Logic.Function.Basic

/-!
# Buckets

A hash table as a function from bucket numbers to lists, and what all of its buckets hold
together, up to order.
-/

namespace Yarns.Base

variable {α : Type} {n : Nat} {f : Fin n → List α} {i : Fin n} {l : List α} {x : α}

/-- What all the buckets hold. -/
def contents (f : Fin n → List α) : List α := (List.finRange n).flatMap f

theorem mem_contents : x ∈ contents f ↔ ∃ i, x ∈ f i := by
  simp only [contents, List.mem_flatMap, List.mem_finRange, true_and]

/-- The other buckets do not depend on this one. -/
theorem contents_update (f : Fin n → List α) (i : Fin n) :
    ∃ rest, ∀ l, (contents (Function.update f i l)).Perm (l ++ rest) := by
  refine ⟨((List.finRange n).erase i).flatMap f, fun l => ?_⟩
  have hsplit := List.perm_cons_erase (List.mem_finRange i)
  refine (hsplit.flatMap_right _).trans ?_
  rw [List.flatMap_cons, Function.update_self]
  refine List.Perm.of_eq (congrArg (l ++ ·) (List.flatMap_congr fun j hj => ?_))
  rw [Function.update_of_ne]
  exact ((List.nodup_finRange n).mem_erase_iff.mp hj).1

theorem contents_insert (h : l.Perm (x :: f i)) :
    (contents (Function.update f i l)).Perm (x :: contents f) := by
  obtain ⟨rest, hrest⟩ := contents_update f i
  have hold := hrest (f i)
  rw [Function.update_eq_self] at hold
  exact (hrest l).trans ((h.append_right rest).trans (hold.symm.cons x))

theorem contents_remove (h : (f i).Perm (x :: l)) :
    (contents f).Perm (x :: contents (Function.update f i l)) := by
  have hback := contents_insert (f := Function.update f i l) (i := i) (x := x) (l := f i)
    (by rwa [Function.update_self])
  rwa [Function.update_idem, Function.update_eq_self] at hback

theorem contents_keep (h : l.Perm (f i)) :
    (contents (Function.update f i l)).Perm (contents f) := by
  obtain ⟨rest, hrest⟩ := contents_update f i
  have hold := hrest (f i)
  rw [Function.update_eq_self] at hold
  exact (hrest l).trans ((h.append_right rest).trans hold.symm)

end Yarns.Base
