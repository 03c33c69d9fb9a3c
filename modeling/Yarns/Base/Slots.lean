import Mathlib.Logic.Function.Basic
import Mathlib.Data.List.Basic
import Mathlib.Data.List.Nodup
import Mathlib.Data.List.Perm.Subperm

/-!
# Lists stored at slots

A family of lists `f : ι → List α` read at a list of slots `L` has the contents
`L.flatMap f`. Writing one slot changes the contents only by what that slot held
(`flatMap_update_perm`); the corollaries are the forms used for queues: append at the
back of one slot, take the front of one slot, exchange the contents of one slot.
Where the contents have no repetitions, each element is in one slot (`slot_unique`).
`Placed` is that property without a list of the slots.
-/

namespace Yarns.Base

variable {ι α : Type} [DecidableEq ι] {L : List ι} {i : ι}

theorem flatMap_update_of_not_mem (f : ι → List α) (x : List α) (hi : i ∉ L) :
    L.flatMap (Function.update f i x) = L.flatMap f := by
  apply List.flatMap_congr
  intro j hj
  have hne : j ≠ i := by rintro rfl; exact hi hj
  simp [Function.update_of_ne hne]

/-- One slot of a list without repetitions is rewritten: what it held is exchanged for
what is written. -/
theorem flatMap_update_perm (hL : L.Nodup) (hi : i ∈ L) (f : ι → List α) (x : List α) :
    (L.flatMap (Function.update f i x) ++ f i).Perm (L.flatMap f ++ x) := by
  induction L with
  | nil => cases hi
  | cons j L ih =>
    obtain ⟨hj, hL⟩ := List.nodup_cons.mp hL
    simp only [List.flatMap_cons]
    classical
    rw [List.perm_iff_count]
    intro a
    rcases List.mem_cons.mp hi with rfl | hi
    · rw [Function.update_self, flatMap_update_of_not_mem f x hj]
      simp only [List.count_append]
      omega
    · have hne : j ≠ i := by rintro rfl; exact hj hi
      have h := (List.perm_iff_count.mp (ih hL hi)) a
      rw [Function.update_of_ne hne]
      simp only [List.count_append] at h ⊢
      omega

/-- The same when the old and the new content of the slot differ by known lists. -/
theorem flatMap_update_perm_of (hL : L.Nodup) (hi : i ∈ L) (f : ι → List α)
    {x a b : List α} (hx : (x ++ a).Perm (f i ++ b)) :
    (L.flatMap (Function.update f i x) ++ a).Perm (L.flatMap f ++ b) := by
  have h := flatMap_update_perm hL hi f x
  classical
  rw [List.perm_iff_count] at h hx ⊢
  intro c
  have h1 := h c
  have h2 := hx c
  simp only [List.count_append] at h1 h2 ⊢
  omega

/-- The same for two families that differ at one slot only. -/
theorem flatMap_perm_of_off (hL : L.Nodup) (hi : i ∈ L) {f f' : ι → List α}
    (hoff : ∀ j, j ≠ i → f' j = f j) {a b : List α} (hx : (f' i ++ a).Perm (f i ++ b)) :
    (L.flatMap f' ++ a).Perm (L.flatMap f ++ b) := by
  have hf : f' = Function.update f i (f' i) := Function.eq_update_iff.mpr ⟨rfl, hoff⟩
  rw [hf]
  exact flatMap_update_perm_of hL hi f hx

theorem flatMap_push (hL : L.Nodup) (hi : i ∈ L) (f : ι → List α) (a : α) :
    (L.flatMap (Function.update f i (f i ++ [a]))).Perm (a :: L.flatMap f) := by
  have h := flatMap_update_perm_of hL hi f (x := f i ++ [a]) (a := []) (b := [a]) (by simp)
  rw [List.append_nil] at h
  exact h.trans (List.perm_append_singleton a _)

theorem flatMap_pop (hL : L.Nodup) (hi : i ∈ L) (f : ι → List α) {a : α} {rest : List α}
    (hf : f i = a :: rest) :
    (L.flatMap f).Perm (a :: L.flatMap (Function.update f i rest)) := by
  have h := flatMap_update_perm_of hL hi f (x := rest) (a := [a]) (b := [])
    (by rw [hf, List.append_nil]; exact List.perm_append_singleton a rest)
  rw [List.append_nil] at h
  exact h.symm.trans (List.perm_append_singleton a _)

section

omit [DecidableEq ι]

theorem slot_unique {f : ι → List α} (h : (L.flatMap f).Nodup) {j : ι} (hi : i ∈ L)
    (hj : j ∈ L) {a : α} (hai : a ∈ f i) (haj : a ∈ f j) : i = j := by
  induction L with
  | nil => cases hi
  | cons k L ih =>
    rw [List.flatMap_cons, List.nodup_append'] at h
    obtain ⟨-, hL, hdisj⟩ := h
    rcases List.mem_cons.mp hi with rfl | hi' <;> rcases List.mem_cons.mp hj with rfl | hj'
    · rfl
    · exact (hdisj hai (List.mem_flatMap.mpr ⟨j, hj', haj⟩)).elim
    · exact (hdisj haj (List.mem_flatMap.mpr ⟨i, hi', hai⟩)).elim
    · exact ih hL hi' hj'

theorem slot_nodup {f : ι → List α} (h : (L.flatMap f).Nodup) (hi : i ∈ L) : (f i).Nodup :=
  (List.nodup_flatMap.mp h).1 i hi

end

/-- No slot has repetitions and no element is in two slots. -/
structure Placed (f : ι → List α) : Prop where
  nodup : ∀ i, (f i).Nodup
  apart : ∀ a i j, a ∈ f i → a ∈ f j → i = j

namespace Placed

variable {f f' : ι → List α} {a : α}

omit [DecidableEq ι] in
theorem subperm (h : Placed f) (hs : ∀ i, (f' i).Subperm (f i)) : Placed f' where
  nodup := by
    intro i
    obtain ⟨l, hp, hl⟩ := hs i
    exact hp.nodup_iff.mp (hl.nodup (h.nodup i))
  apart := fun a i j hi hj =>
    h.apart a i j (List.Subperm.subset (hs i) hi) (List.Subperm.subset (hs j) hj)

/-- An element that is nowhere joins slot `i`. -/
theorem push (h : Placed f) (hfresh : ∀ j, a ∉ f j) (hoff : ∀ j, j ≠ i → f' j = f j)
    (hi : (f' i).Perm (a :: f i)) : Placed f' where
  nodup := by
    intro j
    by_cases hj : j = i
    · subst hj
      exact hi.nodup_iff.mpr (List.nodup_cons.mpr ⟨hfresh j, h.nodup j⟩)
    · rw [hoff j hj]
      exact h.nodup j
  apart := by
    -- the new element is at `i` only, the others are where they were
    have hmem : ∀ b j, b ∈ f' j → b = a ∧ j = i ∨ b ∈ f j := by
      intro b j hb
      by_cases hj : j = i
      · subst hj
        rcases List.mem_cons.mp (hi.subset hb) with hba | hb
        · exact Or.inl ⟨hba, rfl⟩
        · exact Or.inr hb
      · rw [hoff j hj] at hb
        exact Or.inr hb
    intro b j k hj hk
    rcases hmem b j hj with ⟨rfl, rfl⟩ | hj <;> rcases hmem b k hk with ⟨hba, rfl⟩ | hk
    · rfl
    · exact absurd hk (hfresh k)
    · exact absurd (hba ▸ hj) (hfresh j)
    · exact h.apart b j k hj hk

end Placed

/-- In a list whose elements have distinct keys, filtering out one key drops one element. -/
theorem perm_cons_filter_key {κ β : Type} [DecidableEq κ] {key : β → κ} {l : List β}
    (hl : (l.map key).Nodup) {b : β} (hb : b ∈ l) :
    l.Perm (b :: l.filter fun a => key a ≠ key b) := by
  obtain ⟨l₁, l₂, rfl⟩ := List.append_of_mem hb
  have hkeys : ∀ a ∈ l₁ ++ l₂, key a ≠ key b := by
    have hnd : (key b :: (l₁ ++ l₂).map key).Nodup := (List.perm_middle.map key).nodup_iff.mp hl
    intro a ha heq
    exact (List.nodup_cons.mp hnd).1 (heq ▸ List.mem_map_of_mem ha)
  have hfilter : (l₁ ++ b :: l₂).filter (fun a => key a ≠ key b) = l₁ ++ l₂ := by
    rw [List.filter_append, List.filter_cons_of_neg (by simp), ← List.filter_append]
    exact List.filter_eq_self.mpr fun a ha => decide_eq_true (hkeys a ha)
  rw [hfilter]
  exact List.perm_middle

end Yarns.Base
