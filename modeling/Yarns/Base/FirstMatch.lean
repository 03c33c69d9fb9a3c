import Mathlib.Data.List.Basic

/-!
# The first element that can take a step

`updateFirst f l` is the loop that tries the elements of `l` in order and replaces the
first one on which `f` is defined, with the result `f` gives there.
-/

namespace Yarns.Base

variable {α β : Type} {f : α → Option (α × β)} {l l' : List α} {b : β}

def updateFirst (f : α → Option (α × β)) : List α → Option (List α × β)
  | [] => none
  | a :: l =>
    match f a with
    | some (a', b) => some (a' :: l, b)
    | none => (updateFirst f l).map fun r => (a :: r.1, r.2)

theorem updateFirst_eq_some (h : updateFirst f l = some (l', b)) :
    ∃ pre a a' post, l = pre ++ a :: post ∧ l' = pre ++ a' :: post ∧ f a = some (a', b) ∧
      ∀ c ∈ pre, f c = none := by
  induction l generalizing l' with
  | nil => cases h
  | cons a l ih =>
    rw [updateFirst] at h
    split at h
    · rename_i a' b' hf
      cases h
      exact ⟨[], a, a', l, rfl, rfl, hf, fun c hc => (by cases hc)⟩
    · rename_i hf
      obtain ⟨⟨l₁, b₁⟩, hr, heq⟩ := Option.map_eq_some_iff.mp h
      cases heq
      obtain ⟨pre, c, c', post, rfl, rfl, hc, hpre⟩ := ih hr
      refine ⟨a :: pre, c, c', post, rfl, rfl, hc, fun d hd => ?_⟩
      rcases List.mem_cons.mp hd with rfl | hd
      · exact hf
      · exact hpre d hd

theorem updateFirst_eq_none (h : updateFirst f l = none) : ∀ a ∈ l, f a = none := by
  induction l with
  | nil => simp
  | cons a l ih =>
    rw [updateFirst] at h
    split at h
    · cases h
    · rename_i hf
      intro c hc
      rcases List.mem_cons.mp hc with rfl | hc
      · exact hf
      · exact ih (Option.map_eq_none_iff.mp h) c hc

end Yarns.Base
