import Mathlib.Data.List.Nodup

/-!
# Null-terminated lists on a heap

`read p` is what the node at `p` holds, with the pointer to the next node. `Chain` says that
the list that starts at a pointer is a given list of nodes with their items; it ends at
`null`. Such a list determines its nodes (`Chain.unique`), so no node occurs twice
(`Chain.nodup`), and a write to one node is a change at one place (`Chain.relast`,
`Chain.unlink`). `Doubly` is the same for lists that are linked both ways.
-/

namespace Yarns.Base

variable {κ ι : Type} {null p q : κ} {e : κ × ι} {pre post l l' : List (κ × ι)}

/-- The node a list starts with. -/
def firstNode (null : κ) (l : List (κ × ι)) : κ := (l.head?.map Prod.fst).getD null

/-- The node a list ends with. -/
def lastNode (null : κ) (l : List (κ × ι)) : κ := (l.getLast?.map Prod.fst).getD null

@[simp] theorem firstNode_nil : firstNode null ([] : List (κ × ι)) = null := rfl

@[simp] theorem firstNode_cons : firstNode null (e :: l) = e.1 := rfl

@[simp] theorem lastNode_concat : lastNode null (l ++ [e]) = e.1 := by
  rw [lastNode, List.getLast?_concat]
  rfl

/-- The list from `p` on. -/
def Chain (read : κ → Option (ι × κ)) (null : κ) : κ → List (κ × ι) → Prop
  | p, [] => p = null
  | p, e :: l => p = e.1 ∧ p ≠ null ∧ ∃ q, read p = some (e.2, q) ∧ Chain read null q l

namespace Chain

variable {read read' : κ → Option (ι × κ)}

theorem eq_first (h : Chain read null p l) : p = firstNode null l := by
  cases l with
  | nil => exact h
  | cons e l => exact h.1

theorem unique (h : Chain read null p l) (h' : Chain read null p l') : l = l' := by
  induction l generalizing p l' with
  | nil =>
    cases l' with
    | nil => rfl
    | cons e' l' => exact absurd h h'.2.1
  | cons e l ih =>
    obtain ⟨he, hne, q, hq, hl⟩ := h
    cases l' with
    | nil => exact absurd h' hne
    | cons e' l' =>
      obtain ⟨he', -, q', hq', hl'⟩ := h'
      obtain ⟨hi, rfl⟩ := Prod.mk.inj (Option.some.inj (hq.symm.trans hq'))
      rw [ih hl hl', Prod.ext (he.symm.trans he') hi]

theorem tail (h : Chain read null p (e :: l)) : Chain read null (firstNode null l) l := by
  obtain ⟨-, -, q, -, hl⟩ := h
  exact hl.eq_first ▸ hl

/-- The rest of a list. -/
theorem drop (h : Chain read null p (pre ++ l)) : Chain read null (firstNode null l) l := by
  induction pre generalizing p with
  | nil =>
    have h' : Chain read null p l := h
    exact h'.eq_first ▸ h'
  | cons x pre ih =>
    obtain ⟨-, -, q, -, hrest⟩ := h
    exact ih hrest

theorem of_mem (h : Chain read null p l) (he : e ∈ l) :
    e.1 ≠ null ∧ ∃ q, read e.1 = some (e.2, q) := by
  obtain ⟨pre, post, rfl⟩ := List.append_of_mem he
  obtain ⟨-, hne, q, hq, -⟩ := h.drop
  exact ⟨hne, q, hq⟩

/-- A node that came back would start the same list again. -/
theorem nodup (h : Chain read null p l) : (l.map Prod.fst).Nodup := by
  induction l generalizing p with
  | nil => exact List.nodup_nil
  | cons e l ih =>
    have h' := h
    obtain ⟨he, -, q, -, hl⟩ := h'
    refine List.nodup_cons.mpr ⟨fun hmem => ?_, ih hl⟩
    obtain ⟨x, hx, hxe⟩ := List.mem_map.mp hmem
    obtain ⟨pre, post, rfl⟩ := List.append_of_mem hx
    have hagain : Chain read null p (x :: post) := by
      rw [he, ← hxe]
      exact hl.drop
    have hlen := congrArg List.length (h.unique hagain)
    simp only [List.length_cons, List.length_append] at hlen
    omega

theorem congr (h : Chain read null p l) (hread : ∀ x ∈ l, read' x.1 = read x.1) :
    Chain read' null p l := by
  induction l generalizing p with
  | nil => exact h
  | cons e l ih =>
    obtain ⟨he, hne, q, hq, hl⟩ := h
    refine ⟨he, hne, q, ?_, ih hl fun x hx => hread x (List.mem_cons_of_mem e hx)⟩
    rw [he, hread e List.mem_cons_self, ← he]
    exact hq

/-- The node of `e` gets another successor. -/
theorem relast (h : Chain read null p (pre ++ e :: l))
    (hread : ∀ x ∈ pre, read' x.1 = read x.1) (he : read' e.1 = some (e.2, q))
    (hl : Chain read' null q l') : Chain read' null p (pre ++ e :: l') := by
  induction pre generalizing p with
  | nil =>
    obtain ⟨hp, hne, -⟩ := h
    exact ⟨hp, hne, q, hp ▸ he, hl⟩
  | cons x pre ih =>
    obtain ⟨hx, hne, r, hr, hrest⟩ := h
    refine ⟨hx, hne, r, ?_, ih hrest fun y hy => hread y (List.mem_cons_of_mem x hy)⟩
    rw [hx, hread x List.mem_cons_self, ← hx]
    exact hr

/-- `e` is taken out: its predecessor, or the pointer to the list where it has none, gets
its successor. -/
theorem unlink [DecidableEq κ] {p' : κ} (h : Chain read null p (pre ++ e :: post))
    (hp : p' = if pre = [] then firstNode null post else p)
    (hkeep : ∀ x ∈ pre ++ post, x.1 ≠ lastNode null pre → read' x.1 = read x.1)
    (hlast : ∀ x ∈ pre, x.1 = lastNode null pre → read' x.1 = some (x.2, firstNode null post)) :
    Chain read' null p' (pre ++ post) := by
  subst hp
  have hnd := h.nodup
  rw [List.map_append, List.nodup_append] at hnd
  have hpost : Chain read' null (firstNode null post) post := by
    have hrest := (List.append_cons pre e post ▸ h).drop
    refine hrest.congr fun x hx => hkeep x (List.mem_append_right _ hx) fun hxl => ?_
    rcases List.eq_nil_or_concat pre with rfl | ⟨pre, y, rfl⟩
    · exact (hrest.of_mem hx).1 hxl
    · rw [List.concat_eq_append, lastNode_concat] at hxl
      refine hnd.2.2 y.1 (by simp) x.1 ?_ hxl.symm
      exact List.mem_map_of_mem (List.mem_cons_of_mem e hx)
  rcases List.eq_nil_or_concat pre with rfl | ⟨pre, y, rfl⟩
  · exact hpost
  · rw [List.concat_eq_append] at h hkeep hlast hnd ⊢
    rw [if_neg (by simp), List.append_assoc]
    rw [List.append_assoc] at h
    refine relast h (fun x hx => ?_) (hlast y (by simp) lastNode_concat.symm) hpost
    refine hkeep x (by simp [hx]) fun hxl => ?_
    rw [lastNode_concat] at hxl
    have hpre := hnd.1
    rw [List.map_append, List.nodup_append] at hpre
    exact hpre.2.2 x.1 (List.mem_map_of_mem hx) y.1 (by simp) hxl

end Chain

/-- The list from `p` on, linked both ways; `prev` is the node before it. -/
def Doubly (read : κ → Option (ι × κ × κ)) (null : κ) : κ → κ → List (κ × ι) → Prop
  | _, p, [] => p = null
  | prev, p, e :: l =>
    p = e.1 ∧ p ≠ null ∧ ∃ q, read p = some (e.2, prev, q) ∧ Doubly read null p q l

namespace Doubly

variable {read read' : κ → Option (ι × κ × κ)} {prev : κ}

/-- Without the links back. -/
theorem chain (h : Doubly read null prev p l) :
    Chain (fun p => (read p).map fun v => (v.1, v.2.2)) null p l := by
  induction l generalizing prev p with
  | nil => exact h
  | cons e l ih =>
    obtain ⟨he, hne, q, hq, hl⟩ := h
    exact ⟨he, hne, q, Option.map_eq_some_iff.mpr ⟨_, hq, rfl⟩, ih hl⟩

/-- The items change, the links do not. -/
theorem map {f : κ × ι → ι} (h : Doubly read null prev p l)
    (hread : ∀ e ∈ l, ∀ links, read e.1 = some (e.2, links) → read' e.1 = some (f e, links)) :
    Doubly read' null prev p (l.map fun e => (e.1, f e)) := by
  induction l generalizing prev p with
  | nil => exact h
  | cons e l ih =>
    obtain ⟨he, hne, q, hq, hl⟩ := h
    refine ⟨he, hne, q, ?_, ih hl fun x hx => hread x (List.mem_cons_of_mem e hx)⟩
    rw [he] at hq ⊢
    exact hread e List.mem_cons_self _ hq

end Doubly

end Yarns.Base
