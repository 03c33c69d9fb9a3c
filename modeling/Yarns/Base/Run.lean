import Mathlib.Logic.Basic

/-!
# Runs of a partial step function

A system is a function `step : σ → α → Option σ`: the action `a` is enabled in `s`
when `step s a` is some state. Every choice the environment makes (which core moves,
what the clock reads, which address an allocator hands out) is part of the action, so
a list of actions determines the run.

* `run` executes a list of actions, `Reachable` is the existence of such a list.
* `Along P s as`: every step that the list `as` takes from `s` satisfies `P`. A list
  whose next action is not enabled takes no further step.
* `along_of_invariant` is the induction: a step lemma under a condition on the steps
  becomes a statement about whole runs whose steps meet the condition.
* `Throughout P s as` asks `P` of every state and the action tried in it, so it says
  something about an action that is not enabled too.
-/

namespace Yarns.Base

variable {σ α : Type}

/-- Execute the actions from left to right. -/
def run (step : σ → α → Option σ) (s : σ) : List α → Option σ
  | [] => some s
  | a :: as => (step s a).bind fun t => run step t as

def Reachable (step : σ → α → Option σ) (s₀ s : σ) : Prop := ∃ as, run step s₀ as = some s

/-- Every step taken by the actions satisfies `P` (state before, action, state after). -/
def Along (step : σ → α → Option σ) (P : σ → α → σ → Prop) (s : σ) : List α → Prop
  | [] => True
  | a :: as => ∀ t, step s a = some t → P s a t ∧ Along step P t as

/-- `P` holds of every state reached with the action tried there, enabled or not. -/
def Throughout (step : σ → α → Option σ) (P : σ → α → Prop) (s : σ) : List α → Prop
  | [] => True
  | a :: as => P s a ∧ ∀ t, step s a = some t → Throughout step P t as

section

variable {step : σ → α → Option σ} {s t u : σ} {a : α} {as bs : List α}

theorem run_cons_iff : run step s (a :: as) = some u ↔
    ∃ t, step s a = some t ∧ run step t as = some u := Option.bind_eq_some_iff

theorem run_append : run step s (as ++ bs) = (run step s as).bind fun t => run step t bs := by
  induction as generalizing s with
  | nil => rfl
  | cons a as ih =>
    simp only [List.cons_append, run, Option.bind_assoc]
    exact Option.bind_congr fun t _ => ih

theorem Reachable.trans (h : Reachable step s t) (h' : Reachable step t u) :
    Reachable step s u := by
  obtain ⟨as, has⟩ := h
  obtain ⟨bs, hbs⟩ := h'
  exact ⟨as ++ bs, by rw [run_append, has]; exact hbs⟩

/-- An invariant that holds at the start and is kept by every step holds of every
reachable state. -/
theorem reachable_invariant {I : σ → Prop} (h0 : I s)
    (hstep : ∀ s a t, I s → step s a = some t → I t) (h : Reachable step s t) : I t := by
  obtain ⟨as, has⟩ := h
  induction as generalizing s with
  | nil =>
    obtain rfl := Option.some.inj has
    exact h0
  | cons a as ih =>
    obtain ⟨u, hu, hrest⟩ := run_cons_iff.mp has
    exact ih (hstep s a u h0 hu) hrest

instance decidableAlong (step : σ → α → Option σ) (P : σ → α → σ → Prop)
    [∀ s a t, Decidable (P s a t)] : ∀ s as, Decidable (Along step P s as)
  | _, [] => isTrue trivial
  | s, a :: as =>
    match hs : step s a with
    | none => isTrue fun _ ht => nomatch hs.symm.trans ht
    | some t =>
      haveI := decidableAlong step P t as
      decidable_of_iff (P s a t ∧ Along step P t as)
        ⟨fun h _ hu => Option.some.inj (hs.symm.trans hu) ▸ h, fun h => h t hs⟩

instance decidableThroughout (step : σ → α → Option σ) (P : σ → α → Prop)
    [∀ s a, Decidable (P s a)] : ∀ s as, Decidable (Throughout step P s as)
  | _, [] => isTrue trivial
  | s, a :: as =>
    match hs : step s a with
    | none => decidable_of_iff (P s a)
        ⟨fun h => ⟨h, fun _ ht => nomatch hs.symm.trans ht⟩, And.left⟩
    | some t =>
      haveI := decidableThroughout step P t as
      decidable_of_iff (P s a ∧ Throughout step P t as)
        ⟨fun h => ⟨h.1, fun _ hu => Option.some.inj (hs.symm.trans hu) ▸ h.2⟩,
          fun h => ⟨h.1, h.2 t hs⟩⟩

theorem along_cons {P : σ → α → σ → Prop} (hs : step s a = some t) (hP : P s a t)
    (h : Along step P t as) : Along step P s (a :: as) := by
  intro u hu
  obtain rfl := Option.some.inj (hs.symm.trans hu)
  exact ⟨hP, h⟩

theorem along_of_forall_mem {P : σ → α → σ → Prop} (h : ∀ a ∈ as, ∀ s t, P s a t) :
    Along step P s as := by
  induction as generalizing s with
  | nil => trivial
  | cons a as ih =>
    intro t _
    exact ⟨h a List.mem_cons_self s t, ih fun b hb => h b (List.mem_cons_of_mem a hb)⟩

theorem Along.mono {P Q : σ → α → σ → Prop} (h : Along step P s as)
    (hPQ : ∀ s a t, P s a t → Q s a t) : Along step Q s as := by
  induction as generalizing s with
  | nil => trivial
  | cons a as ih =>
    intro t ht
    obtain ⟨hP, hrest⟩ := h t ht
    exact ⟨hPQ s a t hP, ih hrest⟩

theorem Along.and {P Q : σ → α → σ → Prop} (hP : Along step P s as) (hQ : Along step Q s as) :
    Along step (fun s a t => P s a t ∧ Q s a t) s as := by
  induction as generalizing s with
  | nil => trivial
  | cons a as ih =>
    intro t ht
    obtain ⟨hp, hprest⟩ := hP t ht
    obtain ⟨hq, hqrest⟩ := hQ t ht
    exact ⟨⟨hp, hq⟩, ih hprest hqrest⟩

/-- The induction over a run: an invariant kept by every step that meets `good` gives
`P` at every step of a run whose steps all meet `good`. -/
theorem along_of_invariant {I : σ → Prop} {good P : σ → α → σ → Prop} (h0 : I s)
    (hstep : ∀ s a t, I s → good s a t → step s a = some t → I t ∧ P s a t)
    (h : Along step good s as) : Along step P s as := by
  induction as generalizing s with
  | nil => trivial
  | cons a as ih =>
    intro t ht
    obtain ⟨hg, hrest⟩ := h t ht
    obtain ⟨hI, hP⟩ := hstep s a t h0 hg ht
    exact ⟨hP, ih hI hrest⟩

/-- Where, step by step, `P` and `good` say the same and keep the invariant, they say the
same of runs. -/
theorem along_iff_of_invariant {I : σ → Prop} {good P : σ → α → σ → Prop} (h0 : I s)
    (hiff : ∀ s a t, I s → step s a = some t → (P s a t ↔ good s a t))
    (hstep : ∀ s a t, I s → good s a t → step s a = some t → I t) :
    Along step P s as ↔ Along step good s as := by
  induction as generalizing s with
  | nil => exact Iff.rfl
  | cons a as ih =>
    constructor
    · intro h t ht
      obtain ⟨hP, hrest⟩ := h t ht
      have hg := (hiff s a t h0 ht).mp hP
      exact ⟨hg, (ih (hstep s a t h0 hg ht)).mp hrest⟩
    · intro h t ht
      obtain ⟨hg, hrest⟩ := h t ht
      exact ⟨(hiff s a t h0 ht).mpr hg, (ih (hstep s a t h0 hg ht)).mpr hrest⟩

/-- A state that a run carries along without consulting it. -/
theorem run_ghost {σ' : Type} {ghost : σ' → α → Option σ'} {f : σ' → σ}
    (hf : ∀ s a, (ghost s a).map f = step (f s) a) {s : σ'} :
    (run ghost s as).map f = run step (f s) as := by
  induction as generalizing s with
  | nil => rfl
  | cons a as ih =>
    rw [run, run, ← hf]
    cases ghost s a with
    | none => rfl
    | some t => exact ih

theorem along_ghost {σ' : Type} {ghost : σ' → α → Option σ'} {f : σ' → σ}
    (hf : ∀ s a, (ghost s a).map f = step (f s) a) {P : σ → α → σ → Prop} {s : σ'} :
    Along step P (f s) as ↔ Along ghost (fun s a t => P (f s) a (f t)) s as := by
  induction as generalizing s with
  | nil => exact Iff.rfl
  | cons a as ih =>
    constructor
    · intro h t ht
      have hstep : step (f s) a = some (f t) := by
        rw [← hf, ht]
        rfl
      obtain ⟨hP, hrest⟩ := h (f t) hstep
      exact ⟨hP, ih.mp hrest⟩
    · intro h t ht
      rw [← hf] at ht
      obtain ⟨u, hu, rfl⟩ := Option.map_eq_some_iff.mp ht
      obtain ⟨hP, hrest⟩ := h u hu
      exact ⟨hP, ih.mpr hrest⟩

/-- A system that can follow every good step of another one, keeping a relation between
the two states, follows its runs. -/
theorem run_simulation {σ' : Type} {step' : σ' → α → Option σ'} {R : σ → σ' → Prop}
    {good : σ → α → σ → Prop} {s' : σ'} (h0 : R s s')
    (hstep : ∀ s s' a t, R s s' → good s a t → step s a = some t →
      ∃ t', step' s' a = some t' ∧ R t t')
    (hgood : Along step good s as) (h : run step s as = some t) :
    ∃ t', run step' s' as = some t' ∧ R t t' := by
  induction as generalizing s s' with
  | nil =>
    obtain rfl := Option.some.inj h
    exact ⟨s', rfl, h0⟩
  | cons a as ih =>
    obtain ⟨u, hu, hrest⟩ := run_cons_iff.mp h
    obtain ⟨hg, hgrest⟩ := hgood u hu
    obtain ⟨u', hu', hR⟩ := hstep s s' a u h0 hg hu
    obtain ⟨t', ht', hR'⟩ := ih hR hgrest hrest
    exact ⟨t', run_cons_iff.mpr ⟨u', hu', ht'⟩, hR'⟩

theorem rel_map {β γ δ : Type} {R : σ → β → Prop} {S : γ → δ → Prop} {f : σ → γ} {g : β → δ}
    {x : Option σ} {y : Option β} (h : Option.Rel R x y) (hS : ∀ a b, R a b → S (f a) (g b)) :
    Option.Rel S (x.map f) (y.map g) := by
  cases h with
  | none => exact .none
  | some hab => exact .some (hS _ _ hab)

/-- Two systems in lockstep: either both can take the next action or neither can. The
relation may depend on the actions that are still to come. -/
theorem run_rel {σ' : Type} {step' : σ' → α → Option σ'} {R : List α → σ → σ' → Prop} {s' : σ'}
    (hstep : ∀ a as s s', R (a :: as) s s' → Option.Rel (R as) (step s a) (step' s' a))
    (h : R as s s') : Option.Rel (R []) (run step s as) (run step' s' as) := by
  induction as generalizing s s' with
  | nil => exact .some h
  | cons a as ih =>
    have hrel := hstep a as s s' h
    rw [run, run]
    generalize step s a = x, step' s' a = y at hrel ⊢
    cases hrel with
    | none => exact .none
    | some ht => exact ih ht

/-- A system in which every action is enabled. -/
theorem run_total (f : σ → α → σ) : run (fun s a => some (f s a)) s as = some (as.foldl f s) := by
  induction as generalizing s with
  | nil => rfl
  | cons a as ih => exact ih

/-- The first part of a run. -/
theorem Along.take {P : σ → α → σ → Prop} (h : Along step P s (as ++ bs)) : Along step P s as := by
  induction as generalizing s with
  | nil => trivial
  | cons a as ih =>
    intro t ht
    obtain ⟨hP, hrest⟩ := h t ht
    exact ⟨hP, ih hrest⟩

/-- What is left of a run after its first part. -/
theorem Along.drop {P : σ → α → σ → Prop} (h : Along step P s (as ++ bs))
    (hr : run step s as = some t) : Along step P t bs := by
  induction as generalizing s with
  | nil =>
    obtain rfl := Option.some.inj hr
    exact h
  | cons b as ih =>
    obtain ⟨v, hv, hrest⟩ := run_cons_iff.mp hr
    exact ih (h v hv).2 hrest

/-- A step at the end of a run is one of its steps. -/
theorem along_last {P : σ → α → σ → Prop} (h : Along step P s (as ++ [a]))
    (hr : run step s as = some t) (hs : step t a = some u) : P t a u :=
  (h.drop hr u hs).1

/-- What is observed of the last step of a run by executing it. -/
theorem along_observed {β : Type} {P : σ → α → σ → Prop} {f : σ → σ → β} {x : β}
    (h : Along step P s (as ++ [a]))
    (hrun : ((run step s as).bind fun t => (step t a).map (f t)) = some x) :
    ∃ t u, P t a u ∧ f t u = x := by
  obtain ⟨t, ht, hlast⟩ := Option.bind_eq_some_iff.mp hrun
  obtain ⟨u, hu, hf⟩ := Option.map_eq_some_iff.mp hlast
  exact ⟨t, u, along_last h ht hu, hf⟩

/-- The same induction for the state a run ends in. -/
theorem run_invariant {I : σ → Prop} {good : σ → α → σ → Prop} (h0 : I s)
    (hstep : ∀ s a t, I s → good s a t → step s a = some t → I t)
    (hgood : Along step good s as) (h : run step s as = some t) : I t := by
  induction as generalizing s with
  | nil =>
    obtain rfl := Option.some.inj h
    exact h0
  | cons a as ih =>
    obtain ⟨u, hu, hrest⟩ := run_cons_iff.mp h
    obtain ⟨hg, hgrest⟩ := hgood u hu
    exact ih (hstep s a u h0 hg hu) hgrest hrest

/-- The same for an invariant that looks back: `note` sums up the actions so far. -/
theorem run_history {γ : Type} {note : γ → α → γ} {I : σ → γ → Prop} {g : γ} (h0 : I s g)
    (hstep : ∀ s g a t, I s g → step s a = some t → I t (note g a))
    (h : run step s as = some t) : I t (as.foldl note g) := by
  induction as generalizing s g with
  | nil =>
    obtain rfl := Option.some.inj h
    exact h0
  | cons a as ih =>
    obtain ⟨u, hu, hrest⟩ := run_cons_iff.mp h
    exact ih (hstep s g a u h0 hu) hrest

theorem throughout_iff_of_invariant {I : σ → Prop} {good P : σ → α → Prop} (h0 : I s)
    (hiff : ∀ s a, I s → (P s a ↔ good s a))
    (hstep : ∀ s a t, I s → good s a → step s a = some t → I t) :
    Throughout step P s as ↔ Throughout step good s as := by
  induction as generalizing s with
  | nil => exact Iff.rfl
  | cons a as ih =>
    constructor
    · intro h
      have hg := (hiff s a h0).mp h.1
      exact ⟨hg, fun t ht => (ih (hstep s a t h0 hg ht)).mp (h.2 t ht)⟩
    · intro h
      exact ⟨(hiff s a h0).mpr h.1, fun t ht => (ih (hstep s a t h0 h.1 ht)).mpr (h.2 t ht)⟩

theorem throughout_and {P Q : σ → α → Prop} : Throughout step (fun s a => P s a ∧ Q s a) s as ↔
    Throughout step P s as ∧ Throughout step Q s as := by
  induction as generalizing s with
  | nil => exact (and_self_iff).symm
  | cons a as ih =>
    simp only [Throughout, ih]
    exact ⟨fun h => ⟨⟨h.1.1, fun t ht => (h.2 t ht).1⟩, h.1.2, fun t ht => (h.2 t ht).2⟩,
      fun h => ⟨⟨h.1.1, h.2.1⟩, fun t ht => ⟨h.1.2 t ht, h.2.2 t ht⟩⟩⟩

theorem throughout_of_forall_mem {P : σ → α → Prop} (h : ∀ a ∈ as, ∀ s, P s a) :
    Throughout step P s as := by
  induction as generalizing s with
  | nil => trivial
  | cons a as ih =>
    exact ⟨h a List.mem_cons_self s, fun _ _ => ih fun b hb => h b (List.mem_cons_of_mem a hb)⟩

theorem throughout_last {P : σ → α → Prop} (h : Throughout step P s (as ++ [a]))
    (hr : run step s as = some t) : P t a := by
  induction as generalizing s with
  | nil =>
    obtain rfl := Option.some.inj hr
    exact h.1
  | cons b as ih =>
    obtain ⟨u, hu, hrest⟩ := run_cons_iff.mp hr
    exact ih (h.2 u hu) hrest

end

end Yarns.Base
