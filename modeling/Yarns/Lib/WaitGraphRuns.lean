import Yarns.Lib.WaitGraph

/-!
# Runs of the wait graph

A run registers yarns with their dependencies, signals tokens and processes clock
readings. It meets its purpose when every operation ends and resumes the yarns that
`Waiting` says it resumes. The search for the entry of a yarn does not advance once it
has found it, and the entry has just been put at the front of the list: a registration
that has a dependency never returns (`register_spins`). So the purpose is met exactly by
the runs that register no dependency (`meets_iff`).
-/

namespace Yarns

/-- An address `pool_allocate` can return. -/
abbrev NodePtr := { ptr : ULong // ptr ≠ 0 }

inductive WaitOp where
  /-- `wait_graph_insert`, and an insertion for each dependency. -/
  | register (yarn : ULong) (ptr : NodePtr) (deps : List (DependencyData × NodePtr))
  | signal (token : ULong)
  | timeProcess (time : ULong)

def WaitOp.deps : WaitOp → List DependencyData
  | .register _ _ deps => deps.map Prod.fst
  | _ => []

/-- The yarns an operation resumes, according to the purpose of the graph. -/
def Waiting.step (w : Waiting) : WaitOp → Waiting × List ULong
  | .register yarn _ deps => (w.register yarn (deps.map Prod.fst), [])
  | .signal token =>
    (w.after (DependencyData.signalled token), w.resumed (DependencyData.signalled token))
  | .timeProcess time =>
    (w.after (DependencyData.due time), w.resumed (DependencyData.due time))

/-- The yarns resumed by each operation of a run. -/
def Waiting.log (w : Waiting) : List WaitOp → List (List ULong)
  | [] => []
  | op :: ops => (w.step op).2 :: log (w.step op).1 ops

namespace WaitGraph

def insertAll (fuel : Nat) (yarn : ULong) (graph : WaitGraph) :
    List (DependencyData × NodePtr) → Option WaitGraph
  | [] => some graph
  | (.token token, ptr) :: deps => do
    let graph ← graph.waitGraphInsertToken fuel ptr yarn token
    insertAll fuel yarn graph deps
  | (.targetTime time, ptr) :: deps => do
    let graph ← graph.waitGraphInsertTime fuel ptr yarn time
    insertAll fuel yarn graph deps

def step (fuel : Nat) (graph : WaitGraph) : WaitOp → Option WaitGraph
  | .register yarn ptr deps => do
    let graph ← graph.waitGraphInsert ptr yarn
    graph.insertAll fuel yarn deps
  | .signal token => graph.waitGraphSignal fuel token
  | .timeProcess time => graph.waitGraphTimeProcess fuel time

/-- The calls of `yarn_resume` in each operation of a run. -/
def log (fuel : Nat) (graph : WaitGraph) : List WaitOp → Option (List (List ULong))
  | [] => some []
  | op :: ops => do
    let graph ← { graph with resumes := [] }.step fuel op
    let rest ← log fuel graph ops
    some (graph.resumes :: rest)

/-- Every operation of the run returns, and resumes exactly the yarns whose last
dependency it satisfies, each once. -/
def Meets (ops : List WaitOp) : Prop :=
  ∃ fuel calls, waitGraphNew.log fuel ops = some calls ∧
    List.Forall₂ List.Perm calls (Waiting.log [] ops)

variable {graph graph' : WaitGraph} {fuel : Nat} {entry yarn : ULong} {te : TaskEntry}
  {ops : List WaitOp}

theorem findTask_spins (h : graph.tasks entry = some te) (h0 : entry ≠ 0)
    (fuel : Nat) : graph.findTask te.target entry fuel = none := by
  induction fuel with
  | zero => rfl
  | succ fuel ih =>
    rw [findTask, if_neg h0, h]
    simp only [Option.bind_eq_bind, Option.bind_some, if_true]
    exact ih

/-- The entry of the yarn is at the front of the list, with no dependencies yet. -/
theorem waitGraphInsert_front {ptr : ULong} (h : graph.waitGraphInsert ptr yarn = some graph') :
    graph'.firstTask = ptr ∧
      ∃ te, graph'.tasks ptr = some te ∧ te.target = yarn ∧ te.ndeps = 0 := by
  simp only [waitGraphInsert, Option.bind_eq_bind, Option.bind_eq_some_iff] at h
  obtain ⟨graph₁, h₁, h⟩ := h
  cases h
  refine ⟨rfl, ?_⟩
  split at h₁
  · simp only [modifyTask, Option.bind_eq_bind, Option.bind_eq_some_iff] at h₁
    obtain ⟨te, hte, h₁⟩ := h₁
    cases h₁
    by_cases hp : ptr = graph.firstTask
    · subst hp
      rw [Function.update_self] at hte
      cases hte
      exact ⟨_, Function.update_self .., rfl, rfl⟩
    · exact ⟨_, (Function.update_of_ne hp ..).trans (Function.update_self ..), rfl, rfl⟩
  · cases h₁
    exact ⟨_, Function.update_self .., rfl, rfl⟩

theorem waitGraphInsert_frame {ptr : ULong} (h : graph.waitGraphInsert ptr yarn = some graph') :
    graph'.firstDependency = graph.firstDependency ∧ graph'.resumes = graph.resumes := by
  obtain ⟨graph₁, h₁, h⟩ := Option.bind_eq_some_iff.mp h
  obtain rfl := Option.some.inj h
  split at h₁
  · obtain ⟨te, -, h₁⟩ := Option.bind_eq_some_iff.mp h₁
    obtain rfl := Option.some.inj h₁
    exact ⟨rfl, rfl⟩
  · obtain rfl := Option.some.inj h₁
    exact ⟨rfl, rfl⟩

theorem exists_waitGraphInsert (h : graph.firstTask ≠ 0 → (graph.tasks graph.firstTask).isSome)
    (ptr : ULong) : ∃ graph', graph.waitGraphInsert ptr yarn = some graph' := by
  rw [waitGraphInsert]
  by_cases h0 : graph.firstTask = 0
  · rw [if_neg (not_not_intro h0)]
    exact ⟨_, rfl⟩
  · rw [if_pos h0]
    have hlive : ∃ te, Function.update graph.tasks ptr
        (some ⟨yarn, 0, 0, graph.firstTask⟩) graph.firstTask = some te := by
      by_cases hp : graph.firstTask = ptr
      · exact ⟨_, by rw [hp, Function.update_self]⟩
      · rw [Function.update_of_ne hp]
        exact Option.isSome_iff_exists.mp (h h0)
    obtain ⟨te, hte⟩ := hlive
    simp only [modifyTask, hte, Option.bind_eq_bind, Option.bind_some]
    exact ⟨_, rfl⟩

/-- A registration that has a dependency runs out of every bound. -/
theorem register_spins {ptr : NodePtr} {deps : List (DependencyData × NodePtr)}
    (hdeps : deps ≠ []) (fuel : Nat) : graph.step fuel (.register yarn ptr deps) = none := by
  simp only [step, Option.bind_eq_bind]
  cases hinsert : graph.waitGraphInsert ptr yarn with
  | none => rfl
  | some graph' =>
    obtain ⟨hfirst, te, hte, htarget, -⟩ := waitGraphInsert_front hinsert
    cases deps with
    | nil => exact absurd rfl hdeps
    | cons dep deps =>
      have hspin := findTask_spins hte ptr.property fuel
      rw [htarget] at hspin
      have hnone : ∀ ptr data, graph'.insertDependency fuel ptr yarn data = none := by
        intro ptr data
        rw [insertDependency, hfirst, hspin]
        rfl
      obtain ⟨token | time, dep⟩ := dep
      · rw [Option.bind_some, insertAll, waitGraphInsertTime, hnone]
        rfl
      · rw [Option.bind_some, insertAll, waitGraphInsertToken, hnone]
        rfl

/-! ## Runs without dependencies -/

/-- No dependency is listed, and the front of the task list is not dangling. -/
def Idle (graph : WaitGraph) : Prop :=
  graph.firstDependency = 0 ∧ (graph.firstTask ≠ 0 → (graph.tasks graph.firstTask).isSome)

theorem sweep_idle (hit : DependencyData → Bool) (h : graph.firstDependency = 0) :
    graph.sweep hit 0 graph.firstDependency (fuel + 1) = some graph := by
  rw [sweep, if_pos h]

/-- An operation without a dependency ends and resumes nobody. -/
theorem step_idle (fuel : Nat) (h : graph.Idle) (op : WaitOp) (hop : op.deps = []) :
    ∃ graph', graph.step (fuel + 1) op = some graph' ∧ graph'.Idle ∧
      graph'.resumes = graph.resumes := by
  obtain ⟨hdep, htask⟩ := h
  cases op with
  | register yarn ptr deps =>
    have hnil : deps = [] := List.map_eq_nil_iff.mp hop
    subst hnil
    obtain ⟨graph', hinsert⟩ := exists_waitGraphInsert htask ptr.val
    obtain ⟨hfirst, te, hte, -⟩ := waitGraphInsert_front hinsert
    obtain ⟨hdep', hres⟩ := waitGraphInsert_frame hinsert
    refine ⟨graph', ?_, ⟨hdep'.trans hdep, fun _ => ?_⟩, hres⟩
    · rw [step, hinsert]
      rfl
    · rw [hfirst, hte]
      rfl
  | signal token => exact ⟨graph, sweep_idle _ hdep, ⟨hdep, htask⟩, rfl⟩
  | timeProcess time => exact ⟨graph, sweep_idle _ hdep, ⟨hdep, htask⟩, rfl⟩

theorem waiting_idle (op : WaitOp) (hop : op.deps = []) : Waiting.step [] op = ([], []) := by
  cases op with
  | register yarn ptr deps =>
    have hnil : deps = [] := List.map_eq_nil_iff.mp hop
    subst hnil
    rfl
  | signal token => rfl
  | timeProcess time => rfl

theorem log_idle (fuel : Nat) (h : graph.Idle) (hops : ∀ op ∈ ops, op.deps = []) :
    ∃ calls, graph.log (fuel + 1) ops = some calls ∧
      List.Forall₂ List.Perm calls (Waiting.log [] ops) := by
  induction ops generalizing graph with
  | nil => exact ⟨[], rfl, List.Forall₂.nil⟩
  | cons op ops ih =>
    have hop := hops op List.mem_cons_self
    have hidle : Idle { graph with resumes := [] } := h
    obtain ⟨graph', hstep, hidle', hres⟩ := step_idle fuel hidle op hop
    obtain ⟨calls, hlog, hcalls⟩ := ih hidle' fun o ho => hops o (List.mem_cons_of_mem op ho)
    refine ⟨graph'.resumes :: calls, ?_, ?_⟩
    · simp only [log, hstep, hlog, Option.bind_eq_bind, Option.bind_some]
    · rw [Waiting.log, waiting_idle op hop, hres]
      exact List.Forall₂.cons (List.Perm.refl _) hcalls

/-- A run that returns has registered no dependency. -/
theorem deps_of_log {calls : List (List ULong)} (h : graph.log fuel ops = some calls) :
    ∀ op ∈ ops, op.deps = [] := by
  induction ops generalizing graph calls with
  | nil =>
    intro op hop
    cases hop
  | cons o ops ih =>
    simp only [log, Option.bind_eq_bind, Option.bind_eq_some_iff] at h
    obtain ⟨graph', hstep, rest, hrest, -⟩ := h
    intro op hop
    rcases List.mem_cons.mp hop with rfl | hop
    · cases op with
      | register yarn ptr deps =>
        by_contra hdeps
        rw [register_spins (fun hnil => hdeps (List.map_eq_nil_iff.mpr hnil)) fuel] at hstep
        cases hstep
      | signal token => rfl
      | timeProcess time => rfl
    · exact ih hrest op hop

/-- A run meets the purpose of the wait graph if and only if it registers no dependency. -/
theorem meets_iff (ops : List WaitOp) : Meets ops ↔ ∀ op ∈ ops, op.deps = [] := by
  constructor
  · intro h
    obtain ⟨fuel, calls, hlog, -⟩ := h
    exact deps_of_log hlog
  · intro h
    have hidle : waitGraphNew.Idle := ⟨rfl, fun h => absurd rfl h⟩
    obtain ⟨calls, hlog, hcalls⟩ := log_idle 0 hidle h
    exact ⟨1, calls, hlog, hcalls⟩

/-- One yarn that waits for one token, and the signal of the token. -/
theorem token_never_resumes :
    ¬ Meets [.register 7 ⟨4096, by decide⟩ [(.token 1, ⟨8192, by decide⟩)], .signal 1] := by
  intro h
  obtain ⟨fuel, calls, hlog, -⟩ := h
  rw [log, register_spins (List.cons_ne_nil _ _) fuel] at hlog
  cases hlog

end WaitGraph

end Yarns
