import Yarns.Lib.WaitEliminate
import Yarns.Lib.WaitGraphRuns

/-!
# Registering a dependency

The search of `wait_graph_insert_token` and `wait_graph_insert_time` does not advance from an
entry for the yarn: with such an entry in the list the call never returns, and it does what
is wanted exactly if there is none, which is when it does nothing. `yarn_suspend_on_tokens`
has just put an entry for its caller into the list, so with a token to register it never
returns and keeps the lock of the wait graph (`registration_iff`).
-/

namespace Yarns

open Base

namespace WaitGraph

/-- A node of the task list without its link backwards. -/
def readNext (graph : WaitGraph) (p : ULong) : Option (ListedTask × ULong) :=
  (graph.readTask p).map fun v => (v.1, v.2.2)

/-- The task list as the search sees it, by its links forwards. -/
def TaskChain (graph : WaitGraph) (ts : ListedTasks) : Prop :=
  Chain graph.readNext 0 graph.firstTask ts

theorem TaskChain.first_live {graph : WaitGraph} {ts : ListedTasks} (h : graph.TaskChain ts) :
    graph.firstTask ≠ 0 → (graph.tasks graph.firstTask).isSome := by
  intro h0
  cases ts with
  | nil => exact absurd h h0
  | cons t ts =>
    obtain ⟨-, -, q, hq, -⟩ := h
    have hread := Option.isSome_of_mem hq
    rwa [readNext, Option.isSome_map, readTask, Option.isSome_map] at hread

/-- The call for a dependency of either kind. -/
def waitGraphInsertOf (graph : WaitGraph) (fuel : Nat) (ptr yarn : ULong) :
    DependencyData → Option WaitGraph
  | .token token => graph.waitGraphInsertToken fuel ptr yarn token
  | .targetTime time => graph.waitGraphInsertTime fuel ptr yarn time

/-- What is wanted of the insertion: a dependency at the front, on the first entry for the
yarn, whose count grows by one. -/
def registered (graph : WaitGraph) (ts : ListedTasks) (ptr yarn : ULong)
    (data : DependencyData) : WaitGraph :=
  match ts.find? fun t => t.2.target = yarn with
  | none => graph
  | some t =>
    { graph with
      tasks := Function.update graph.tasks t.1
        ((graph.tasks t.1).map fun te => { te with ndeps := te.ndeps + 1 })
      dependencies := Function.update graph.dependencies ptr
        (some ⟨t.1, data, graph.firstDependency⟩)
      firstDependency := ptr }

def RegistersExactly (graph : WaitGraph) (ts : ListedTasks) (ptr yarn : ULong)
    (data : DependencyData) : Prop :=
  ∃ fuel, graph.waitGraphInsertOf fuel ptr yarn data = some (graph.registered ts ptr yarn data)

variable {graph : WaitGraph} {ts : ListedTasks} {t : ULong × ListedTask} {yarn ptr p : ULong}
  {data : DependencyData} {fuel : Nat}

theorem waitGraphInsertOf_eq (graph : WaitGraph) (fuel : Nat) (ptr yarn : ULong)
    (data : DependencyData) : graph.waitGraphInsertOf fuel ptr yarn data =
      graph.insertDependency fuel ptr yarn data := by
  cases data with
  | token token => rfl
  | targetTime time => rfl

/-! ## The search -/

/-- One pass of the search. -/
theorem findTask_cons (h : Chain graph.readNext 0 p (t :: ts)) :
    graph.findTask yarn p (fuel + 1) =
      graph.findTask yarn (if t.2.target = yarn then p else firstNode 0 ts) fuel := by
  obtain ⟨-, hne, q, hq, hts⟩ := h
  obtain ⟨⟨item, prev, next⟩, hread, heq⟩ := Option.map_eq_some_iff.mp hq
  obtain ⟨te, hte, hitem⟩ := Option.map_eq_some_iff.mp hread
  obtain ⟨rfl, rfl⟩ := Prod.mk.inj heq
  obtain ⟨hlisted, hlinks⟩ := Prod.mk.inj hitem
  have htarget : te.target = t.2.target := congrArg ListedTask.target hlisted
  have hnext : te.next = firstNode 0 ts := (Prod.mk.inj hlinks).2.trans hts.eq_first
  rw [findTask, if_neg hne, hte]
  simp only [Option.bind_eq_bind, Option.bind_some, htarget, hnext]
  split
  · rfl
  · rfl

/-- Without an entry for the yarn the search comes to the end of the list. -/
theorem findTask_past (h : Chain graph.readNext 0 p ts)
    (hts : ∀ t ∈ ts, t.2.target ≠ yarn) :
    graph.findTask yarn p (ts.length + 1) = some 0 := by
  induction ts generalizing p with
  | nil =>
    rw [show p = 0 from h, findTask, if_pos rfl]
  | cons t ts ih =>
    rw [List.length_cons, findTask_cons h, if_neg (hts t List.mem_cons_self)]
    exact ih h.tail fun t' ht' => hts t' (List.mem_cons_of_mem t ht')

/-- At an entry for the yarn it stays. -/
theorem findTask_stays (h : Chain graph.readNext 0 p ts) (ht : t ∈ ts)
    (htarget : t.2.target = yarn) (fuel : Nat) : graph.findTask yarn p fuel = none := by
  induction fuel generalizing p ts with
  | zero => rfl
  | succ fuel ih =>
    cases ts with
    | nil => cases ht
    | cons x ts =>
      rw [findTask_cons h]
      by_cases hx : x.2.target = yarn
      · rw [if_pos hx]
        exact ih h ht
      · rw [if_neg hx]
        refine ih h.tail ((List.mem_cons.mp ht).resolve_left fun htx => ?_)
        exact hx (htx ▸ htarget)

theorem registersExactly_iff (h : graph.TaskChain ts) (ptr yarn : ULong) (data : DependencyData) :
    RegistersExactly graph ts ptr yarn data ↔ ∀ t ∈ ts, t.2.target ≠ yarn := by
  constructor
  · rintro ⟨fuel, hinsert⟩ t ht htarget
    rw [waitGraphInsertOf_eq, insertDependency, findTask_stays h ht htarget] at hinsert
    cases hinsert
  · intro hts
    have hfind : (ts.find? fun t => t.2.target = yarn) = none :=
      List.find?_eq_none.mpr fun t ht => by simpa using hts t ht
    refine ⟨ts.length + 1, ?_⟩
    rw [waitGraphInsertOf_eq, insertDependency, findTask_past h hts, registered, hfind]
    rfl

/-- The only entry is one for the yarn, and the search does not leave it. -/
theorem onlyEntry_not_registersExactly : ¬ ∀ graph ts ptr yarn data, TaskChain graph ts →
    RegistersExactly graph ts ptr yarn data := by
  intro h
  have hchain : (waitingFor [1]).TaskChain [(4096, ⟨7, 1⟩)] := ⟨rfl, by decide, 0, rfl, rfl⟩
  obtain ⟨fuel, hinsert⟩ := h _ _ 32 7 (.token 2) hchain
  have hspin := findTask_stays hchain List.mem_cons_self rfl fuel
  rw [waitGraphInsertOf_eq, insertDependency, hspin] at hinsert
  cases hinsert

end WaitGraph

/-! ## Suspending on tokens -/

/-- The wait graph and its lock. -/
structure LockedGraph where
  graph : WaitGraph
  lock : ULong

namespace LockedGraph

open WaitGraph

variable (wg : LockedGraph)

/-- `lock_lock` returns when the word is 0. -/
def waitGraphLock : Option LockedGraph :=
  if wg.lock = 0 then some { wg with lock := 1 } else none

def waitGraphUnlock : LockedGraph := { wg with lock := 0 }

/-- What `yarn_suspend_on_tokens` and `yarn_suspend_on_time` do before they call `suspend`;
they differ in the dependencies. -/
def register (fuel : Nat) (currentYarn : ULong) (ptr : NodePtr)
    (deps : List (DependencyData × NodePtr)) : Option LockedGraph := do
  let wg ← wg.waitGraphLock
  let graph ← wg.graph.waitGraphInsert ptr currentYarn
  let graph ← graph.insertAll fuel currentYarn deps
  some { wg with graph }.waitGraphUnlock

def yarnSuspendOnTokens (fuel : Nat) (currentYarn : ULong) (ptr : NodePtr)
    (tokens : List (ULong × NodePtr)) : Option LockedGraph :=
  wg.register fuel currentYarn ptr (tokens.map fun t => (.token t.1, t.2))

/-- What is wanted: the call returns with the lock released, and the entry of the caller
counts the tokens. -/
def SuspendsExactly (currentYarn : ULong) (ptr : NodePtr) (tokens : List (ULong × NodePtr)) :
    Prop :=
  ∃ fuel wg', wg.yarnSuspendOnTokens fuel currentYarn ptr tokens = some wg' ∧ wg'.lock = 0 ∧
    ∃ te, wg'.graph.tasks ptr = some te ∧ te.target = currentYarn ∧
      te.ndeps.toNat = tokens.length

variable {wg : LockedGraph} {ts : ListedTasks} {currentYarn : ULong} {ptr : NodePtr}
  {tokens : List (ULong × NodePtr)}

/-- The call is one step of the graph under the lock. -/
theorem register_eq (hlock : wg.lock = 0) (fuel : Nat) (deps : List (DependencyData × NodePtr)) :
    wg.register fuel currentYarn ptr deps =
      (wg.graph.step fuel (.register currentYarn ptr deps)).map fun graph =>
        { graph, lock := 0 } := by
  simp only [register, waitGraphLock, if_pos hlock, WaitGraph.step, Option.bind_eq_bind,
    Option.bind_some]
  cases wg.graph.waitGraphInsert ptr currentYarn with
  | none => rfl
  | some graph =>
    simp only [Option.bind_some]
    cases graph.insertAll fuel currentYarn deps with
    | none => rfl
    | some graph' => rfl

/-- With a dependency it does not return, and holds the lock. -/
theorem register_never {deps : List (DependencyData × NodePtr)} (hlock : wg.lock = 0)
    (hdeps : deps ≠ []) (fuel : Nat) : wg.register fuel currentYarn ptr deps = none := by
  rw [register_eq hlock, register_spins hdeps]
  rfl

theorem suspendsExactly_iff (h : wg.graph.TaskChain ts) (hlock : wg.lock = 0) :
    wg.SuspendsExactly currentYarn ptr tokens ↔ tokens = [] := by
  constructor
  · rintro ⟨fuel, wg', hcall, -⟩
    by_contra hne
    have hdeps : (tokens.map fun t => (DependencyData.token t.1, t.2)) ≠ [] :=
      fun hnil => hne (List.map_eq_nil_iff.mp hnil)
    rw [yarnSuspendOnTokens, register_never hlock hdeps] at hcall
    cases hcall
  · rintro rfl
    obtain ⟨graph', hinsert⟩ := exists_waitGraphInsert h.first_live ptr.val
    obtain ⟨-, te, hte, htarget, hndeps⟩ := waitGraphInsert_front hinsert
    refine ⟨0, { graph := graph', lock := 0 }, ?_, rfl, te, hte, htarget, ?_⟩
    · rw [yarnSuspendOnTokens, register_eq hlock, WaitGraph.step, hinsert]
      rfl
    · rw [hndeps]
      rfl

/-- An insertion does what is wanted if and only if there is no entry for the yarn, and
`yarn_suspend_on_tokens` if and only if there is no token. -/
theorem registration_iff (h : wg.graph.TaskChain ts) (hlock : wg.lock = 0) (yarn : ULong) :
    (∀ ptr data, RegistersExactly wg.graph ts ptr yarn data ↔
      ∀ t ∈ ts, t.2.target ≠ yarn) ∧
    ∀ ptr tokens, wg.SuspendsExactly yarn ptr tokens ↔ tokens = [] :=
  ⟨fun ptr data => registersExactly_iff h ptr yarn data,
    fun _ _ => suspendsExactly_iff h hlock⟩

theorem registration_iff_otherYarn : (waitingFor [1]).TaskChain [(4096, ⟨7, 1⟩)] ∧
    ((∀ ptr data, RegistersExactly (waitingFor [1]) [(4096, ⟨7, 1⟩)] ptr 8 data ↔
      ∀ t ∈ [((4096 : ULong), (⟨7, 1⟩ : ListedTask))], t.2.target ≠ 8) ∧
    ∀ ptr tokens, SuspendsExactly ⟨waitingFor [1], 0⟩ 8 ptr tokens ↔ tokens = []) := by
  have hchain : (waitingFor [1]).TaskChain [(4096, ⟨7, 1⟩)] := ⟨rfl, by decide, 0, rfl, rfl⟩
  exact ⟨hchain, @registration_iff ⟨waitingFor [1], 0⟩ _ hchain rfl 8⟩

end LockedGraph

end Yarns
