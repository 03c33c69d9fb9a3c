import Mathlib.Logic.Function.Basic
import Yarns.Lib.WaitSpec

/-!
# The wait graph

`lib/wait_graph.c`: task entries in a doubly linked list and dependencies in a singly
linked one, on a heap. The address that `pool_allocate` returns is an argument. Loops
have a bound on their iterations; an operation is `none` where it dereferences a null or
freed node, or does not end within the bound. `resumes` records the calls of
`yarn_resume`.
-/

namespace Yarns

structure TaskEntry where
  target : ULong
  ndeps : ULong
  prev : ULong
  next : ULong
  deriving DecidableEq, Repr

structure Dependency where
  te : ULong
  data : DependencyData
  next : ULong
  deriving DecidableEq, Repr

structure WaitGraph where
  tokenIndex : ULong
  tasks : ULong → Option TaskEntry
  dependencies : ULong → Option Dependency
  firstTask : ULong
  firstDependency : ULong
  resumes : List ULong

def waitGraphNew : WaitGraph where
  tokenIndex := 1
  tasks := fun _ => none
  dependencies := fun _ => none
  firstTask := 0
  firstDependency := 0
  resumes := []

namespace WaitGraph

variable (graph : WaitGraph)

def modifyTask (entry : ULong) (f : TaskEntry → TaskEntry) : Option WaitGraph := do
  let te ← graph.tasks entry
  some { graph with tasks := Function.update graph.tasks entry (some (f te)) }

def modifyDependency (dep : ULong) (f : Dependency → Dependency) : Option WaitGraph := do
  let d ← graph.dependencies dep
  some { graph with dependencies := Function.update graph.dependencies dep (some (f d)) }

/-- The part of `dependency_eliminate` that runs when `ndeps` has become 0. -/
def taskDone (entry : ULong) : Option WaitGraph := do
  let te ← graph.tasks entry
  let graph := { graph with resumes := graph.resumes ++ [te.target] }
  let graph ←
    (if te.next ≠ 0 then graph.modifyTask te.next fun n => { n with prev := te.prev }
      else some graph)
  let graph ←
    (if te.prev ≠ 0 then graph.modifyTask te.prev fun p => { p with next := te.next }
      else some { graph with firstTask := entry })
  some { graph with tasks := Function.update graph.tasks entry none }

/-- Unlink `dep`, count down, and return the successor. The entry counted down is that of
the successor. -/
def dependencyEliminate (dep prev : ULong) : Option (WaitGraph × ULong) := do
  let d ← graph.dependencies dep
  let rv := d.next
  let graph ←
    (if prev ≠ 0 then graph.modifyDependency prev fun p => { p with next := rv }
      else some { graph with firstDependency := rv })
  let successor ← graph.dependencies rv
  let entry := successor.te
  let graph ← graph.modifyTask entry fun te => { te with ndeps := te.ndeps - 1 }
  let te ← graph.tasks entry
  let graph ← (if te.ndeps = 0 then graph.taskDone entry else some graph)
  some ({ graph with dependencies := Function.update graph.dependencies dep none }, rv)

/-- The loop of `wait_graph_signal` and of `wait_graph_time_process`, which differ in the
dependencies they look for. -/
def sweep (hit : DependencyData → Bool) (graph : WaitGraph) (prev dep : ULong) :
    Nat → Option WaitGraph
  | 0 => none
  | fuel + 1 =>
    if dep = 0 then some graph else do
      let d ← graph.dependencies dep
      let (graph, dep) ←
        (if hit d.data then graph.dependencyEliminate dep prev else some (graph, dep))
      if dep = 0 then some graph else do
        let d ← graph.dependencies dep
        sweep hit graph dep d.next fuel

def waitGraphSignal (fuel : Nat) (token : ULong) : Option WaitGraph :=
  sweep (DependencyData.signalled token) graph 0 graph.firstDependency fuel

def waitGraphTimeProcess (fuel : Nat) (time : ULong) : Option WaitGraph :=
  sweep (DependencyData.due time) graph 0 graph.firstDependency fuel

def waitGraphNextToken : WaitGraph × ULong :=
  ({ graph with tokenIndex := graph.tokenIndex + 1 }, graph.tokenIndex)

def waitGraphInsert (ptr yarn : ULong) : Option WaitGraph := do
  let entry : TaskEntry := ⟨yarn, 0, 0, graph.firstTask⟩
  let graph := { graph with tasks := Function.update graph.tasks ptr (some entry) }
  let graph ←
    (if graph.firstTask ≠ 0 then graph.modifyTask graph.firstTask fun te => { te with prev := ptr }
      else some graph)
  some { graph with firstTask := ptr }

/-- The search of `wait_graph_insert_token` and `wait_graph_insert_time`: `continue` where
the entry is found leaves `entry` as it is. -/
def findTask (yarn entry : ULong) : Nat → Option ULong
  | 0 => none
  | fuel + 1 =>
    if entry = 0 then some 0 else do
      let te ← graph.tasks entry
      if te.target = yarn then findTask yarn entry fuel else findTask yarn te.next fuel

/-- What the two insertions share; `data` is the only difference. -/
def insertDependency (fuel : Nat) (ptr yarn : ULong) (data : DependencyData) :
    Option WaitGraph := do
  let entry ← graph.findTask yarn graph.firstTask fuel
  if entry = 0 then some graph else do
    let dep : Dependency := ⟨entry, data, graph.firstDependency⟩
    let graph :=
      { graph with dependencies := Function.update graph.dependencies ptr (some dep) }
    let graph ← graph.modifyTask entry fun te => { te with ndeps := te.ndeps + 1 }
    some { graph with firstDependency := ptr }

def waitGraphInsertToken (fuel : Nat) (ptr yarn token : ULong) : Option WaitGraph :=
  graph.insertDependency fuel ptr yarn (.token token)

def waitGraphInsertTime (fuel : Nat) (ptr yarn time : ULong) : Option WaitGraph :=
  graph.insertDependency fuel ptr yarn (.targetTime time)

end WaitGraph

end Yarns
