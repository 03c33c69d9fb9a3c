import Mathlib.Data.List.Perm.Basic
import Yarns.Lib.WaitSweep

/-!
# What elimination does to the tasks

`dependency_eliminate` takes the task from `rv->te`, after `rv = dep->next`: it counts down
the task of the successor, and there is none to count down at the end of the list. Every
successor stays in the list, so a task that a sweep frees is one that a listed dependency
still points to. A sweep leaves a well-formed graph exactly if the tasks of the eliminated
dependencies are those of their successors (`eliminatesExactly_iff`); then the counters come
out right, and no task is freed at all.
-/

namespace Yarns

open Base

/-- What a node of the task list holds beside the links. -/
structure ListedTask where
  target : ULong
  ndeps : ULong
  deriving DecidableEq, Repr

abbrev ListedTasks := List (ULong × ListedTask)

namespace WaitGraph

def readTask (graph : WaitGraph) (p : ULong) : Option (ListedTask × ULong × ULong) :=
  (graph.tasks p).map fun te => (⟨te.target, te.ndeps⟩, te.prev, te.next)

/-- The task list of the graph, linked both ways. -/
def TaskList (graph : WaitGraph) (ts : ListedTasks) : Prop :=
  Doubly graph.readTask 0 0 graph.firstTask ts

/-- How many of the dependencies point to the task. -/
def pointing (entry : ULong) (ds : ListedDependencies) : Nat :=
  (ds.map fun d => d.2.te).count entry

/-- The graph has the tasks `ts` and the dependencies `ds`, and nothing is at null. -/
structure WellFormed (graph : WaitGraph) (ts : ListedTasks) (ds : ListedDependencies) : Prop where
  tasks_null : graph.tasks 0 = none
  dependencies_null : graph.dependencies 0 = none
  taskList : graph.TaskList ts
  dependencyList : graph.DependencyList ds
  te_mem : ∀ d ∈ ds, d.2.te ∈ ts.map Prod.fst
  ndeps_eq : ∀ t ∈ ts, t.2.ndeps.toNat = pointing t.1 ds

variable {hit : DependencyData → Bool} {graph graph' graph₁ : WaitGraph}
  {pre post rest ds : ListedDependencies} {d e : ULong × ListedDependency} {ts : ListedTasks}
  {t : ULong × ListedTask} {entry prev dep next p : ULong} {te : TaskEntry} {es : List ULong}

/-! ## Counting down -/

/-- The part of `dependency_eliminate` from `--entry->ndeps` on. -/
def countDown (graph : WaitGraph) (entry : ULong) : Option WaitGraph := do
  let graph ← graph.modifyTask entry fun te => { te with ndeps := te.ndeps - 1 }
  let te ← graph.tasks entry
  if te.ndeps = 0 then graph.taskDone entry else some graph

theorem free_none {α : Type} {f : ULong → Option α} (hp : f p = none) :
    Function.update f entry none p = none := by
  by_cases hpe : p = entry
  · rw [hpe, Function.update_self]
  · rw [Function.update_of_ne hpe, hp]

theorem modifyTask_none {f : TaskEntry → TaskEntry} (h : graph.modifyTask entry f = some graph')
    (hp : graph.tasks p = none) : graph'.tasks p = none := by
  obtain ⟨te, hte, heq⟩ := Option.bind_eq_some_iff.mp h
  obtain rfl := Option.some.inj heq
  refine (Function.update_of_ne (fun hpe => ?_) ..).trans hp
  rw [hpe, hte] at hp
  cases hp

theorem taskDone_none (h : graph.taskDone entry = some graph') (hp : graph.tasks p = none) :
    graph'.tasks p = none := by
  obtain ⟨te, -, h⟩ := Option.bind_eq_some_iff.mp h
  obtain ⟨graph₁, h₁, h⟩ := Option.bind_eq_some_iff.mp h
  obtain ⟨graph₂, h₂, h⟩ := Option.bind_eq_some_iff.mp h
  have hp₁ : graph₁.tasks p = none := by
    split at h₁
    · exact modifyTask_none h₁ hp
    · obtain rfl := Option.some.inj h₁
      exact hp
  have hp₂ : graph₂.tasks p = none := by
    split at h₂
    · exact modifyTask_none h₂ hp₁
    · obtain rfl := Option.some.inj h₂
      exact hp₁
  obtain rfl := Option.some.inj h
  exact free_none hp₂

theorem taskDone_freed (h : graph.taskDone entry = some graph') : graph'.tasks entry = none := by
  obtain ⟨te, -, h⟩ := Option.bind_eq_some_iff.mp h
  obtain ⟨graph₁, -, h⟩ := Option.bind_eq_some_iff.mp h
  obtain ⟨graph₂, -, h⟩ := Option.bind_eq_some_iff.mp h
  obtain rfl := Option.some.inj h
  exact Function.update_self ..

/-- Other dependencies in the graph. -/
def withDependencies (graph : WaitGraph) (dependencies : ULong → Option Dependency)
    (firstDependency : ULong) : WaitGraph :=
  { graph with dependencies, firstDependency }

section

variable (dependencies : ULong → Option Dependency) (first : ULong)

theorem modifyTask_with (graph : WaitGraph) (entry : ULong) (f : TaskEntry → TaskEntry) :
    (graph.withDependencies dependencies first).modifyTask entry f =
      (graph.modifyTask entry f).map fun graph => graph.withDependencies dependencies first := by
  simp only [modifyTask, withDependencies]
  cases graph.tasks entry with
  | none => rfl
  | some te => rfl

theorem bind_with {x y : Option WaitGraph} {f : WaitGraph → Option WaitGraph}
    (hx : x = y.map fun graph => graph.withDependencies dependencies first)
    (hf : ∀ graph, f (graph.withDependencies dependencies first) =
      (f graph).map fun graph => graph.withDependencies dependencies first) :
    x.bind f = (y.bind f).map fun graph => graph.withDependencies dependencies first := by
  rw [hx]
  cases y with
  | none => rfl
  | some graph => exact hf graph

theorem taskDone_with : (graph.withDependencies dependencies first).taskDone entry =
    (graph.taskDone entry).map fun graph => graph.withDependencies dependencies first := by
  have htasks : (graph.withDependencies dependencies first).tasks = graph.tasks := rfl
  simp only [taskDone, htasks, Option.bind_eq_bind]
  cases graph.tasks entry with
  | none => rfl
  | some te =>
    refine bind_with dependencies first ?_ fun graph => bind_with dependencies first ?_ fun _ => rfl
    · split
      · exact modifyTask_with _ _ { graph with resumes := graph.resumes ++ [te.target] } te.next _
      · rfl
    · split
      · exact modifyTask_with ..
      · rfl

/-- Counting down does not look at the dependencies. -/
theorem countDown_with : (graph.withDependencies dependencies first).countDown entry =
    (graph.countDown entry).map fun graph => graph.withDependencies dependencies first := by
  rw [countDown, modifyTask_with, countDown]
  cases graph.modifyTask entry _ with
  | none => rfl
  | some graph =>
    have htasks : (graph.withDependencies dependencies first).tasks = graph.tasks := rfl
    simp only [Option.map_some, Option.bind_eq_bind, Option.bind_some, htasks]
    cases graph.tasks entry with
    | none => rfl
    | some te =>
      simp only [Option.bind_some]
      split
      · exact taskDone_with ..
      · rfl

end

theorem countDown_keep (hte : graph.tasks entry = some te) (hone : te.ndeps ≠ 1) :
    graph.countDown entry = some { graph with
      tasks := Function.update graph.tasks entry (some { te with ndeps := te.ndeps - 1 }) } := by
  have hne : te.ndeps - 1 ≠ 0 := by bv_omega
  simp only [countDown, modifyTask, hte, Option.bind_eq_bind, Option.bind_some,
    Function.update_self, if_neg hne]

/-- A freed task stays freed. -/
theorem countDown_none (h : graph.countDown entry = some graph') (hp : graph.tasks p = none) :
    graph'.tasks p = none := by
  obtain ⟨graph₁, hmodify, h⟩ := Option.bind_eq_some_iff.mp h
  obtain ⟨te, hte, h⟩ := Option.bind_eq_some_iff.mp h
  have hp₁ := modifyTask_none hmodify hp
  split at h
  · exact taskDone_none h hp₁
  · obtain rfl := Option.some.inj h
    exact hp₁

/-- The last dependency of a task is gone as far as the counter says. -/
theorem countDown_freed (h : graph.countDown entry = some graph')
    (hte : graph.tasks entry = some te) (hone : te.ndeps = 1) : graph'.tasks entry = none := by
  have hzero : te.ndeps - 1 = 0 := by bv_omega
  simp only [countDown, modifyTask, hte, Option.bind_eq_bind, Option.bind_some,
    Function.update_self, if_pos hzero] at h
  exact taskDone_freed h

/-! ## One elimination -/

theorem dependencyEliminate_def (dep prev : ULong) :
    graph.dependencyEliminate dep prev = (do
      let d ← graph.dependencies dep
      let graph ← graph.relink prev d.next
      let successor ← graph.dependencies d.next
      let graph ← graph.countDown successor.te
      some ({ graph with dependencies := Function.update graph.dependencies dep none },
        d.next)) := by
  simp only [dependencyEliminate, countDown, relink, Option.bind_eq_bind, Option.bind_assoc]

/-- The dependency is unlinked and freed, and nothing comes to life. -/
theorem dependencyEliminate_inv (h : graph.DependencyList (pre ++ d :: post))
    (he : graph.dependencyEliminate d.1 (lastNode 0 pre) = some (graph', next)) :
    next = firstNode 0 post ∧ graph'.DependencyList (pre ++ post) ∧
      (∀ p, graph.dependencies p = none → graph'.dependencies p = none) ∧
      ∀ p, graph.tasks p = none → graph'.tasks p = none := by
  obtain ⟨-, hread⟩ := h.read
  obtain ⟨dependencies, first, hrelink, -, hnone, hlist⟩ := relink_spec h
  rw [dependencyEliminate_def, hread] at he
  simp only [Option.bind_eq_bind, Option.bind_some, hrelink] at he
  obtain ⟨successor, -, he⟩ := Option.bind_eq_some_iff.mp he
  obtain ⟨graph₁, hcount, he⟩ := Option.bind_eq_some_iff.mp he
  obtain ⟨graph₀, hgraph₀, rfl⟩ :=
    Option.map_eq_some_iff.mp ((countDown_with dependencies first).symm.trans hcount)
  obtain ⟨rfl, rfl⟩ := Prod.mk.inj (Option.some.inj he)
  have htasks : ∀ p, graph.tasks p = none → graph₀.tasks p = none :=
    fun p hp => countDown_none hgraph₀ hp
  exact ⟨rfl, hlist, fun p hp => free_none (hnone p hp), htasks⟩

theorem dependencyEliminate_unlinks : Unlinks fun graph => graph.dependencyEliminate := by
  intro graph pre d post graph' next h he
  obtain ⟨hnext, hlist, -⟩ := dependencyEliminate_inv h he
  exact ⟨hnext, hlist⟩

/-- At the end of the list there is no task to count down. -/
theorem dependencyEliminate_last (h : graph.DependencyList (pre ++ [d]))
    (h0 : graph.dependencies 0 = none) :
    graph.dependencyEliminate d.1 (lastNode 0 pre) = none := by
  obtain ⟨-, hread⟩ := h.read
  obtain ⟨dependencies, first, hrelink, -, hnone, -⟩ := relink_spec h
  rw [dependencyEliminate_def, hread]
  simp only [Option.bind_eq_bind, Option.bind_some, hrelink]
  rw [firstNode_nil, hnone 0 h0, Option.bind_none]

/-- Before the end it is the task of the successor. -/
theorem dependencyEliminate_eq (h : graph.DependencyList (pre ++ d :: e :: post)) :
    ∃ dependencies first, graph.dependencyEliminate d.1 (lastNode 0 pre) =
      (graph.countDown e.2.te).map fun graph =>
        (graph.withDependencies dependencies first, e.1) := by
  obtain ⟨-, hread⟩ := h.read
  obtain ⟨-, hread'⟩ := (List.append_cons pre d (e :: post) ▸ h :
    graph.DependencyList (pre ++ [d] ++ e :: post)).read
  obtain ⟨dependencies, first, hrelink, hpost, -⟩ := relink_spec h
  refine ⟨Function.update dependencies d.1 none, first, ?_⟩
  rw [dependencyEliminate_def, hread]
  simp only [Option.bind_eq_bind, Option.bind_some, hrelink]
  rw [firstNode_cons, (hpost e List.mem_cons_self).trans hread', Option.bind_some]
  have hcount : ({ graph with dependencies, firstDependency := first } : WaitGraph).countDown
      e.2.te = _ := countDown_with dependencies first
  rw [hcount]
  cases hg : graph.countDown e.2.te with
  | none => rfl
  | some graph' => rfl

/-! ## The counters over a sweep -/

/-- The tasks that `es` counts down, each as often as it occurs there. -/
def countedDown (es : List ULong) (ts : ListedTasks) : ListedTasks :=
  ts.map fun t => (t.1, { t.2 with ndeps := t.2.ndeps - BitVec.ofNat 64 (es.count t.1) })

/-- No counter reaches 0. -/
def Covers (ts : ListedTasks) (es : List ULong) : Prop :=
  ∀ t ∈ ts, es.count t.1 < t.2.ndeps.toNat

theorem countedDown_nodes (es : List ULong) (ts : ListedTasks) :
    (countedDown es ts).map Prod.fst = ts.map Prod.fst := by
  rw [countedDown, List.map_map]
  rfl

theorem toNat_counted {ndeps : ULong} {n : Nat} (h : n < ndeps.toNat) :
    (ndeps - BitVec.ofNat 64 n).toNat = ndeps.toNat - n := by
  bv_omega

theorem countedDown_nil : countedDown [] ts = ts := by
  rw [countedDown]
  simp

theorem count_cons_eq (entry p : ULong) (es : List ULong) :
    (entry :: es).count p = [entry].count p + es.count p := by
  rw [← List.singleton_append, List.count_append]

theorem countedDown_cons (entry : ULong) (es : List ULong) (ts : ListedTasks) :
    countedDown (entry :: es) ts = countedDown es (countedDown [entry] ts) := by
  rw [countedDown, countedDown, countedDown, List.map_map]
  refine List.map_congr_left fun t _ => ?_
  have hndeps : t.2.ndeps - BitVec.ofNat 64 ((entry :: es).count t.1) =
      t.2.ndeps - BitVec.ofNat 64 ([entry].count t.1) - BitVec.ofNat 64 (es.count t.1) := by
    rw [count_cons_eq]
    bv_omega
  rw [hndeps]
  rfl

theorem covers_cons : Covers ts (entry :: es) ↔
    Covers ts [entry] ∧ Covers (countedDown [entry] ts) es := by
  constructor
  · intro h
    have hone : Covers ts [entry] := by
      intro t ht
      have hlt := h t ht
      rw [count_cons_eq] at hlt
      omega
    refine ⟨hone, fun t' ht' => ?_⟩
    obtain ⟨t, ht, rfl⟩ := List.mem_map.mp ht'
    have hlt := h t ht
    rw [count_cons_eq] at hlt
    show es.count t.1 < (t.2.ndeps - BitVec.ofNat 64 ([entry].count t.1)).toNat
    rw [toNat_counted (hone t ht)]
    omega
  · intro h t ht
    have hle := h.1 t ht
    have hlt : es.count t.1 < (t.2.ndeps - BitVec.ofNat 64 ([entry].count t.1)).toNat :=
      h.2 _ (List.mem_map_of_mem ht)
    rw [toNat_counted hle] at hlt
    rw [count_cons_eq]
    omega

theorem TaskList.read (h : graph.TaskList ts) (ht : t ∈ ts) : ∃ prev next,
    graph.tasks t.1 = some ⟨t.2.target, t.2.ndeps, prev, next⟩ := by
  obtain ⟨-, q, hq⟩ := (Doubly.chain h).of_mem ht
  obtain ⟨⟨item, prev, next⟩, hread, heq⟩ := Option.map_eq_some_iff.mp hq
  obtain ⟨te, hte, hitem⟩ := Option.map_eq_some_iff.mp hread
  obtain ⟨rfl, -⟩ := Prod.mk.inj heq
  obtain ⟨hlisted, -⟩ := Prod.mk.inj hitem
  refine ⟨te.prev, te.next, hte.trans ?_⟩
  rw [← hlisted]

/-- A counter that does not reach 0 is all that changes. -/
theorem TaskList.countDown (h : graph.TaskList ts) (hentry : entry ∈ ts.map Prod.fst)
    (hcov : Covers ts [entry]) : ∃ graph', graph.countDown entry = some graph' ∧
      graph'.TaskList (countedDown [entry] ts) := by
  obtain ⟨t, ht, rfl⟩ := List.mem_map.mp hentry
  obtain ⟨prev, next, hte⟩ := h.read ht
  have hlt := hcov t ht
  rw [List.count_singleton_self] at hlt
  have hone : t.2.ndeps ≠ 1 := by
    intro hone
    rw [hone] at hlt
    exact absurd hlt (by decide)
  refine ⟨_, countDown_keep hte hone, ?_⟩
  refine Doubly.map h fun x hx links hlinks => ?_
  by_cases hxt : x.1 = t.1
  · obtain rfl := List.inj_on_of_nodup_map (Doubly.chain h).nodup hx ht hxt
    rw [readTask, hte] at hlinks
    obtain ⟨-, rfl⟩ := Prod.mk.inj (Option.some.inj hlinks)
    simp only [readTask, Function.update_self, List.count_singleton_self]
    rfl
  · have hzero : [t.1].count x.1 = 0 :=
      List.count_eq_zero_of_not_mem fun hmem => hxt (List.mem_singleton.mp hmem)
    rw [hzero, BitVec.ofNat_eq_ofNat, BitVec.sub_zero]
    simp only [readTask, Function.update_of_ne hxt]
    exact hlinks

/-- A counter that reaches 0 frees its task. -/
theorem TaskList.countDown_freed (h : graph.TaskList ts) (hcov : Covers ts [])
    (hone : ¬ Covers ts [entry]) (hcount : graph.countDown entry = some graph') :
    graph'.tasks entry = none := by
  obtain ⟨t, ht, hlt⟩ : ∃ t ∈ ts, ¬ [entry].count t.1 < t.2.ndeps.toNat := by
    simpa [Covers] using hone
  have hpos := hcov t ht
  rw [List.count_nil] at hpos
  by_cases hte : entry = t.1
  · subst hte
    rw [List.count_singleton_self] at hlt
    obtain ⟨prev, next, hread⟩ := h.read ht
    refine WaitGraph.countDown_freed hcount hread ?_
    bv_omega
  · rw [List.count_eq_zero_of_not_mem fun hmem => hte (List.mem_singleton.mp hmem).symm] at hlt
    exact absurd hpos hlt

/-- The tasks of the dependencies that a sweep eliminates. -/
def struckTasks (hit : DependencyData → Bool) (ds : ListedDependencies) : List ULong :=
  (struck (sought hit) ds).map fun s => s.1.2.te

/-- The tasks of their successors, which it counts down. -/
def countedTasks (hit : DependencyData → Bool) (ds : ListedDependencies) : List ULong :=
  (struck (sought hit) ds).filterMap fun s => s.2.map fun e => e.2.te

theorem countedTasks_of_not (h : sought hit d = false) (ds : ListedDependencies) :
    countedTasks hit (d :: ds) = countedTasks hit ds := by
  rw [countedTasks, struck_of_not h, countedTasks]

theorem countedTasks_of_hit (h : sought hit d = true) (e : ULong × ListedDependency)
    (ds : ListedDependencies) :
    countedTasks hit (d :: e :: ds) = e.2.te :: countedTasks hit ds := by
  rw [countedTasks, struck_of_hit h, countedTasks]
  rfl

/-- The dependencies point to listed tasks. -/
abbrev PointInto (ts : ListedTasks) (ds : ListedDependencies) : Prop :=
  ∀ d ∈ ds, d.2.te ∈ ts.map Prod.fst

theorem pointInto_countedDown {es : List ULong} (h : PointInto ts ds) :
    PointInto (countedDown es ts) ds := by
  intro d hd
  rw [countedDown_nodes]
  exact h d hd

abbrev SweepsTasks (hit : DependencyData → Bool) :=
  Sweeps (fun graph => graph.dependencyEliminate) hit

theorem Sweeps.still_none (h : SweepsTasks hit graph pre rest graph') :
    (∀ p, graph.dependencies p = none → graph'.dependencies p = none) ∧
      ∀ p, graph.tasks p = none → graph'.tasks p = none := by
  induction h with
  | done h => exact ⟨fun _ hp => hp, fun _ hp => hp⟩
  | keep hd h hs ih => exact ih
  | last hd h he h₁ => exact (dependencyEliminate_inv h he).2.2
  | skip hd h he h₁ hs ih =>
    obtain ⟨-, -, hdeps, htasks⟩ := dependencyEliminate_inv h he
    exact ⟨fun p hp => ih.1 p (hdeps p hp), fun p hp => ih.2 p (htasks p hp)⟩

/-- The sweep goes through where it counts down successors only, and none of them to 0. -/
theorem exists_sweepsTasks (h : graph.DependencyList (pre ++ rest)) (hts : graph.TaskList ts)
    (hte : PointInto ts rest) (hsucc : ∀ s ∈ struck (sought hit) rest, s.2.isSome)
    (hcov : Covers ts (countedTasks hit rest)) :
    ∃ graph', SweepsTasks hit graph pre rest graph' ∧
      graph'.TaskList (countedDown (countedTasks hit rest) ts) := by
  induction rest using kept.induct (sought hit) generalizing graph pre ts with
  | case1 =>
    refine ⟨graph, .done (List.append_nil pre ▸ h), ?_⟩
    rw [countedTasks, struck, List.filterMap_nil, countedDown_nil]
    exact hts
  | case2 d hd =>
    rw [struck_singleton hd] at hsucc
    exact absurd (hsucc _ List.mem_cons_self) Bool.false_ne_true
  | case3 d hd =>
    have hd' : sought hit d = false := by simpa using hd
    refine ⟨graph, .keep hd' h (.done h), ?_⟩
    rw [countedTasks_of_not hd', countedTasks, struck, List.filterMap_nil, countedDown_nil]
    exact hts
  | case4 d e post hd ih =>
    rw [struck_of_hit hd] at hsucc
    rw [countedTasks_of_hit hd, covers_cons] at hcov
    have he := hte e (by simp)
    obtain ⟨graph₁, hcount, hts₁⟩ := hts.countDown he hcov.1
    obtain ⟨dependencies, first, heliminate⟩ := dependencyEliminate_eq h
    rw [hcount, Option.map_some] at heliminate
    obtain ⟨-, h₁, -⟩ := dependencyEliminate_inv h heliminate
    have hts₂ : (graph₁.withDependencies dependencies first).TaskList (countedDown [e.2.te] ts) :=
      hts₁
    have hte₂ : PointInto (countedDown [e.2.te] ts) post :=
      pointInto_countedDown fun x hx => hte x (by simp [hx])
    obtain ⟨graph', hs, hts'⟩ := ih (List.append_cons pre e post ▸ h₁) hts₂ hte₂
      (fun s hs => hsucc s (List.mem_cons_of_mem _ hs)) hcov.2
    refine ⟨graph', .skip hd h heliminate h₁ hs, ?_⟩
    rw [countedTasks_of_hit hd, countedDown_cons]
    exact hts'
  | case5 d e post hd ih =>
    have hd' : sought hit d = false := by simpa using hd
    rw [struck_of_not hd'] at hsucc
    rw [countedTasks_of_not hd'] at hcov ⊢
    obtain ⟨graph', hs, hts'⟩ := ih (List.append_cons pre d (e :: post) ▸ h) hts
      (fun x hx => hte x (List.mem_cons_of_mem d hx)) hsucc hcov
    exact ⟨graph', .keep hd' h hs, hts'⟩

/-- A sweep that returns has eliminated no last dependency. -/
theorem Sweeps.isSome (h : SweepsTasks hit graph pre rest graph')
    (h0 : graph.dependencies 0 = none) : ∀ s ∈ struck (sought hit) rest, s.2.isSome := by
  induction h with
  | done h =>
    intro s hs
    cases hs
  | keep hd h hs ih =>
    rw [struck_of_not hd]
    exact ih h0
  | last hd h he h₁ =>
    rw [dependencyEliminate_last h h0] at he
    cases he
  | skip hd h he h₁ hs ih =>
    rw [struck_of_hit hd]
    obtain ⟨-, -, hdeps, -⟩ := dependencyEliminate_inv h he
    intro s hs
    rcases List.mem_cons.mp hs with rfl | hs
    · rfl
    · exact ih (hdeps 0 h0) s hs

/-- Where it has counted down to 0, it has freed a task of a dependency that it passed over. -/
theorem Sweeps.covers (h : SweepsTasks hit graph pre rest graph') (hts : graph.TaskList ts)
    (hte : PointInto ts rest) (hcov : Covers ts []) : Covers ts (countedTasks hit rest) ∨
      ∃ entry ∈ countedTasks hit rest, graph'.tasks entry = none := by
  induction h generalizing ts with
  | done h => exact .inl hcov
  | keep hd h hs ih =>
    rw [countedTasks_of_not hd]
    exact ih hts (fun x hx => hte x (List.mem_cons_of_mem _ hx)) hcov
  | last hd h he h₁ =>
    rw [countedTasks, struck_singleton hd]
    exact .inl hcov
  | @skip graph pre d e post graph₁ next graph' hd h he h₁ hs ih =>
    rw [countedTasks_of_hit hd]
    have hmem := hte e (by simp)
    obtain ⟨dependencies, first, heliminate⟩ := dependencyEliminate_eq h
    rw [heliminate] at he
    obtain ⟨graph₂, hcount, heq⟩ := Option.map_eq_some_iff.mp he
    obtain ⟨rfl, rfl⟩ := Prod.mk.inj heq
    by_cases hone : Covers ts [e.2.te]
    · obtain ⟨graph₃, hcount', hts₃⟩ := hts.countDown hmem hone
      obtain rfl := Option.some.inj (hcount.symm.trans hcount')
      have hte' : PointInto (countedDown [e.2.te] ts) post :=
        pointInto_countedDown fun x hx => hte x (by simp [hx])
      rcases ih hts₃ hte' (covers_cons.mp hone).2 with hcov' | ⟨entry, hentry, hfreed⟩
      · exact .inl (covers_cons.mpr ⟨hone, hcov'⟩)
      · exact .inr ⟨entry, List.mem_cons_of_mem _ hentry, hfreed⟩
    · have hfreed := hts.countDown_freed hcov hone hcount
      exact .inr ⟨e.2.te, List.mem_cons_self, hs.still_none.2 _ hfreed⟩

/-! ## Sweeps of a well-formed graph -/

/-- The tasks of the eliminated dependencies are those of their successors, each as often. -/
def Balanced (hit : DependencyData → Bool) (ds : ListedDependencies) : Prop :=
  (struckTasks hit ds).Perm (countedTasks hit ds)

instance (hit : DependencyData → Bool) (ds : ListedDependencies) : Decidable (Balanced hit ds) :=
  inferInstanceAs (Decidable ((struckTasks hit ds).Perm (countedTasks hit ds)))

theorem pointing_eq (hit : DependencyData → Bool) (entry : ULong) (ds : ListedDependencies) :
    pointing entry ds =
      pointing entry (kept (sought hit) ds) + (struckTasks hit ds).count entry := by
  have hperm := (perm_kept_struck (sought hit) ds).map fun d => d.2.te
  rw [pointing, hperm.count_eq, List.map_append, List.count_append, List.map_map]
  rfl

theorem kept_subset : kept (sought hit) ds ⊆ ds := fun _ hd =>
  (perm_kept_struck (sought hit) ds).mem_iff.mpr (List.mem_append_left _ hd)

theorem struckTasks_subset : ∀ entry ∈ struckTasks hit ds, ∃ d ∈ ds, d.2.te = entry := by
  intro entry hentry
  obtain ⟨s, hs, rfl⟩ := List.mem_map.mp hentry
  refine ⟨s.1, (perm_kept_struck (sought hit) ds).mem_iff.mpr ?_, rfl⟩
  exact List.mem_append_right _ (List.mem_map_of_mem hs)

/-- The successors stay in the list. -/
theorem countedTasks_subset :
    ∀ entry ∈ countedTasks hit ds, ∃ d ∈ kept (sought hit) ds, d.2.te = entry := by
  intro entry hentry
  obtain ⟨⟨d, succ⟩, hs, hsucc⟩ := List.mem_filterMap.mp hentry
  obtain ⟨e, rfl, rfl⟩ := Option.map_eq_some_iff.mp hsucc
  exact ⟨e, mem_kept_of_struck hs, rfl⟩

theorem pointing_pos (h : ∃ d ∈ ds, d.2.te = entry) : 0 < pointing entry ds := by
  obtain ⟨d, hd, rfl⟩ := h
  exact List.count_pos_iff.mpr (List.mem_map_of_mem hd)

theorem Balanced.isSome (h : Balanced hit ds) : ∀ s ∈ struck (sought hit) ds, s.2.isSome := by
  have hlength := h.length_eq.symm
  rw [countedTasks, struckTasks, List.length_map] at hlength
  intro s hs
  have hsome := List.filterMap_length_eq_length.mp hlength s hs
  rwa [Option.isSome_map] at hsome

theorem toNat_pos_of_ne {ndeps : ULong} (h : ndeps ≠ 0) : 0 < ndeps.toNat := by
  bv_omega

/-- A counted task keeps a dependency, so its counter does not reach 0. -/
theorem Balanced.covers (h : Balanced hit ds) (hndeps : ∀ t ∈ ts, t.2.ndeps.toNat = pointing t.1 ds)
    (hpos : ∀ t ∈ ts, t.2.ndeps ≠ 0) : Covers ts (countedTasks hit ds) := by
  intro t ht
  have hsplit := pointing_eq hit t.1 ds
  rw [← hndeps t ht, h.count_eq] at hsplit
  by_cases hmem : t.1 ∈ countedTasks hit ds
  · have := pointing_pos (countedTasks_subset t.1 hmem)
    omega
  · rw [List.count_eq_zero_of_not_mem hmem]
    exact toNat_pos_of_ne (hpos t ht)

/-- The counters are right after a balanced sweep. -/
theorem Balanced.ndeps_eq (hbalanced : Balanced hit ds) (h : graph.WellFormed ts ds)
    (hpos : ∀ t ∈ ts, t.2.ndeps ≠ 0) (ht : t ∈ ts) :
    (t.2.ndeps - BitVec.ofNat 64 ((countedTasks hit ds).count t.1)).toNat =
      pointing t.1 (kept (sought hit) ds) := by
  rw [toNat_counted (hbalanced.covers h.ndeps_eq hpos t ht), h.ndeps_eq t ht, pointing_eq hit,
    hbalanced.count_eq]
  omega

/-- Each task keeps a dependency. -/
theorem Balanced.pointing_ne_zero (hbalanced : Balanced hit ds) (h : graph.WellFormed ts ds)
    (hpos : ∀ t ∈ ts, t.2.ndeps ≠ 0) (ht : t ∈ ts) :
    pointing t.1 (kept (sought hit) ds) ≠ 0 := by
  have hlt := hbalanced.covers h.ndeps_eq hpos t ht
  have heq := hbalanced.ndeps_eq h hpos ht
  rw [toNat_counted hlt] at heq
  omega

theorem Balanced.sweep (hbalanced : Balanced hit ds) (h : graph.WellFormed ts ds)
    (hpos : ∀ t ∈ ts, t.2.ndeps ≠ 0) : ∃ graph', SweepsTasks hit graph [] ds graph' ∧
      graph'.WellFormed (countedDown (countedTasks hit ds) ts) (kept (sought hit) ds) := by
  have hlist : graph.DependencyList ([] ++ ds) := h.dependencyList
  obtain ⟨graph', hs, hts'⟩ := exists_sweepsTasks hlist h.taskList h.te_mem hbalanced.isSome
    (hbalanced.covers h.ndeps_eq hpos)
  refine ⟨graph', hs, hs.still_none.2 0 h.tasks_null, hs.still_none.1 0 h.dependencies_null, hts',
    hs.list, fun d hd => ?_, fun t' ht' => ?_⟩
  · rw [countedDown_nodes]
    exact h.te_mem d (kept_subset hd)
  · obtain ⟨t, ht, rfl⟩ := List.mem_map.mp ht'
    exact hbalanced.ndeps_eq h hpos ht

/-- A sweep that leaves a well-formed graph is balanced: it has freed no task, as the
dependency passed over would point to it, and so the counters tell the balance. -/
theorem balanced_of_sweep {ts' : ListedTasks} {ds' : ListedDependencies}
    (h : graph.WellFormed ts ds) (hpos : ∀ t ∈ ts, t.2.ndeps ≠ 0)
    (hs : SweepsTasks hit graph [] ds graph') (h' : graph'.WellFormed ts' ds') :
    Balanced hit ds := by
  have hlist : graph.DependencyList ([] ++ ds) := h.dependencyList
  obtain rfl : kept (sought hit) ds = ds' := hs.list.unique h'.dependencyList
  rcases hs.covers h.taskList h.te_mem fun t ht => toNat_pos_of_ne (hpos t ht) with hcov | hfreed
  · obtain ⟨graph'', hs'', hts''⟩ := exists_sweepsTasks hlist h.taskList h.te_mem
      (hs.isSome h.dependencies_null) hcov
    obtain rfl := hs.unique dependencyEliminate_unlinks hs''
    obtain rfl := (Doubly.chain h'.taskList).unique (Doubly.chain hts'')
    refine List.perm_iff_count.mpr fun entry => ?_
    by_cases hmem : entry ∈ ts.map Prod.fst
    · obtain ⟨t, ht, rfl⟩ := List.mem_map.mp hmem
      have hcount : (t.2.ndeps - BitVec.ofNat 64 ((countedTasks hit ds).count t.1)).toNat =
          pointing t.1 (kept (sought hit) ds) := h'.ndeps_eq _ (List.mem_map_of_mem ht)
      have hlt := hcov t ht
      rw [toNat_counted hlt] at hcount
      rw [h.ndeps_eq t ht, pointing_eq hit t.1 ds] at hcount hlt
      omega
    · have hstruck : entry ∉ struckTasks hit ds := fun hentry => by
        obtain ⟨d, hd, rfl⟩ := struckTasks_subset entry hentry
        exact hmem (h.te_mem d hd)
      have hcounted : entry ∉ countedTasks hit ds := fun hentry => by
        obtain ⟨d, hd, rfl⟩ := countedTasks_subset entry hentry
        exact hmem (h.te_mem d (kept_subset hd))
      rw [List.count_eq_zero_of_not_mem hstruck, List.count_eq_zero_of_not_mem hcounted]
  · obtain ⟨entry, hentry, hnone⟩ := hfreed
    obtain ⟨d, hd, rfl⟩ := countedTasks_subset entry hentry
    obtain ⟨t, ht, hte⟩ := List.mem_map.mp (h'.te_mem d hd)
    obtain ⟨prev, next, hread⟩ := h'.taskList.read ht
    rw [hte, hnone] at hread
    cases hread

/-- What is wanted of a sweep: it returns, the graph is well formed, and the tasks that have
no dependency left, and no others, are unlinked and freed. -/
def EliminatesExactly (graph : WaitGraph) (ts : ListedTasks) (op : SweepOp) : Prop :=
  ∃ fuel graph' ts' ds',
    graph.runSweep (fun graph => graph.dependencyEliminate) op fuel = some graph' ∧
    graph'.WellFormed ts' ds' ∧
    (ts'.map fun t => (t.1, t.2.target)) =
      (ts.filter fun t => pointing t.1 ds' ≠ 0).map (fun t => (t.1, t.2.target)) ∧
    ∀ t ∈ ts, pointing t.1 ds' = 0 → graph'.tasks t.1 = none

/-- A sweep of a well-formed graph does what is wanted if and only if the eliminated
dependencies and their successors have the same tasks. -/
theorem eliminatesExactly_iff (h : graph.WellFormed ts ds) (hpos : ∀ t ∈ ts, t.2.ndeps ≠ 0)
    (op : SweepOp) : EliminatesExactly graph ts op ↔ Balanced op.hit ds := by
  constructor
  · rintro ⟨fuel, graph', ts', ds', hrun, h', -⟩
    have hs := runSweep_sweeps dependencyEliminate_unlinks h.dependencyList hrun
    exact balanced_of_sweep h hpos hs h'
  · intro hbalanced
    obtain ⟨graph', hs, h'⟩ := hbalanced.sweep h hpos
    have hleft : ∀ t ∈ ts, pointing t.1 (kept (sought op.hit) ds) ≠ 0 :=
      fun t ht => hbalanced.pointing_ne_zero h hpos ht
    refine ⟨_, graph', _, _, hs.runSweep dependencyEliminate_unlinks h.dependencyList, h', ?_,
      fun t ht h0 => absurd h0 (hleft t ht)⟩
    rw [List.filter_eq_self.mpr fun t ht => decide_eq_true (hleft t ht), countedDown, List.map_map]
    rfl

theorem waitingFor_two_wellFormed (s t : ULong) : (waitingFor [s, t]).WellFormed
    [(4096, ⟨7, 2⟩)] [(16, ⟨4096, .token s⟩), (32, ⟨4096, .token t⟩)] where
  tasks_null := rfl
  dependencies_null := rfl
  taskList := ⟨rfl, (by decide : (4096 : ULong) ≠ 0), 0, rfl, rfl⟩
  dependencyList := waitingFor_two s t
  te_mem := by simp
  ndeps_eq := List.forall_mem_singleton.mpr rfl

theorem eliminatesExactly_iff_oneOfTwo : EliminatesExactly (waitingFor [1, 2]) [(4096, ⟨7, 2⟩)]
    (.signal 1) ↔ Balanced (SweepOp.signal 1).hit
      [(16, ⟨4096, .token 1⟩), (32, ⟨4096, .token 2⟩)] :=
  eliminatesExactly_iff (waitingFor_two_wellFormed 1 2) (List.forall_mem_singleton.mpr (by decide))
    (.signal 1)

/-- The signal of the only token that a yarn waits for reads a null dependency. -/
theorem onlyDependency_not_eliminatesExactly : ¬ ∀ graph ts ds op, WellFormed graph ts ds →
    (∀ t ∈ ts, t.2.ndeps ≠ 0) → EliminatesExactly graph ts op := by
  intro h
  have hwell : (waitingFor [1]).WellFormed [(4096, ⟨7, 1⟩)] [(16, ⟨4096, .token 1⟩)] :=
    { tasks_null := rfl
      dependencies_null := rfl
      taskList := ⟨rfl, by decide, 0, rfl, rfl⟩
      dependencyList := ⟨rfl, by decide, 0, rfl, rfl⟩
      te_mem := by simp
      ndeps_eq := List.forall_mem_singleton.mpr rfl }
  obtain ⟨fuel, graph', ts', ds', hrun, -⟩ :=
    h _ _ _ (.signal 1) hwell (List.forall_mem_singleton.mpr (by decide))
  have hs := runSweep_sweeps dependencyEliminate_unlinks hwell.dependencyList hrun
  exact absurd (hs.isSome hwell.dependencies_null) (by decide)

end WaitGraph

end Yarns
