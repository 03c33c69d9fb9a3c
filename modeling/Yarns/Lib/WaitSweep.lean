import Mathlib.Data.List.Chain
import Yarns.Base.Chain
import Yarns.Lib.WaitGraph

/-!
# The sweep over the dependencies

`wait_graph_signal` and `wait_graph_time_process` go through the dependency list and call
`dependency_eliminate` for each one they look for. The loop is taken here with any function
that unlinks the given dependency and returns its successor (`Unlinks`). It goes on behind
the successor without looking at it, so it keeps every dependency that follows an eliminated
one (`kept`, `Sweeps.list`), and the sweep is complete exactly if no two neighbours in
the list are both looked for (`sweepComplete_iff`).
-/

namespace Yarns

open Base

/-- What a node of the dependency list holds beside the link. -/
structure ListedDependency where
  te : ULong
  data : DependencyData
  deriving DecidableEq, Repr

abbrev ListedDependencies := List (ULong × ListedDependency)

/-- The calls that sweep. -/
inductive SweepOp where
  | signal (token : ULong)
  | timeProcess (time : ULong)

/-- The dependencies that the call looks for. -/
def SweepOp.hit : SweepOp → DependencyData → Bool
  | .signal token => DependencyData.signalled token
  | .timeProcess time => DependencyData.due time

namespace WaitGraph

/-- `dependency_eliminate`: the graph, the dependency and its predecessor, to the graph and
the successor. -/
abbrev Eliminate := WaitGraph → ULong → ULong → Option (WaitGraph × ULong)

def readDependency (graph : WaitGraph) (p : ULong) : Option (ListedDependency × ULong) :=
  (graph.dependencies p).map fun d => (⟨d.te, d.data⟩, d.next)

/-- The dependency list of the graph. -/
def DependencyList (graph : WaitGraph) (ds : ListedDependencies) : Prop :=
  Chain graph.readDependency 0 graph.firstDependency ds

/-! ## The loop -/

/-- One pass through the body, for a `dep` that is not null: the graph, and `prev` and
`dep` for the next pass unless the body returns. -/
def sweepBody (eliminate : Eliminate) (hit : DependencyData → Bool) (graph : WaitGraph)
    (prev dep : ULong) : Option (WaitGraph × Option (ULong × ULong)) := do
  let d ← graph.dependencies dep
  let (graph, dep) ← (if hit d.data then eliminate graph dep prev else some (graph, dep))
  if dep = 0 then some (graph, none) else do
    let d ← graph.dependencies dep
    some (graph, some (dep, d.next))

def sweepWith (eliminate : Eliminate) (hit : DependencyData → Bool) (graph : WaitGraph)
    (prev dep : ULong) : Nat → Option WaitGraph
  | 0 => none
  | fuel + 1 =>
    if dep = 0 then some graph else
      match sweepBody eliminate hit graph prev dep with
      | some (graph, some (prev, dep)) => sweepWith eliminate hit graph prev dep fuel
      | some (graph, none) => some graph
      | none => none

/-- The graph, `prev` and `dep` at the head of the loop, for every pass. -/
def sweepHeads (eliminate : Eliminate) (hit : DependencyData → Bool) (graph : WaitGraph)
    (prev dep : ULong) : Nat → List (WaitGraph × ULong × ULong)
  | 0 => []
  | fuel + 1 =>
    if dep = 0 then [] else
      (graph, prev, dep) :: match sweepBody eliminate hit graph prev dep with
        | some (graph, some (prev, dep)) => sweepHeads eliminate hit graph prev dep fuel
        | _ => []

/-- The loop of the code is the one with `dependency_eliminate`. -/
theorem sweep_eq_sweepWith (hit : DependencyData → Bool) (graph : WaitGraph) (prev dep : ULong)
    (fuel : Nat) : graph.sweep hit prev dep fuel =
      graph.sweepWith (fun graph => graph.dependencyEliminate) hit prev dep fuel := by
  induction fuel generalizing graph prev dep with
  | zero => rfl
  | succ fuel ih =>
    rw [sweep, sweepWith, sweepBody]
    split
    · rfl
    · cases graph.dependencies dep with
      | none => rfl
      | some d =>
        simp only [Option.bind_eq_bind, Option.bind_some]
        cases (if hit d.data = true then graph.dependencyEliminate dep prev
            else some (graph, dep)) with
        | none => rfl
        | some r =>
          obtain ⟨graph', dep'⟩ := r
          simp only [Option.bind_some]
          split
          · rfl
          · cases graph'.dependencies dep' with
            | none => rfl
            | some d' => exact ih graph' dep' d'.next

/-! ## What the loop keeps -/

section

variable {α : Type} (hit : α → Bool)

/-- What is left of a list when those that are looked for go, and the one behind each of
them is passed over. -/
def kept : List α → List α
  | [] => []
  | [d] => if hit d then [] else [d]
  | d :: e :: ds => if hit d then e :: kept ds else d :: kept (e :: ds)

/-- Those that go, each with the one behind it. -/
def struck : List α → List (α × Option α)
  | [] => []
  | [d] => if hit d then [(d, none)] else []
  | d :: e :: ds => if hit d then (d, some e) :: struck ds else struck (e :: ds)

variable {hit} {l : List α} {d e : α}

theorem kept_of_not (h : hit d = false) (l : List α) : kept hit (d :: l) = d :: kept hit l := by
  cases l with
  | nil => simp [kept, h]
  | cons e l => simp [kept, h]

theorem kept_of_hit (h : hit d = true) (e : α) (l : List α) :
    kept hit (d :: e :: l) = e :: kept hit l := by
  rw [kept, if_pos h]

theorem kept_singleton (h : hit d = true) : kept hit [d] = [] := by
  rw [kept, if_pos h]

theorem struck_of_not (h : hit d = false) (l : List α) : struck hit (d :: l) = struck hit l := by
  cases l with
  | nil => simp [struck, h]
  | cons e l => simp [struck, h]

theorem struck_of_hit (h : hit d = true) (e : α) (l : List α) :
    struck hit (d :: e :: l) = (d, some e) :: struck hit l := by
  rw [struck, if_pos h]

theorem struck_singleton (h : hit d = true) : struck hit [d] = [(d, none)] := by
  rw [struck, if_pos h]

/-- A list is what is kept of it and what goes. -/
theorem perm_kept_struck (hit : α → Bool) (l : List α) :
    l.Perm (kept hit l ++ (struck hit l).map Prod.fst) := by
  induction l using kept.induct hit with
  | case1 => exact .refl _
  | case2 d h =>
    rw [kept_singleton h, struck_singleton h]
    exact .refl _
  | case3 d h =>
    have hd : hit d = false := by simpa using h
    rw [kept_of_not hd, struck_of_not hd]
    exact .refl _
  | case4 d e l h ih =>
    rw [kept_of_hit h, struck_of_hit h, List.map_cons]
    refine .trans (.cons d (.cons e ih)) (.trans (.swap ..) (.cons e ?_))
    exact List.perm_middle.symm
  | case5 d e l h ih =>
    have hd : hit d = false := by simpa using h
    rw [kept_of_not hd, struck_of_not hd]
    exact .cons d ih

/-- The one behind one that goes is kept. -/
theorem mem_kept_of_struck (h : (d, some e) ∈ struck hit l) : e ∈ kept hit l := by
  induction l using kept.induct hit with
  | case1 => cases h
  | case2 x hx =>
    rw [struck_singleton hx] at h
    cases List.mem_singleton.mp h
  | case3 x hx =>
    rw [struck_of_not (by simpa using hx)] at h
    cases h
  | case4 x y l hx ih =>
    rw [struck_of_hit hx] at h
    rw [kept_of_hit hx]
    rcases List.mem_cons.mp h with heq | h
    · obtain ⟨-, hey⟩ := Prod.mk.inj heq
      rw [Option.some.inj hey]
      exact List.mem_cons_self
    · exact List.mem_cons_of_mem y (ih h)
  | case5 x y l hx ih =>
    have hx' : hit x = false := by simpa using hx
    rw [struck_of_not hx'] at h
    rw [kept_of_not hx']
    exact List.mem_cons_of_mem x (ih h)

/-- No two neighbours are both looked for. -/
def Scattered (hit : α → Bool) (l : List α) : Prop :=
  l.IsChain fun d e => ¬ (hit d = true ∧ hit e = true)

instance (hit : α → Bool) (l : List α) : Decidable (Scattered hit l) :=
  inferInstanceAs (Decidable (l.IsChain _))

theorem scattered_tail (h : Scattered hit (d :: l)) : Scattered hit l := List.IsChain.tail h

/-- Passing over is harmless where none that is looked for follows another one. -/
theorem kept_eq_filter_iff : kept hit l = l.filter (fun d => !hit d) ↔ Scattered hit l := by
  induction l using kept.induct hit with
  | case1 => simp [kept, Scattered]
  | case2 d h => simp [kept, Scattered, h]
  | case3 d h => simp [kept, Scattered, h]
  | case4 d e l h ih =>
    rw [kept_of_hit h, List.filter_cons_of_neg (by simp [h])]
    cases he : hit e with
    | true =>
      refine ⟨fun heq => ?_, fun hs => ?_⟩
      · have hmem : e ∈ (e :: l).filter fun d => !hit d := heq ▸ List.mem_cons_self
        simpa [he] using List.mem_filter.mp hmem
      · exact absurd ⟨h, he⟩ (List.isChain_cons_cons.mp hs).1
    | false =>
      rw [List.filter_cons_of_pos (by simp [he]), List.cons_inj_right, ih]
      refine ⟨fun hs => ?_, fun hs => scattered_tail (scattered_tail hs)⟩
      refine List.isChain_cons_cons.mpr ⟨fun hde => by simp [he] at hde, ?_⟩
      exact List.isChain_cons.mpr ⟨fun x _ hex => by simp [he] at hex, hs⟩
  | case5 d e l h ih =>
    have hd : hit d = false := by simpa using h
    rw [kept_of_not hd, List.filter_cons_of_pos (by simp [hd]), List.cons_inj_right, ih]
    refine ⟨fun hs => ?_, scattered_tail⟩
    exact List.isChain_cons_cons.mpr ⟨fun hde => h hde.1, hs⟩

end

/-! ## The loop over a list -/

/-- `eliminate` unlinks the dependency it is given, where it returns. -/
def Unlinks (eliminate : Eliminate) : Prop :=
  ∀ (graph : WaitGraph) pre d post graph' next, graph.DependencyList (pre ++ d :: post) →
    eliminate graph d.1 (lastNode 0 pre) = some (graph', next) →
      next = firstNode 0 post ∧ graph'.DependencyList (pre ++ post)

/-- `eliminate` returns for every dependency of a list. -/
def Returns (eliminate : Eliminate) : Prop :=
  ∀ (graph : WaitGraph) pre d post, graph.DependencyList (pre ++ d :: post) →
    (eliminate graph d.1 (lastNode 0 pre)).isSome

/-- The listed dependencies that a sweep looks for. -/
def sought (hit : DependencyData → Bool) (d : ULong × ListedDependency) : Bool := hit d.2.data

/-- The loop goes from `graph`, where `pre` is behind it and `rest` before it, to the end. -/
inductive Sweeps (eliminate : Eliminate) (hit : DependencyData → Bool) :
    WaitGraph → ListedDependencies → ListedDependencies → WaitGraph → Prop
  | done {graph pre} : graph.DependencyList pre → Sweeps eliminate hit graph pre [] graph
  | keep {graph pre d post graph'} : sought hit d = false →
    graph.DependencyList (pre ++ d :: post) → Sweeps eliminate hit graph (pre ++ [d]) post graph' →
    Sweeps eliminate hit graph pre (d :: post) graph'
  | last {graph pre d graph' next} : sought hit d = true → graph.DependencyList (pre ++ [d]) →
    eliminate graph d.1 (lastNode 0 pre) = some (graph', next) → graph'.DependencyList pre →
    Sweeps eliminate hit graph pre [d] graph'
  | skip {graph pre d e post graph₁ next graph'} : sought hit d = true →
    graph.DependencyList (pre ++ d :: e :: post) →
    eliminate graph d.1 (lastNode 0 pre) = some (graph₁, next) →
    graph₁.DependencyList (pre ++ e :: post) →
    Sweeps eliminate hit graph₁ (pre ++ [e]) post graph' →
    Sweeps eliminate hit graph pre (d :: e :: post) graph'

variable {eliminate : Eliminate} {hit : DependencyData → Bool}
  {graph graph' graph'' : WaitGraph}
  {pre post rest ds : ListedDependencies} {d e : ULong × ListedDependency} {next : ULong}
  {fuel : Nat}

theorem lastNode_append (pre : ListedDependencies) (d : ULong × ListedDependency) :
    lastNode 0 (pre ++ [d]) = d.1 :=
  lastNode_concat

theorem DependencyList.read (h : graph.DependencyList (pre ++ d :: post)) : d.1 ≠ 0 ∧
    graph.dependencies d.1 = some ⟨d.2.te, d.2.data, firstNode 0 post⟩ := by
  obtain ⟨hd, hne, next, hnext, hpost⟩ := Chain.drop h
  obtain rfl := hpost.eq_first
  obtain ⟨n, hn, heq⟩ := Option.map_eq_some_iff.mp hnext
  obtain ⟨hitem, hlink⟩ := Prod.mk.inj heq
  refine ⟨hne, hn.trans (congrArg some ?_)⟩
  rw [← hitem, ← hlink]

/-- A dependency that is not looked for: the body goes on with the next one. -/
theorem sweepBody_keep (h : graph.DependencyList (pre ++ d :: post)) (hd : sought hit d = false)
    (prev : ULong) :
    graph.sweepBody eliminate hit prev d.1 = some (graph, some (d.1, firstNode 0 post)) := by
  obtain ⟨hne, hread⟩ := h.read
  have hd' : hit d.2.data = false := hd
  simp only [sweepBody, hread, hd', Option.bind_eq_bind, Option.bind_some, Bool.false_eq_true,
    if_false, if_neg hne]

/-- The body goes on behind the successor of an eliminated dependency, if it has one. -/
theorem sweepBody_strike (hunlinks : Unlinks eliminate)
    (h : graph.DependencyList (pre ++ d :: post)) (hd : sought hit d = true)
    (he : eliminate graph d.1 (lastNode 0 pre) = some (graph', next)) :
    graph'.DependencyList (pre ++ post) ∧
      graph.sweepBody eliminate hit (lastNode 0 pre) d.1 = some (graph',
        post.head?.map fun e => (e.1, firstNode 0 post.tail)) := by
  obtain ⟨-, hread⟩ := h.read
  have hd' : hit d.2.data = true := hd
  obtain ⟨rfl, h'⟩ := hunlinks graph pre d post graph' next h he
  refine ⟨h', ?_⟩
  simp only [sweepBody, hread, hd', he, Option.bind_eq_bind, Option.bind_some, if_true]
  cases post with
  | nil => rfl
  | cons e post =>
    obtain ⟨hne, hread'⟩ := h'.read
    simp only [firstNode_cons, if_neg hne, hread', Option.bind_some]
    rfl

theorem sweepBody_fails (h : graph.DependencyList (pre ++ d :: post)) (hd : sought hit d = true)
    {prev : ULong} (he : eliminate graph d.1 prev = none) :
    graph.sweepBody eliminate hit prev d.1 = none := by
  obtain ⟨-, hread⟩ := h.read
  have hd' : hit d.2.data = true := hd
  simp only [sweepBody, hread, hd', he, Option.bind_eq_bind, Option.bind_some, if_true,
    Option.bind_none]

theorem sweepWith_sweeps (hunlinks : Unlinks eliminate) (h : graph.DependencyList (pre ++ rest))
    (hs : graph.sweepWith eliminate hit (lastNode 0 pre) (firstNode 0 rest) fuel = some graph') :
    Sweeps eliminate hit graph pre rest graph' := by
  induction fuel generalizing graph pre rest with
  | zero => cases hs
  | succ fuel ih =>
    cases rest with
    | nil =>
      obtain rfl := Option.some.inj hs
      exact .done (List.append_nil pre ▸ h)
    | cons d post =>
      rw [sweepWith, firstNode_cons, if_neg h.read.1] at hs
      cases hd : sought hit d with
      | false =>
        rw [sweepBody_keep h hd, ← lastNode_append pre d] at hs
        exact .keep hd h (ih (List.append_cons pre d post ▸ h) hs)
      | true =>
        cases he : eliminate graph d.1 (lastNode 0 pre) with
        | none =>
          rw [sweepBody_fails h hd he] at hs
          cases hs
        | some r =>
          obtain ⟨graph₁, next⟩ := r
          obtain ⟨h₁, hbody⟩ := sweepBody_strike hunlinks h hd he
          rw [hbody] at hs
          cases post with
          | nil =>
            obtain rfl := Option.some.inj hs
            exact .last hd h he (List.append_nil pre ▸ h₁)
          | cons e post =>
            refine .skip hd h he h₁ (ih (List.append_cons pre e post ▸ h₁) ?_)
            rw [lastNode_concat]
            exact hs

theorem Sweeps.sweepWith (hunlinks : Unlinks eliminate)
    (h : Sweeps eliminate hit graph pre rest graph') (hfuel : rest.length < fuel) :
    graph.sweepWith eliminate hit (lastNode 0 pre) (firstNode 0 rest) fuel = some graph' := by
  induction h generalizing fuel with
  | done h =>
    obtain ⟨fuel, rfl⟩ := Nat.exists_eq_add_of_lt hfuel
    rw [WaitGraph.sweepWith, firstNode_nil, if_pos rfl]
  | keep hd h hs ih =>
    obtain ⟨fuel, rfl⟩ := Nat.exists_eq_succ_of_ne_zero (Nat.ne_of_gt (Nat.zero_lt_of_lt hfuel))
    rw [WaitGraph.sweepWith, firstNode_cons, if_neg h.read.1, sweepBody_keep h hd]
    rw [lastNode_concat] at ih
    exact ih (Nat.lt_of_succ_lt_succ hfuel)
  | last hd h he h₁ =>
    obtain ⟨fuel, rfl⟩ := Nat.exists_eq_succ_of_ne_zero (Nat.ne_of_gt (Nat.zero_lt_of_lt hfuel))
    rw [WaitGraph.sweepWith, firstNode_cons, if_neg h.read.1, (sweepBody_strike hunlinks h hd he).2]
    rfl
  | skip hd h he h₁ hs ih =>
    obtain ⟨fuel, rfl⟩ := Nat.exists_eq_succ_of_ne_zero (Nat.ne_of_gt (Nat.zero_lt_of_lt hfuel))
    rw [WaitGraph.sweepWith, firstNode_cons, if_neg h.read.1, (sweepBody_strike hunlinks h hd he).2]
    rw [lastNode_concat] at ih
    exact ih (Nat.lt_of_succ_lt (Nat.lt_of_succ_lt_succ hfuel))

/-- The list that the loop leaves. -/
theorem Sweeps.list (h : Sweeps eliminate hit graph pre rest graph') :
    graph'.DependencyList (pre ++ kept (sought hit) rest) := by
  induction h with
  | done h =>
    rw [kept, List.append_nil]
    exact h
  | keep hd h hs ih =>
    rw [kept_of_not hd, List.append_cons]
    exact ih
  | last hd h he h₁ =>
    rw [kept_singleton hd, List.append_nil]
    exact h₁
  | skip hd h he h₁ hs ih =>
    rw [kept_of_hit hd, List.append_cons]
    exact ih

theorem Sweeps.unique (hunlinks : Unlinks eliminate)
    (h : Sweeps eliminate hit graph pre rest graph')
    (h' : Sweeps eliminate hit graph pre rest graph'') : graph' = graph'' := by
  have hrun := h.sweepWith hunlinks (Nat.lt_succ_self _)
  exact Option.some.inj (hrun.symm.trans (h'.sweepWith hunlinks (Nat.lt_succ_self _)))

theorem exists_sweeps (hunlinks : Unlinks eliminate) (hreturns : Returns eliminate)
    (h : graph.DependencyList (pre ++ rest)) :
    ∃ graph', Sweeps eliminate hit graph pre rest graph' := by
  induction rest using kept.induct (sought hit) generalizing graph pre with
  | case1 => exact ⟨graph, .done (List.append_nil pre ▸ h)⟩
  | case2 d hd =>
    obtain ⟨⟨graph', next⟩, he⟩ := Option.isSome_iff_exists.mp (hreturns graph pre d [] h)
    obtain ⟨-, h'⟩ := hunlinks graph pre d [] graph' next h he
    exact ⟨graph', .last hd h he (List.append_nil pre ▸ h')⟩
  | case3 d hd =>
    have hkeep := List.append_nil (pre ++ [d]) ▸ h
    exact ⟨graph, .keep (by simpa using hd) h (.done h)⟩
  | case4 d e post hd ih =>
    obtain ⟨⟨graph₁, next⟩, he⟩ :=
      Option.isSome_iff_exists.mp (hreturns graph pre d (e :: post) h)
    obtain ⟨-, h₁⟩ := hunlinks graph pre d (e :: post) graph₁ next h he
    obtain ⟨graph', hs⟩ := ih (List.append_cons pre e post ▸ h₁)
    exact ⟨graph', .skip hd h he h₁ hs⟩
  | case5 d e post hd ih =>
    obtain ⟨graph', hs⟩ := ih (List.append_cons pre d (e :: post) ▸ h)
    exact ⟨graph', .keep (by simpa using hd) h hs⟩

/-- At the head of a pass `prev` is the predecessor of `dep` in the list. -/
def AtPredecessor (v : WaitGraph × ULong × ULong) : Prop :=
  ∃ pre d post, v.1.DependencyList (pre ++ d :: post) ∧ v.2.1 = lastNode 0 pre ∧ v.2.2 = d.1

theorem sweepHeads_atPredecessor (hunlinks : Unlinks eliminate)
    (h : graph.DependencyList (pre ++ rest)) :
    ∀ v ∈ graph.sweepHeads eliminate hit (lastNode 0 pre) (firstNode 0 rest) fuel,
      AtPredecessor v := by
  induction fuel generalizing graph pre rest with
  | zero =>
    intro v hv
    cases hv
  | succ fuel ih =>
    cases rest with
    | nil =>
      intro v hv
      cases hv
    | cons d post =>
      intro v hv
      rw [sweepHeads, firstNode_cons, if_neg h.read.1] at hv
      rcases List.mem_cons.mp hv with rfl | hv
      · exact ⟨pre, d, post, h, rfl, rfl⟩
      · cases hd : sought hit d with
        | false =>
          rw [sweepBody_keep h hd, ← lastNode_append pre d] at hv
          exact ih (List.append_cons pre d post ▸ h) v hv
        | true =>
          cases he : eliminate graph d.1 (lastNode 0 pre) with
          | none =>
            rw [sweepBody_fails h hd he] at hv
            cases hv
          | some r =>
            obtain ⟨graph₁, next⟩ := r
            obtain ⟨h₁, hbody⟩ := sweepBody_strike hunlinks h hd he
            rw [hbody] at hv
            cases post with
            | nil => cases hv
            | cons e post =>
              refine ih (List.append_cons pre e post ▸ h₁) v ?_
              rw [lastNode_concat]
              exact hv

/-! ## Unlinking -/

/-- The predecessor, or the graph where there is none, gets the successor `rv`. -/
def relink (graph : WaitGraph) (prev rv : ULong) : Option WaitGraph :=
  if prev ≠ 0 then graph.modifyDependency prev fun p => { p with next := rv }
  else some { graph with firstDependency := rv }

/-- `dependency_eliminate` without what it does to the tasks. -/
def unlinkDependency (graph : WaitGraph) (dep prev : ULong) : Option (WaitGraph × ULong) := do
  let d ← graph.dependencies dep
  let graph ← graph.relink prev d.next
  some ({ graph with dependencies := Function.update graph.dependencies dep none }, d.next)

theorem relink_spec (h : graph.DependencyList (pre ++ d :: post)) : ∃ dependencies first,
    graph.relink (lastNode 0 pre) (firstNode 0 post) =
        some { graph with dependencies, firstDependency := first } ∧
      (∀ e ∈ post, dependencies e.1 = graph.dependencies e.1) ∧
      (∀ p, graph.dependencies p = none → dependencies p = none) ∧
      DependencyList { graph with
        dependencies := Function.update dependencies d.1 none
        firstDependency := first } (pre ++ post) := by
  have hnd := Chain.nodup h
  rw [List.map_append, List.map_cons, List.nodup_append, List.nodup_cons] at hnd
  obtain ⟨-, ⟨hdpost, -⟩, hpre⟩ := hnd
  have hne : ∀ x ∈ pre ++ post, x.1 ≠ d.1 := by
    intro x hx hxd
    rcases List.mem_append.mp hx with hx | hx
    · exact hpre x.1 (List.mem_map_of_mem hx) d.1 List.mem_cons_self hxd
    · exact hdpost (hxd ▸ List.mem_map_of_mem hx)
  rcases List.eq_nil_or_concat pre with rfl | ⟨pre, y, rfl⟩
  · refine ⟨graph.dependencies, firstNode 0 post, if_neg (not_not_intro rfl), fun _ _ => rfl,
      fun _ hp => hp, ?_⟩
    refine Chain.unlink h (if_pos rfl).symm (fun x hx _ => ?_) fun x hx => by cases hx
    simp only [readDependency, Function.update_of_ne (hne x hx)]
  · rw [List.concat_eq_append] at h hpre hne ⊢
    obtain ⟨hy, hread⟩ := (List.append_assoc pre [y] (d :: post) ▸ h :
      graph.DependencyList (pre ++ y :: d :: post)).read
    refine ⟨Function.update graph.dependencies y.1 (some ⟨y.2.te, y.2.data, firstNode 0 post⟩),
      graph.firstDependency, ?_, fun e he => ?_, fun p hp => ?_, ?_⟩
    · rw [lastNode_concat, relink, if_pos hy, modifyDependency, hread]
      rfl
    · refine Function.update_of_ne (fun hey => ?_) ..
      exact hpre y.1 (by simp) e.1 (List.mem_cons_of_mem _ (List.mem_map_of_mem he)) hey.symm
    · refine (Function.update_of_ne (fun hpy => ?_) ..).trans hp
      rw [hpy, hread] at hp
      cases hp
    · refine Chain.unlink h (if_neg (by simp)).symm (fun x hx hxy => ?_) fun x hx hxy => ?_
      · rw [lastNode_concat] at hxy
        simp only [readDependency, Function.update_of_ne (hne x hx), Function.update_of_ne hxy]
      · rw [lastNode_concat] at hxy
        have hxeq : x = y := by
          have hnd := Chain.nodup h
          rw [List.map_append] at hnd
          exact List.inj_on_of_nodup_map (List.nodup_append.mp hnd).1 hx (by simp) hxy
        subst hxeq
        simp only [readDependency, Function.update_of_ne (hne x (List.mem_append_left _ hx)),
          Function.update_self]
        rfl

theorem unlinkDependency_eq (h : graph.DependencyList (pre ++ d :: post)) : ∃ graph',
    graph.unlinkDependency d.1 (lastNode 0 pre) = some (graph', firstNode 0 post) ∧
      graph'.DependencyList (pre ++ post) := by
  obtain ⟨-, hread⟩ := h.read
  obtain ⟨dependencies, first, hrelink, -, -, hlist⟩ := relink_spec h
  refine ⟨_, ?_, hlist⟩
  simp only [unlinkDependency, hread, hrelink, Option.bind_eq_bind, Option.bind_some]

theorem unlinkDependency_unlinks : Unlinks unlinkDependency := by
  intro graph pre d post graph' next h he
  obtain ⟨graph₁, heq, hlist⟩ := unlinkDependency_eq h
  rw [heq] at he
  obtain ⟨rfl, rfl⟩ := Prod.mk.inj (Option.some.inj he)
  exact ⟨rfl, hlist⟩

theorem unlinkDependency_returns : Returns unlinkDependency := by
  intro graph pre d post h
  obtain ⟨graph', heq, -⟩ := unlinkDependency_eq h
  rw [heq]
  rfl

/-! ## Complete sweeps -/

/-- The calls of `op`, with `eliminate` in place of `dependency_eliminate`. -/
def runSweep (eliminate : Eliminate) (graph : WaitGraph) (op : SweepOp) (fuel : Nat) :
    Option WaitGraph :=
  graph.sweepWith eliminate op.hit 0 graph.firstDependency fuel

theorem waitGraphSignal_eq (token : ULong) : graph.waitGraphSignal fuel token =
    graph.runSweep (fun graph => graph.dependencyEliminate) (.signal token) fuel :=
  sweep_eq_sweepWith ..

theorem waitGraphTimeProcess_eq (time : ULong) : graph.waitGraphTimeProcess fuel time =
    graph.runSweep (fun graph => graph.dependencyEliminate) (.timeProcess time) fuel :=
  sweep_eq_sweepWith ..

variable {op : SweepOp}

theorem runSweep_sweeps (hunlinks : Unlinks eliminate) (h : graph.DependencyList ds)
    (hrun : graph.runSweep eliminate op fuel = some graph') :
    Sweeps eliminate op.hit graph [] ds graph' := by
  have hlist : graph.DependencyList ([] ++ ds) := h
  rw [runSweep, h.eq_first] at hrun
  exact sweepWith_sweeps hunlinks hlist hrun

theorem Sweeps.runSweep (hunlinks : Unlinks eliminate) (h : graph.DependencyList ds)
    (hs : Sweeps eliminate op.hit graph [] ds graph') :
    graph.runSweep eliminate op (ds.length + 1) = some graph' := by
  rw [WaitGraph.runSweep, h.eq_first]
  exact hs.sweepWith hunlinks (Nat.lt_succ_self _)

/-- The sweep returns with the dependencies that it does not look for, in their order, and
`prev` is the predecessor of `dep` in every pass. -/
def SweepComplete (eliminate : Eliminate) (graph : WaitGraph) (ds : ListedDependencies)
    (op : SweepOp) : Prop :=
  (∃ fuel graph', graph.runSweep eliminate op fuel = some graph' ∧
    graph'.DependencyList (ds.filter fun d => !sought op.hit d)) ∧
  ∀ fuel, ∀ v ∈ graph.sweepHeads eliminate op.hit 0 graph.firstDependency fuel, AtPredecessor v

/-- A sweep over a list is complete if and only if no two neighbours in it are both looked
for. -/
theorem sweepComplete_iff (hunlinks : Unlinks eliminate) (hreturns : Returns eliminate)
    (h : graph.DependencyList ds) (op : SweepOp) :
    SweepComplete eliminate graph ds op ↔ Scattered (sought op.hit) ds := by
  rw [← kept_eq_filter_iff]
  constructor
  · intro hcomplete
    obtain ⟨fuel, graph', hrun, hlist⟩ := hcomplete.1
    exact (runSweep_sweeps hunlinks h hrun).list.unique hlist
  · intro hkept
    refine ⟨?_, fun fuel => ?_⟩
    · obtain ⟨graph', hs⟩ : ∃ graph', Sweeps eliminate op.hit graph [] ds graph' :=
        exists_sweeps hunlinks hreturns h
      exact ⟨ds.length + 1, graph', hs.runSweep hunlinks h, hkept ▸ hs.list⟩
    · intro v hv
      rw [h.eq_first] at hv
      have hlist : graph.DependencyList ([] ++ ds) := h
      exact sweepHeads_atPredecessor hunlinks hlist v hv

/-- One task that waits for each of `tokens`, the dependencies at 16, 32 and so on. -/
def waitingFor (tokens : List ULong) : WaitGraph where
  tokenIndex := 8
  tasks := fun p => if p = 4096 then some ⟨7, tokens.length, 0, 0⟩ else none
  dependencies := fun p =>
    if p.toNat % 16 = 0 ∧ p ≠ 0 then
      (tokens[p.toNat / 16 - 1]?).map fun token =>
        ⟨4096, .token token, if p.toNat / 16 = tokens.length then 0 else p + 16⟩
    else none
  firstTask := 4096
  firstDependency := if tokens = [] then 0 else 16
  resumes := []

theorem waitingFor_two (s t : ULong) : (waitingFor [s, t]).DependencyList
    [(16, ⟨4096, .token s⟩), (32, ⟨4096, .token t⟩)] := by
  have hfirst : (waitingFor [s, t]).firstDependency = 16 := rfl
  rw [DependencyList, hfirst]
  exact ⟨rfl, by decide, 32, rfl, rfl, by decide, 0, rfl, rfl⟩

theorem sweepComplete_iff_oneOfTwo : Unlinks unlinkDependency ∧ Returns unlinkDependency ∧
    (SweepComplete unlinkDependency (waitingFor [1, 2])
      [(16, ⟨4096, .token 1⟩), (32, ⟨4096, .token 2⟩)] (.signal 1) ↔
        Scattered (sought (SweepOp.signal 1).hit)
          [(16, ⟨4096, .token 1⟩), (32, ⟨4096, .token 2⟩)]) :=
  ⟨unlinkDependency_unlinks, unlinkDependency_returns,
    sweepComplete_iff unlinkDependency_unlinks unlinkDependency_returns (waitingFor_two 1 2)
      (.signal 1)⟩

/-- Two neighbours wait for the same token, and the second one stays in the list. -/
theorem twoOfToken_not_sweepComplete : ¬ ∀ eliminate : Eliminate, Unlinks eliminate →
    Returns eliminate → ∀ graph ds op, graph.DependencyList ds →
      SweepComplete eliminate graph ds op := by
  intro h
  obtain ⟨⟨fuel, graph', hrun, hnil⟩, -⟩ := h unlinkDependency unlinkDependency_unlinks
    unlinkDependency_returns _ _ (.signal 1) (waitingFor_two 1 1)
  have hkept := (runSweep_sweeps unlinkDependency_unlinks (waitingFor_two 1 1) hrun).list
  exact absurd (hkept.unique hnil) (by decide)

end WaitGraph

end Yarns
