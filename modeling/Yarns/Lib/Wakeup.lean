import Yarns.Lib.Suspended
import Yarns.Lib.WaitSpec

/-!
# Registering, suspending and waking up

The processor loops together with a wait graph that does what `wait_graph.h` says. A
yarn registers under the lock of the graph, suspends and is parked later, without it; in
between a signal finds the registration, and `yarn_resume` finds a yarn that is not
suspended yet. `no_lost_wakeup` says that this window is what there is to fear: if no
event satisfies the last dependency of a yarn that is inside it, every parked yarn still
waits for something, and every resume hands over the job of its own suspension.
-/

namespace Yarns

open Base Master

/-- The arguments of `yarn_suspend_on_tokens` and `yarn_suspend_on_time`. -/
inductive SuspendOn where
  | onTokens (tokens : List ULong)
  | onTime (usecs now : ULong)

def SuspendOn.deps : SuspendOn → List DependencyData
  | .onTokens tokens => tokens.map .token
  | .onTime usecs now => [.targetTime (now + usecs)]

/-- The loops and the wait graph. `suspension` is history: the core and the job of the
last suspension of each pid. -/
structure Sleepers where
  rt : Runtime
  waiting : Waiting
  suspension : ULong → Nat × SchedulerJob

/-- The steps. `order` is the order in which an event resumes its yarns. -/
inductive Event where
  | thread (a : Action)
  | register (core : Nat) (on : SuspendOn)
  | signal (token : ULong) (order : List ULong)
  | timeProcess (time : ULong) (order : List ULong)

/-- A call of `yarn_resume` that takes effect: the yarn, and what is handed to
`master_sched_reschedule`. -/
abbrev Handed := ULong × Nat × SchedulerJob

def Runtime.resumeAll (cfg : Config) (rt : Runtime) : List ULong → Option (Runtime × List Handed)
  | [] => some (rt, [])
  | pid :: pids => do
    let (rt, handed) ← rt.yarnResume cfg pid
    let (rt, rest) ← resumeAll cfg rt pids
    some (rt, handed.toList.map (fun h => (pid, h)) ++ rest)

namespace Sleepers

def start (cfg : Config) (procs : Nat) (prim sec : Int) : Sleepers :=
  ⟨.start cfg procs prim sec, [], fun _ => (0, .blank)⟩

variable (cfg : Config) (s : Sleepers)

/-- The history after a step: the parking branch begins a suspension. -/
def record : Action → ULong → Nat × SchedulerJob
  | .finish core =>
    let c := s.rt.cores core
    match c.ttd.afterSwap c.activeJob with
    | .park job =>
      Function.update s.suspension (s.rt.blocks (s.rt.current core)).pid (core, job)
    | _ => s.suspension
  | _ => s.suspension

/-- An event of the wait graph, under its lock. -/
def wakeUp (hit : DependencyData → Bool) (order : List ULong) :
    Option (Sleepers × List Handed) :=
  if order.Perm (s.waiting.resumed hit) then do
    let (rt, handed) ← s.rt.resumeAll cfg order
    some ({ s with rt, waiting := s.waiting.after hit }, handed)
  else none

def step : Event → Option Sleepers
  | .thread (.register _) | .thread (.resume _) => none
  | .thread a => do
    let rt ← s.rt.step cfg a
    some { s with rt, suspension := s.record a }
  | .register core on => do
    let rt ← s.rt.step cfg (.register core)
    let yarn := (s.rt.blocks (s.rt.current core)).pid
    some { s with rt, waiting := s.waiting.register yarn on.deps }
  | .signal token order => (s.wakeUp cfg (DependencyData.signalled token) order).map Prod.fst
  | .timeProcess time order => (s.wakeUp cfg (DependencyData.due time) order).map Prod.fst

end Sleepers

/-- The dependencies an event satisfies. -/
def Event.hit : Event → Option (DependencyData → Bool)
  | .signal token _ => some (DependencyData.signalled token)
  | .timeProcess time _ => some (DependencyData.due time)
  | .thread _ | .register _ _ => none

def Event.order : Event → List ULong
  | .signal _ order | .timeProcess _ order => order
  | .thread _ | .register _ _ => []

namespace Runtime

/-- From its registration until it is parked the yarn of a core is in the window. -/
def InWindow (rt : Runtime) (core : Nat) : Prop :=
  (rt.cores core).pc = .suspending ∨
    ((rt.cores core).pc = .switched ∧ (rt.cores core).ttd.shouldSuspend) ∨
    (rt.cores core).pc.parks

end Runtime

namespace Sleepers

/-- Every yarn marked as suspended has a dependency left in the wait graph. -/
def NoneForgotten (s : Sleepers) : Prop :=
  ∀ b, (s.rt.blocks b).isSuspended →
    ∃ r ∈ s.waiting, r.yarn = (s.rt.blocks b).pid ∧ r.deps ≠ []

/-- Every resume of the event that takes effect hands over the core and the job of the
last suspension of its yarn. -/
def HandsOwnJob (cfg : Config) (s : Sleepers) (e : Event) : Prop :=
  ∀ hit, e.hit = some hit → ∀ s' handed, s.wakeUp cfg hit e.order = some (s', handed) →
    ∀ h ∈ handed, h.2 = s.suspension h.1

/-- No event satisfies the last dependency of a yarn in the window, and nobody waits for
nothing; the other steps are regular, and a yarn marked as suspended does not return. -/
def Timely (s : Sleepers) (e : Event) : Prop :=
  match e with
  | .thread a => s.rt.Regular a ∧ s.rt.Awake a
  | .register _ on => on.deps ≠ []
  | .signal token _ => ∀ core, s.rt.InWindow core →
    (s.rt.cores core).activeJob.pid ∉ s.waiting.resumed (DependencyData.signalled token)
  | .timeProcess time _ => ∀ core, s.rt.InWindow core →
    (s.rt.cores core).activeJob.pid ∉ s.waiting.resumed (DependencyData.due time)

structure Inv (s : Sleepers) : Prop where
  inv : s.rt.Inv
  window : ∀ c, s.rt.InWindow c → ∃ r ∈ s.waiting, r.yarn = (s.rt.cores c).activeJob.pid
  parked : ∀ b, (s.rt.blocks b).isSuspended →
    ∃ r ∈ s.waiting, r.yarn = (s.rt.blocks b).pid
  nonempty : ∀ r ∈ s.waiting, r.deps ≠ []
  fresh : ∀ c, (s.rt.cores c).pc = .running → (s.rt.cores c).ttd.shouldSuspend = false
  saving : ∀ c, (s.rt.cores c).pc.parks →
    s.suspension (s.rt.cores c).activeJob.pid = (c, (s.rt.cores c).activeJob)
  saved : ∀ b, (s.rt.blocks b).isSuspended → ¬ s.rt.Parking b →
    s.suspension (s.rt.blocks b).pid =
      ((s.rt.blocks b).suspensionCore, (s.rt.blocks b).suspensionJob)

variable {cfg : Config} {s s' : Sleepers} {e : Event} {a : Action} {rt rt' : Runtime}
  {core c : Nat} {b pid : ULong} {hit : DependencyData → Bool} {order pids : List ULong}
  {handed : List Handed}

theorem start_inv (cfg : Config) (procs : Nat) (prim sec : Int) :
    (start cfg procs prim sec).Inv where
  inv := Runtime.Inv.start cfg procs prim sec
  window := by
    rintro c (h | ⟨h, -⟩ | h) <;> cases h
  parked := fun _ h => by cases h
  nonempty := fun _ h => absurd h List.not_mem_nil
  fresh := fun _ h => by cases h
  saving := fun _ h => by cases h
  saved := fun _ h => by cases h

/-- The events of the wait graph in one form. -/
theorem timely_iff (he : e.hit = some hit) : s.Timely e ↔ ∀ core, s.rt.InWindow core →
    (s.rt.cores core).activeJob.pid ∉ s.waiting.resumed hit := by
  cases e with
  | signal token order =>
    cases he
    exact Iff.rfl
  | timeProcess time order =>
    cases he
    exact Iff.rfl
  | _ => cases he

/-! ## The resumes of one event -/

/-- Nothing but marks has been cleared. -/
structure Woken (rt rt' : Runtime) : Prop where
  cores : rt'.cores = rt.cores
  ptable : rt'.ptable = rt.ptable
  blocks : ∀ b, rt'.blocks b = rt.blocks b ∨
    rt'.blocks b = { rt.blocks b with isSuspended := false }

namespace Woken

theorem parking (h : Woken rt rt') : rt'.Parking b ↔ rt.Parking b := by
  simp only [Runtime.Parking, Runtime.current, h.cores]

/-- A block that is marked has not been touched. -/
theorem block (h : Woken rt rt') (hb : (rt'.blocks b).isSuspended) :
    rt'.blocks b = rt.blocks b := by
  rcases h.blocks b with hb' | hb'
  · exact hb'
  · rw [hb'] at hb
    cases hb

theorem trans {rt'' : Runtime} (h : Woken rt rt') (h' : Woken rt' rt'') : Woken rt rt'' where
  cores := h'.cores.trans h.cores
  ptable := h'.ptable.trans h.ptable
  blocks := by
    intro b
    rcases h.blocks b with hb | hb <;> rcases h'.blocks b with hb' | hb' <;> rw [hb', hb]
    · exact Or.inl rfl
    · exact Or.inr rfl
    · exact Or.inr rfl
    · exact Or.inr rfl

end Woken

/-- One resume of a yarn that no loop is parking. -/
theorem yarnResume_spec {given : Option (Nat × SchedulerJob)} (h : rt.Inv)
    (hnp : ¬ rt.Parking (rt.ptable pid)) (hs : rt.yarnResume cfg pid = some (rt', given)) :
    rt'.Inv ∧ Woken rt rt' ∧ ¬ (rt'.blocks (rt.ptable pid)).isSuspended ∧
      ∀ g, given = some g → (rt.blocks (rt.ptable pid)).isSuspended ∧
        (rt.blocks (rt.ptable pid)).pid = pid ∧
        g = ((rt.blocks (rt.ptable pid)).suspensionCore,
          (rt.blocks (rt.ptable pid)).suspensionJob) := by
  obtain ⟨hp, ⟨hsus, rfl, rfl⟩ | ⟨hsus, rfl, m, hm, rfl⟩⟩ := Runtime.yarnResume_cases hs
  · exact ⟨h, ⟨rfl, rfl, fun _ => Or.inl rfl⟩, hsus, fun g hg => by cases hg⟩
  · refine ⟨h.wake hsus hnp hm, ⟨rfl, rfl, fun b => ?_⟩, ?_, fun g hg => ?_⟩
    · by_cases hb : b = rt.ptable pid
      · subst hb
        exact Or.inr Runtime.setBlock_self
      · exact Or.inl (Runtime.setBlock_of_ne hb)
    · dsimp only
      rw [Runtime.setBlock_self]
      exact Bool.false_ne_true
    · cases hg
      exact ⟨hsus, (h.table pid hp).2.2, rfl⟩

/-- All resumes of an event: the marks of the yarns are gone, and what was handed over is
what their blocks had saved. -/
theorem resumeAll_spec (h : rt.Inv) (hnp : ∀ pid ∈ pids, ¬ rt.Parking (rt.ptable pid))
    (hs : rt.resumeAll cfg pids = some (rt', handed)) :
    rt'.Inv ∧ Woken rt rt' ∧ (∀ pid ∈ pids, ¬ (rt'.blocks (rt.ptable pid)).isSuspended) ∧
      ∀ g ∈ handed, g.1 ∈ pids ∧ ∃ b, (rt.blocks b).isSuspended ∧ b = rt.ptable g.1 ∧
        (rt.blocks b).pid = g.1 ∧
        g.2 = ((rt.blocks b).suspensionCore, (rt.blocks b).suspensionJob) := by
  induction pids generalizing rt handed with
  | nil =>
    cases hs
    exact ⟨h, ⟨rfl, rfl, fun _ => Or.inl rfl⟩, fun _ hm => absurd hm List.not_mem_nil,
      fun _ hm => absurd hm List.not_mem_nil⟩
  | cons pid pids ih =>
    simp only [Runtime.resumeAll, Option.bind_eq_bind, Option.bind_eq_some_iff] at hs
    obtain ⟨⟨rt₁, given⟩, hres, ⟨rt₂, rest⟩, hrest, hs⟩ := hs
    cases hs
    obtain ⟨h₁, hw₁, hclear, hgiven⟩ := yarnResume_spec h (hnp pid List.mem_cons_self) hres
    have hnp₁ : ∀ q ∈ pids, ¬ rt₁.Parking (rt₁.ptable q) := by
      intro q hq
      rw [hw₁.parking, hw₁.ptable]
      exact hnp q (List.mem_cons_of_mem pid hq)
    obtain ⟨h₂, hw₂, hclear₂, hrest⟩ := ih h₁ hnp₁ hrest
    refine ⟨h₂, hw₁.trans hw₂, fun q hq => ?_, fun g hg => ?_⟩
    · rcases List.mem_cons.mp hq with rfl | hq
      · -- a mark that is gone stays gone
        intro hsus
        rw [hw₂.block hsus] at hsus
        exact hclear hsus
      · rw [← hw₁.ptable]
        exact hclear₂ q hq
    · rcases List.mem_append.mp hg with hg | hg
      · obtain ⟨g', hg', rfl⟩ := List.mem_map.mp hg
        obtain ⟨hsus, hpid, hval⟩ := hgiven g' (Option.mem_toList.mp hg')
        exact ⟨List.mem_cons_self, _, hsus, rfl, hpid, hval⟩
      · obtain ⟨hmem, b, hsus, hb, hpid, hval⟩ := hrest g hg
        have hblock := hw₁.block hsus
        rw [hblock] at hsus hpid hval
        exact ⟨List.mem_cons_of_mem _ hmem, b, hsus, hb.trans (congrFun hw₁.ptable _), hpid, hval⟩

/-! ## What each event keeps -/

namespace Inv

/-- Where an event comes too early for no yarn, it resumes no yarn that is being parked. -/
theorem not_parking (h : s.Inv) (htimely : ∀ core, s.rt.InWindow core →
    (s.rt.cores core).activeJob.pid ∉ s.waiting.resumed hit)
    (hmem : pid ∈ s.waiting.resumed hit) : ¬ s.rt.Parking (s.rt.ptable pid) := by
  rintro ⟨c, hc, hcur⟩
  obtain ⟨h0, hpid, -⟩ := h.inv.running c (Pc.busy_of_parks hc)
  rw [hcur] at h0 hpid
  refine htimely c (Or.inr (Or.inr hc)) ?_
  rw [← hpid, (h.inv.table pid h0).2.2]
  exact hmem

theorem wakeUp (h : s.Inv) (htimely : ∀ core, s.rt.InWindow core →
    (s.rt.cores core).activeJob.pid ∉ s.waiting.resumed hit)
    (hs : s.wakeUp cfg hit order = some (s', handed)) :
    s'.Inv ∧ ∀ g ∈ handed, g.2 = s.suspension g.1 := by
  obtain ⟨horder, hs⟩ := Option.ite_none_right_eq_some.mp hs
  simp only [Option.bind_eq_bind, Option.bind_eq_some_iff] at hs
  obtain ⟨⟨rt', handed'⟩, hres, hs⟩ := hs
  cases hs
  have hnp : ∀ pid ∈ order, ¬ s.rt.Parking (s.rt.ptable pid) :=
    fun pid hmem => h.not_parking htimely (horder.subset hmem)
  obtain ⟨hinv, hw, hclear, hhanded⟩ := resumeAll_spec h.inv hnp hres
  refine ⟨⟨hinv, fun c hc => ?_, fun b hb => ?_, fun r hr => Waiting.deps_of_mem_after hr,
    fun c hc => ?_, fun c hc => ?_, fun b hb hp => ?_⟩, fun g hg => ?_⟩
  · have hcore : rt'.cores c = s.rt.cores c := congrFun hw.cores c
    dsimp only at hc ⊢
    have hc' : s.rt.InWindow c := by
      unfold Runtime.InWindow at hc ⊢
      rwa [hcore] at hc
    obtain ⟨r, hr, hyarn⟩ := h.window c hc'
    rw [hcore]
    rcases Waiting.mem_after_or_resumed hr with ⟨r', hr', hyarn'⟩ | hres
    · exact ⟨r', hr', hyarn'.trans hyarn⟩
    · exact absurd (hyarn ▸ hres) (htimely c hc')
  · dsimp only at hb ⊢
    have hblock := hw.block hb
    have hsus := hb
    rw [hblock] at hsus ⊢
    obtain ⟨r, hr, hyarn⟩ := h.parked b hsus
    rcases Waiting.mem_after_or_resumed hr with ⟨r', hr', hyarn'⟩ | hres
    · exact ⟨r', hr', hyarn'.trans hyarn⟩
    · -- the mark of a resumed yarn is gone
      rw [hyarn] at hres
      have hgone := hclear _ (horder.symm.subset hres)
      rw [(h.inv.suspended b hsus).2.1] at hgone
      exact absurd hb hgone
  · dsimp only at hc ⊢
    rw [hw.cores] at hc ⊢
    exact h.fresh c hc
  · dsimp only at hc ⊢
    rw [hw.cores] at hc ⊢
    exact h.saving c hc
  · dsimp only at hb hp ⊢
    have hblock := hw.block hb
    rw [hblock] at hb ⊢
    exact h.saved b hb fun hp' => hp (hw.parking.mpr hp')
  · obtain ⟨hmem, b, hsus, hb, hpid, hval⟩ := hhanded g hg
    rw [hval, ← hpid, h.saved b hsus (hb ▸ hnp g.1 hmem)]

/-- A core that has moved into the window has registered, or was in the window. -/
theorem window_self (h : s.Inv) (hreg : s.rt.Regular a) (hs : s.rt.step cfg a = some rt')
    (ha : a.core = some core) (hw : rt'.InWindow core) :
    (a = .register core ∨ s.rt.InWindow core) ∧
      (rt'.cores core).activeJob.pid = (s.rt.cores core).activeJob.pid := by
  unfold Runtime.InWindow at hw
  cases Runtime.step_core hreg.atHome hs ha with
  | top hpc =>
    rw [hpc] at hw
    rcases hw with hw | ⟨hw, -⟩ | hw <;> cases hw
  | dispatched _ hpc =>
    rw [hpc] at hw
    rcases hw with hw | ⟨hw, -⟩ | hw <;> cases hw
  | registered ha _ hk => exact ⟨Or.inl ha, by rw [hk]⟩
  | switched hpc hpc' _ _ hsus =>
    rw [hpc', hsus, h.fresh core hpc] at hw
    rcases hw with hw | ⟨-, hw⟩ | hw <;> cases hw
  | suspended hpc _ hjob => exact ⟨Or.inr (Or.inl hpc), by rw [hjob]⟩
  | stays hk =>
    rw [hk] at hw ⊢
    exact ⟨Or.inr hw, rfl⟩
  | flagged _ hpc _ hpid hsus => exact ⟨Or.inr (Or.inr (Or.inl ⟨hpc, hsus⟩)), hpid⟩
  | placed _ hpc hk => exact ⟨Or.inr (Or.inr (Or.inr (by rw [hpc]; rfl))), by rw [hk]⟩

/-- Only a dispatch brings a core into a yarn, with `shouldSuspend` cleared. -/
theorem fresh_self (h : s.Inv) (hreg : s.rt.Regular a) (hs : s.rt.step cfg a = some rt')
    (ha : a.core = some core) (hpc : (rt'.cores core).pc = .running) :
    (rt'.cores core).ttd.shouldSuspend = false := by
  cases Runtime.step_core hreg.atHome hs ha with
  | top hpc' =>
    rw [hpc'] at hpc
    cases hpc
  | dispatched _ _ hsus => exact hsus
  | registered _ _ hk =>
    rw [hk] at hpc
    cases hpc
  | switched _ hpc' =>
    rw [hpc'] at hpc
    cases hpc
  | suspended _ hpc' =>
    rw [hpc'] at hpc
    cases hpc
  | stays hk =>
    rw [hk] at hpc ⊢
    exact h.fresh core hpc
  | flagged _ _ hpc' =>
    rw [hpc'] at hpc
    cases hpc
  | placed _ _ hk =>
    rw [hk] at hpc
    cases hpc

/-- The history changes for a yarn only where its own loop parks it. -/
theorem record_of_ne (hne : ∀ core job, a = .finish core →
    (s.rt.cores core).ttd.afterSwap (s.rt.cores core).activeJob = .park job →
    pid ≠ (s.rt.blocks (s.rt.current core)).pid) : s.record a pid = s.suspension pid := by
  cases a with
  | finish core =>
    unfold record
    dsimp only
    cases hact : (s.rt.cores core).ttd.afterSwap (s.rt.cores core).activeJob with
    | park job => exact Function.update_of_ne (hne core job rfl hact) _ _
    | unschedule job => rfl
    | reschedule job => rfl
  | _ => rfl

theorem record_park {job : SchedulerJob}
    (hact : (s.rt.cores core).ttd.afterSwap (s.rt.cores core).activeJob = .park job) :
    s.record (.finish core) (s.rt.blocks (s.rt.current core)).pid = (core, job) := by
  unfold record
  dsimp only
  rw [hact]
  exact Function.update_self ..

/-- A loop in the parking branch is saving the job that the history has for its yarn. -/
theorem saving_self (h : s.Inv) (hreg : s.rt.Regular a) (hs : s.rt.step cfg a = some rt')
    (ha : a.core = some core) (hparks : (rt'.cores core).pc.parks) :
    s.record a (rt'.cores core).activeJob.pid = (core, (rt'.cores core).activeJob) := by
  cases Runtime.step_core hreg.atHome hs ha with
  | top hpc =>
    rw [hpc] at hparks
    cases hparks
  | dispatched _ hpc =>
    rw [hpc] at hparks
    cases hparks
  | registered _ _ hk =>
    rw [hk] at hparks
    cases hparks
  | switched _ hpc =>
    rw [hpc] at hparks
    cases hparks
  | suspended _ hpc =>
    rw [hpc] at hparks
    cases hparks
  | stays hk =>
    rw [hk] at hparks ⊢
    rw [record_of_ne]
    · exact h.saving core hparks
    · -- a loop that is parking is not back from its yarn
      rintro core' job rfl -
      cases ha
      obtain ⟨hpc, -⟩ := Option.ite_none_right_eq_some.mp hs
      rw [hpc] at hparks
      cases hparks
  | flagged haction hpc _ hpid _ hpark =>
    subst haction
    rw [hpid, ← (h.inv.running core (Runtime.busy_of_pc hpc rfl)).2.1]
    exact record_park hpark
  | placed haction hpc hk =>
    subst haction
    rw [hk]
    exact h.saving core (Runtime.parks_of_pc hpc rfl)

/-- A block that is still marked after a step, and no longer being parked, is not the one
that the step begins to park. -/
theorem saved_ne (h : s.Inv) {job : SchedulerJob}
    (hs : s.rt.step cfg (.finish core) = some rt') (hb : (s.rt.blocks b).isSuspended)
    (hnp : ¬ rt'.Parking b)
    (hpark : (s.rt.cores core).ttd.afterSwap (s.rt.cores core).activeJob = .park job) :
    (s.rt.blocks b).pid ≠ (s.rt.blocks (s.rt.current core)).pid := by
  intro he
  cases Runtime.step_outcome hs with
  | switch ha => rcases ha with ⟨target, t, ha⟩ | ⟨t, ha⟩ <;> cases ha
  | unschedule _ _ _ _ hact =>
    rw [hpark] at hact
    cases hact
  | reschedule _ _ _ _ hact =>
    rw [hpark] at hact
    cases hact
  | flag hpc _ _ hrt =>
    obtain ⟨-, hpid, hlive⟩ := h.inv.running core (Runtime.busy_of_pc hpc rfl)
    have hlive := hlive.resolve_right fun hdone => hrt hdone.2.2
    obtain rfl : s.rt.current core = b := by
      rw [← (h.inv.suspended b hb).2.1, he, hpid, hlive]
    exact hnp ⟨core, by rw [Runtime.setCore_self]; rfl, Runtime.current_setCore_self⟩

theorem saved_step (h : s.Inv) (hreg : s.rt.Regular a) (hs : s.rt.step cfg a = some rt')
    (hb : (rt'.blocks b).isSuspended) (hnp : ¬ rt'.Parking b) :
    s.record a (rt'.blocks b).pid =
      ((rt'.blocks b).suspensionCore, (rt'.blocks b).suspensionJob) := by
  rcases Runtime.step_saved h.inv hreg hs hb hnp with
    ⟨core, rfl, rfl, hpc, hblock⟩ | ⟨hb, hnp', home, hblock⟩
  · have hparks : (s.rt.cores core).pc.parks := Runtime.parks_of_pc hpc rfl
    obtain ⟨-, hpid, -⟩ := h.inv.running core (Pc.busy_of_parks hparks)
    rw [hblock]
    dsimp only
    rw [hpid, h.inv.placed core hpc]
    exact h.saving core hparks
  · rw [hblock]
    rw [record_of_ne]
    · exact h.saved b hb hnp'
    · rintro core job rfl hpark
      exact h.saved_ne hs hb hnp hpark

/-- A step of a thread keeps the invariant, also if it registers a yarn. -/
theorem move (h : s.Inv) (hreg : s.rt.Regular a) (hawake : s.rt.Awake a)
    (hs : s.rt.step cfg a = some rt') {w : Waiting} (hsub : s.waiting ⊆ w)
    (hdeps : ∀ r ∈ w, r.deps ≠ [])
    (hnew : ∀ core, a = .register core → ∃ r ∈ w, r.yarn = (s.rt.cores core).activeJob.pid) :
    Inv ⟨rt', w, s.record a⟩ where
  inv := Runtime.step_inv h.inv hreg hawake hs
  window := by
    intro c hc
    dsimp only at hc ⊢
    by_cases hac : a.core = some c
    · obtain ⟨hac, hpid⟩ := h.window_self hreg hs hac hc
      rw [hpid]
      rcases hac with hac | hac
      · exact hnew c hac
      · obtain ⟨r, hr, hyarn⟩ := h.window c hac
        exact ⟨r, hsub hr, hyarn⟩
    · have hoff := Runtime.step_off hreg.atHome hs hac
      have hc' : s.rt.InWindow c := by
        unfold Runtime.InWindow at hc ⊢
        rwa [hoff] at hc
      obtain ⟨r, hr, hyarn⟩ := h.window c hc'
      rw [hoff]
      exact ⟨r, hsub hr, hyarn⟩
  parked := by
    intro b hb
    obtain ⟨hpid, hmark⟩ := Runtime.step_mark h.inv hreg hs hb
    dsimp only
    rw [hpid]
    rcases hmark with hb | ⟨core, job, rfl, rfl, -, hpc, -, hsus⟩
    · obtain ⟨r, hr, hyarn⟩ := h.parked b hb
      exact ⟨r, hsub hr, hyarn⟩
    · obtain ⟨r, hr, hyarn⟩ := h.window core (Or.inr (Or.inl ⟨hpc, hsus⟩))
      rw [(h.inv.running core (Runtime.busy_of_pc hpc rfl)).2.1]
      exact ⟨r, hsub hr, hyarn⟩
  nonempty := hdeps
  fresh := by
    intro c hc
    by_cases hac : a.core = some c
    · exact h.fresh_self hreg hs hac hc
    · have hoff := Runtime.step_off hreg.atHome hs hac
      dsimp only at hc ⊢
      rw [hoff] at hc ⊢
      exact h.fresh c hc
  saving := by
    intro c hc
    by_cases hac : a.core = some c
    · exact h.saving_self hreg hs hac hc
    · have hoff := Runtime.step_off hreg.atHome hs hac
      dsimp only at hc ⊢
      rw [hoff] at hc ⊢
      have hbusy := Pc.busy_of_parks hc
      rw [record_of_ne]
      · exact h.saving c hc
      · -- two cores do not have the same yarn
        rintro core job rfl hpark he
        obtain ⟨hpc, -⟩ := Option.ite_none_right_eq_some.mp hs
        have hcore := Runtime.busy_of_pc hpc rfl
        rw [(h.inv.running core hcore).2.1] at he
        obtain rfl := h.inv.busy_unique hbusy hcore he
        exact hac rfl
  saved := fun b hb hnp => h.saved_step hreg hs hb hnp

theorem noneForgotten (h : s.Inv) : s.NoneForgotten := by
  intro b hb
  obtain ⟨r, hr, hyarn⟩ := h.parked b hb
  exact ⟨r, hr, hyarn, h.nonempty r hr⟩

theorem handsOwnJob (h : s.Inv) (ht : s.Timely e) : s.HandsOwnJob cfg e :=
  fun _ he _ _ hs => (h.wakeUp ((timely_iff he).mp ht) hs).2

theorem register (h : s.Inv) {on : SuspendOn} (hon : on.deps ≠ [])
    (hs : s.rt.step cfg (.register core) = some rt') :
    Inv ⟨rt', s.waiting.register (s.rt.blocks (s.rt.current core)).pid on.deps,
      s.suspension⟩ := by
  obtain ⟨hpc, -⟩ := Option.ite_none_right_eq_some.mp hs
  have hbusy : (s.rt.cores core).pc.busy := Runtime.busy_of_pc hpc rfl
  rw [Waiting.register, if_neg hon]
  refine h.move (a := .register core) trivial trivial hs (List.subset_cons_self ..) ?_ ?_
  · intro r hr
    rcases List.mem_cons.mp hr with rfl | hr
    · exact hon
    · exact h.nonempty r hr
  · intro core' he
    cases he
    exact ⟨_, List.mem_cons_self, (h.inv.running core hbusy).2.1⟩

end Inv

theorem step_thread (hs : s.step cfg (.thread a) = some s') :
    (∀ core, a ≠ .register core) ∧
      ∃ rt, s.rt.step cfg a = some rt ∧ s' = ⟨rt, s.waiting, s.record a⟩ := by
  unfold step at hs
  split at hs
  · cases hs
  · cases hs
  · rename_i hne _ he
    cases he
    simp only [Option.bind_eq_bind, Option.bind_eq_some_iff] at hs
    obtain ⟨rt, hrt, hs⟩ := hs
    cases hs
    refine ⟨?_, rt, hrt, rfl⟩
    rintro core rfl
    exact hne core rfl
  · rename_i he
    cases he
  · rename_i he
    cases he
  · rename_i he
    cases he

/-- A timely step keeps the invariant. -/
theorem step_inv (h : s.Inv) (ht : s.Timely e) (hs : s.step cfg e = some s') : s'.Inv := by
  cases e with
  | thread a =>
    obtain ⟨hne, rt, hrt, rfl⟩ := step_thread hs
    exact h.move ht.1 ht.2 hrt (List.Subset.refl _) h.nonempty fun core he => absurd he (hne core)
  | register core on =>
    simp only [step, Option.bind_eq_bind, Option.bind_eq_some_iff] at hs
    obtain ⟨rt, hrt, hs⟩ := hs
    cases hs
    exact h.register ht hrt
  | signal token order =>
    obtain ⟨⟨s₁, handed⟩, hwake, rfl⟩ := Option.map_eq_some_iff.mp hs
    exact (h.wakeUp ht hwake).1
  | timeProcess time order =>
    obtain ⟨⟨s₁, handed⟩, hwake, rfl⟩ := Option.map_eq_some_iff.mp hs
    exact (h.wakeUp ht hwake).1

/-- In a run whose steps are all timely every parked yarn still waits for something, and
every resume hands over the job of its own suspension. -/
theorem no_lost_wakeup (cfg : Config) (procs : Nat) (prim sec : Int) (es : List Event)
    (hgood : Along (step cfg) (fun s e _ => s.Timely e) (start cfg procs prim sec) es) :
    Along (step cfg) (fun s e s' => s'.NoneForgotten ∧ s.HandsOwnJob cfg e)
      (start cfg procs prim sec) es :=
  along_of_invariant (start_inv cfg procs prim sec)
    (fun _ _ _ h ht hs => ⟨step_inv h ht hs, (step_inv h ht hs).noneForgotten, h.handsOwnJob ht⟩)
    hgood

/-- A yarn waits for token 7, is parked, and is resumed by the signal. -/
theorem no_lost_wakeup_once : Along (step .defaultProfile)
    (fun s e s' => s'.NoneForgotten ∧ s.HandsOwnJob .defaultProfile e)
    (start .defaultProfile 2 YARNS_SCHEDULER_ROUND_ROBIN YARNS_SCHEDULER_ROUND_ROBIN)
    [.thread (.yarnNew 0 4096 64), .thread (.select 0 1 (fun _ => []) 10),
      .register 0 (.onTokens [7]), .thread (.suspend 0 11), .thread (.finish 0),
      .thread (.parkCore 0), .thread (.parkJob 0), .signal 7 [1]] := by
  refine no_lost_wakeup _ _ _ _ _ ?_
  refine along_cons rfl ⟨Runtime.start_freshBlock _ _ _ _ (by decide), trivial⟩ ?_
  refine along_cons rfl ⟨trivial, trivial⟩ ?_
  refine along_cons rfl (List.cons_ne_nil _ _) ?_
  refine along_cons rfl ⟨trivial, trivial⟩ ?_
  refine along_cons rfl ⟨trivial, trivial⟩ ?_
  refine along_cons rfl ⟨trivial, trivial⟩ ?_
  refine along_cons rfl ⟨trivial, trivial⟩ ?_
  refine along_cons rfl ?_ trivial
  -- no loop is in the window any more
  rintro (_ | c) (h | ⟨h, -⟩ | h) <;> cases h

/-- The signal comes between the registration and the parking. -/
def signalledTooEarly : List Event :=
  [.thread (.yarnNew 0 4096 64), .thread (.select 0 1 (fun _ => []) 10),
    .register 0 (.onTokens [7]), .signal 7 [1], .thread (.suspend 0 11), .thread (.finish 0),
    .thread (.parkCore 0)]

/-- The resume finds a yarn that is not suspended yet; then the yarn is parked, and nothing
is left that could resume it. -/
theorem wakeup_lost : ¬ Along (step .defaultProfile)
    (fun s e s' => s'.NoneForgotten ∧ s.HandsOwnJob .defaultProfile e)
    (start .defaultProfile 2 YARNS_SCHEDULER_ROUND_ROBIN YARNS_SCHEDULER_ROUND_ROBIN)
    (signalledTooEarly ++ [.thread (.parkJob 0)]) := by
  intro h
  have hrun : ((run (step .defaultProfile)
      (start .defaultProfile 2 YARNS_SCHEDULER_ROUND_ROBIN YARNS_SCHEDULER_ROUND_ROBIN)
      signalledTooEarly).bind fun s => (step .defaultProfile s (.thread (.parkJob 0))).map fun s' =>
        ((s'.rt.blocks 4096).isSuspended, s'.waiting)) = some (true, []) := by
    decide +kernel
  obtain ⟨s, s', hP, hobs⟩ := along_observed h hrun
  obtain ⟨hsus, hnone⟩ := Prod.mk.inj hobs
  obtain ⟨r, hr, -⟩ := hP.1 4096 hsus
  rw [hnone] at hr
  cases hr

end Sleepers

end Yarns
