import Yarns.Sched.Loans
import Yarns.Sched.MasterRuns

/-!
# Where a pid is

A pid that has been given to the master scheduler is queued on a core, lent to a holder, or
the dedicated job of a core. `Ledger.Covers` adds this to `Ledger.Backs`, together with the
reason why a lent job does not get lost when it is returned: it is out of the scheduler of
its core, or its core is dedicated to it. It is kept by every call, if no core is dedicated
twice.
-/

namespace Yarns.Master

open Base

namespace Ledger

section

variable {η θ : Type}

/-- `pid` is queued, lent, or dedicated. -/
def Located (l : Ledger) (m : Master) (lent : η → Nat → SchedulerJob → Prop)
    (pid : ULong) : Prop :=
  (∃ c, pid ∈ l.queued c) ∨ (∃ o c j, lent o c j ∧ j.pid = pid) ∨ ∃ c, m.singleJobs c = pid

/-- The loans are backed, each lent job is out of its scheduler or dedicated to its core, and
every live pid is somewhere. -/
structure Covers (l : Ledger) (m : Master) (n : Nat) (lent : η → Nat → SchedulerJob → Prop)
    (live : ULong → Prop) : Prop where
  backs : l.Backs m n lent
  firm : ∀ o c j, lent o c j →
    (∃ g ∈ l.out c, g.pid = j.pid ∧ g.data = j.data) ∨ m.singleJobs c = j.pid
  located : ∀ pid, live pid → l.Located m lent pid

variable {cfg : Config} {m m' : Master} {l l' : Ledger} {n core src dst : Nat}
  {pid ptr newTime : ULong} {prio : SchedulerPriority} {job job' job₀ g : SchedulerJob}
  {ptrs : Nat → List ULong} {lent : η → Nat → SchedulerJob → Prop}
  {lent' : θ → Nat → SchedulerJob → Prop} {live live' : ULong → Prop} {holder : η}

/-! ## Jobs that go back to a scheduler -/

/-- A job that is out is queued again. -/
def requeue (l : Ledger) (core : Nat) (g : SchedulerJob) : Ledger :=
  (l.setOut core ((l.out core).erase g)).enqueue core g.pid

theorem sameOff_erase (l : Ledger) (hg : g ∈ l.out core) :
    SameOff g.pid l (l.setOut core ((l.out core).erase g)) :=
  sameOff_drop (List.perm_cons_erase hg)

theorem sameOff_requeue (l : Ledger) (hg : g ∈ l.out core) :
    SameOff g.pid l (l.requeue core g) :=
  (sameOff_erase l hg).trans (sameOff_enqueue _ core g.pid)

/-- What was queued still is. -/
theorem mem_requeue {q : ULong} {c : Nat} (hq : q ∈ l.queued c) :
    q ∈ (l.requeue core g).queued c := by
  by_cases hc : c = core
  · subst hc
    simp only [requeue, enqueue, setOut, Function.update_self]
    exact List.mem_cons_of_mem _ hq
  · simp only [requeue, enqueue, setOut, Function.update_of_ne hc]
    exact hq

theorem mem_requeue_self : g.pid ∈ (l.requeue core g).queued core := by
  simp only [requeue, enqueue, setOut, Function.update_self]
  exact List.mem_cons_self

/-- A dedicated core has nothing out, and a job is out of a core that is not dedicated. -/
theorem Keeps.shared_of_out (h : l.Keeps m n) (hg : g ∈ l.out core) : m.singleJobs core = 0 := by
  by_contra hsingle
  rw [(h.dedicated core hsingle).1] at hg
  cases hg

theorem Keeps.requeue (h : l.Keeps m n) (hg : g ∈ l.out core) (hpid : job.pid = g.pid)
    (hdata : job.data = g.data) (h0 : g.pid ≠ 0)
    (hs : m.masterSchedReschedule cfg core job = some m') :
    m'.singleJobs = m.singleJobs ∧ m'.nprocs = m.nprocs ∧ (l.requeue core g).Keeps m' n := by
  have hsingle := h.shared_of_out hg
  have hout : (l.out core).Perm (g :: (l.out core).erase g) := List.perm_cons_erase hg
  obtain ⟨hm, hbooks⟩ := reschedule_spec h.books hsingle hout hpid hdata h0 hs
  have hsingle' : m'.singleJobs = m.singleJobs := by rw [hm]
  have hcached : m'.Cached := by
    rw [hm]
    exact h.cached
  refine ⟨hsingle', by rw [hm], ?_⟩
  refine h.update hbooks hcached
    (placed_enqueue (placed_drop h.placed hout) (not_mem_drop h.placed hout)) (Nat.le_refl n)
    hsingle' (sameOff_requeue l hg)
    (Or.inl ⟨core, List.mem_append_right _ (List.mem_map_of_mem hg)⟩) fun c hc he => ?_
  have hne : c ≠ core := by
    rintro rfl
    exact hc hsingle
  simp only [Ledger.requeue, enqueue, setOut, Function.update_of_ne hne, he]

theorem Keeps.drop (h : l.Keeps m n) (hg : g ∈ l.out core) (hpid : job.pid = g.pid)
    (hdata : job.data = g.data) (h0 : g.pid ≠ 0)
    (hs : m.masterSchedUnschedule cfg core job = some m') :
    m'.singleJobs = m.singleJobs ∧ m'.nprocs = m.nprocs ∧
      (l.setOut core ((l.out core).erase g)).Keeps m' n := by
  have hsingle := h.shared_of_out hg
  have hout : (l.out core).Perm (g :: (l.out core).erase g) := List.perm_cons_erase hg
  obtain ⟨hm, hbooks⟩ := unschedule_spec h.books hsingle hout hpid hdata h0 hs
  have hsingle' : m'.singleJobs = m.singleJobs := by rw [hm]
  have hcached : m'.Cached := by
    rw [hm]
    exact h.cached
  refine ⟨hsingle', by rw [hm], ?_⟩
  refine h.update hbooks hcached (placed_drop h.placed hout) (Nat.le_refl n) hsingle'
    (sameOff_erase l hg) (Or.inl ⟨core, List.mem_append_right _ (List.mem_map_of_mem hg)⟩)
    fun c hc he => ?_
  have hne : c ≠ core := by
    rintro rfl
    exact hc hsingle
  rw [(setOut_off hne).2, he]

/-! ## What each call keeps -/

namespace Covers

theorem init (cfg : Config) (procs : Nat) (prim sec : Int) (hn : 0 < n)
    (hlent : ∀ o c j, ¬ lent o c j) (hlive : ∀ pid, ¬ live pid) :
    empty.Covers (masterSchedInit cfg procs prim sec) n lent live where
  backs := Backs.init cfg procs prim sec hn hlent
  firm := fun o c j hj => absurd hj (hlent o c j)
  located := fun pid hpid => absurd hpid (hlive pid)

/-- Loans change hands, and change what the scheduler does not look at; a loan of a live pid
does not end. -/
theorem sub (h : l.Covers m n lent live) (f : θ → η)
    (hlent : ∀ o c j, lent' o c j → ∃ j₀, lent (f o) c j₀ ∧ j.pid = j₀.pid ∧ j.data = j₀.data)
    (hinj : ∀ o o' c c' j j', lent' o c j → lent' o' c' j' → f o = f o' → o = o')
    (hlive : ∀ pid, live' pid → live pid)
    (hback : ∀ o c j, lent o c j → live' j.pid → ∃ o' c' j', lent' o' c' j' ∧ j'.pid = j.pid) :
    l.Covers m n lent' live' where
  backs := h.backs.sub f hlent hinj
  firm := by
    intro o c j hj
    obtain ⟨j₀, hj₀, hpid, hdata⟩ := hlent o c j hj
    rw [hpid, hdata]
    exact h.firm (f o) c j₀ hj₀
  located := by
    intro pid hpid
    rcases h.located pid (hlive pid hpid) with hq | ⟨o, c, j, hj, rfl⟩ | hs
    · exact Or.inl hq
    · exact Or.inr (Or.inl (hback o c j hj hpid))
    · exact Or.inr (Or.inr hs)

/-- One pid that is lent to nobody moves from queue to queue. -/
theorem move (h : l.Covers m n lent live) (hkeeps : l'.Keeps m' n) (hoff : SameOff pid l l')
    (hfree : ∀ o c j, lent o c j → j.pid ≠ pid) (hsingle : m'.singleJobs = m.singleJobs)
    (hqueued : ∀ c, ∀ q ∈ l.queued c, ∃ d, q ∈ l'.queued d) : l'.Covers m' n lent live where
  backs := h.backs.update hkeeps (Nat.le_refl n) hoff (fun o c j hj => ⟨hj, hfree o c j hj⟩) hsingle
  firm := by
    intro o c j hj
    rw [hsingle]
    refine (h.firm o c j hj).imp_left fun hout => ?_
    obtain ⟨g, hg, hpid, hdata⟩ := hout
    exact ⟨g, hoff.out c g hg (hpid ▸ hfree o c j hj), hpid, hdata⟩
  located := by
    intro q hq
    rw [Located, hsingle]
    refine (h.located q hq).imp_left fun hin => ?_
    obtain ⟨c, hc⟩ := hin
    exact hqueued c q hc

theorem hoist (h : l.Covers m n lent live) (hne : src ≠ dst)
    (hs : m.jobHoist cfg src dst ptr = some m') :
    m'.singleJobs = m.singleJobs ∧ m'.nprocs = m.nprocs ∧
      ∃ l', Covers l' m' n lent live := by
  obtain ⟨hsingle, hprocs, hcase⟩ := h.backs.keeps.hoist hne hs
  refine ⟨hsingle, hprocs, ?_⟩
  rcases hcase with hkeeps | ⟨pid, hpid, hkeeps, hoff⟩
  · exact ⟨l, h.move hkeeps (SameOff.refl 0 l) (fun o c j hj => (h.backs.holds o c j hj).2.1)
      hsingle fun c q hq => ⟨c, hq⟩⟩
  · refine ⟨_, h.move hkeeps hoff (fun o c j hj => h.backs.ne_of_queued hpid hj) hsingle ?_⟩
    intro c q hq
    by_cases hqp : q = pid
    · subst hqp
      refine ⟨dst, ?_⟩
      simp only [enqueue, Function.update_self]
      exact List.mem_cons_self
    · -- another pid stays in its queue
      have hstays : q ∈ (l.dequeue src pid).queued c := by
        by_cases hc : c = src
        · subst hc
          simp only [dequeue, Function.update_self]
          exact (List.mem_erase_of_ne hqp).mpr hq
        · simp only [dequeue, Function.update_of_ne hc]
          exact hq
      refine ⟨c, ?_⟩
      by_cases hc : c = dst
      · subst hc
        simp only [enqueue, Function.update_self]
        exact List.mem_cons_of_mem _ hstays
      · simp only [enqueue, Function.update_of_ne hc]
        exact hstays

theorem keptByAccounting (cfg : Config) (m : Master) (n : Nat)
    (lent : η → Nat → SchedulerJob → Prop) (live : ULong → Prop) :
    KeptByAccounting cfg m.nprocs fun m' => (∃ l, Covers l m' n lent live) ∧
      m'.singleJobs = m.singleJobs ∧ m'.nprocs = m.nprocs where
  cached := fun _ hm => ⟨hm.2.2, hm.1.choose_spec.backs.keeps.cached⟩
  fields := by
    intro m' a b c hm hcached
    obtain ⟨⟨l, h⟩, hsingle, hprocs⟩ := hm
    have hkeeps : l.Keeps { m' with lastAccounting := a, lastMin := b, lastMinCd := c } n :=
      { h.backs.keeps with cached := fun hc => hprocs ▸ hcached hc }
    exact ⟨⟨l, { h.backs with keeps := hkeeps }, h.firm, h.located⟩, hsingle, hprocs⟩
  hoist := by
    intro m₁ m₂ src dst ptr hm hsrc hdst hne hs
    obtain ⟨⟨l, h⟩, hsingle, hprocs⟩ := hm
    obtain ⟨hsingle', hprocs', hl'⟩ := h.hoist hne hs
    exact ⟨hl', hsingle'.trans hsingle, hprocs'.trans hprocs⟩

theorem leastLoad (h : l.Covers m n lent live) (hs : m.selectCoreLeastLoad = some (m', dst)) :
    l.Covers m' n lent live := by
  obtain ⟨-, hcached, cd, rfl⟩ := selectCoreLeastLoad_spec h.backs.keeps.cached hs
  have hkeeps : l.Keeps { m with lastMin := dst, lastMinCd := cd } n :=
    { h.backs.keeps with cached := hcached }
  exact ⟨{ h.backs with keeps := hkeeps }, h.firm, h.located⟩

/-- A queued job leaves its queue and is lent. -/
theorem take (h : l.Covers m n lent live) (hq : job.pid ∈ l.queued core)
    (hkeeps : ((l.dequeue core job.pid).setOut core (job :: l.out core)).Keeps m' n)
    (hsingle : m'.singleJobs = m.singleJobs) (holder : η) :
    ((l.dequeue core job.pid).setOut core (job :: l.out core)).Covers m' n
      (lend lent holder core job) live := by
  have hne : ∀ o c j, lent o c j → j.pid ≠ job.pid := fun o c j hj => h.backs.ne_of_queued hq hj
  obtain ⟨h0, hlt⟩ := h.backs.keeps.range core _ (List.mem_append_left _ hq)
  have hoff : SameOff job.pid l ((l.dequeue core job.pid).setOut core (job :: l.out core)) :=
    (sameOff_dequeue l core job.pid).trans (sameOff_take _ core job)
  have hself : job ∈ ((l.dequeue core job.pid).setOut core (job :: l.out core)).out core := by
    simp only [setOut, Function.update_self]
    exact List.mem_cons_self
  have hbacks := h.backs.update hkeeps (Nat.le_refl n) hoff
    (fun o c j hj => ⟨hj, hne o c j hj⟩) hsingle
  refine ⟨hbacks.add (Or.inl ⟨job, hself, rfl, rfl⟩) h0 hlt (fun d hd => ?_)
    fun o c j hj hpid => absurd hpid (hne o c j hj), ?_, ?_⟩
  · rw [hsingle] at hd
    exact absurd hd (h.backs.keeps.single_ne hq d)
  · rintro o c j (hj | ⟨rfl, rfl, rfl⟩)
    · rw [hsingle]
      refine (h.firm o c j hj).imp_left fun hout => ?_
      obtain ⟨g, hg, hpid, hdata⟩ := hout
      exact ⟨g, hoff.out c g hg (hpid ▸ hne o c j hj), hpid, hdata⟩
    · exact Or.inl ⟨j, hself, rfl, rfl⟩
  · intro q hlive
    rw [Located, hsingle]
    rcases h.located q hlive with ⟨c, hc⟩ | ⟨o, c, j, hj, hpid⟩ | hs
    · by_cases hqj : q = job.pid
      · exact Or.inr (Or.inl ⟨holder, core, job, Or.inr ⟨rfl, rfl, rfl⟩, hqj.symm⟩)
      · refine Or.inl ⟨c, ?_⟩
        simp only [setOut, dequeue]
        by_cases hcc : c = core
        · subst hcc
          rw [Function.update_self]
          exact (List.mem_erase_of_ne hqj).mpr hc
        · rw [Function.update_of_ne hcc]
          exact hc
    · exact Or.inr (Or.inl ⟨o, c, j, Or.inl hj, hpid⟩)
    · exact Or.inr (Or.inr hs)

theorem selectOn (h : l.Covers m n lent live) (holder : η)
    (hs : m.selectOn cfg core job = some (m', job')) :
    (job'.pid = 0 ∧ ∃ l', Covers l' m' n lent live) ∨
      ∃ l', Covers l' m' n (lend lent holder core job') live := by
  by_cases hsingle : m.singleJobs core = 0
  · rw [Master.selectOn, if_neg (not_not_intro hsingle)] at hs
    obtain ⟨hsingle', -, hcase⟩ := h.backs.keeps.doselect hsingle hs
    rcases hcase with ⟨hpid, hkeeps⟩ | ⟨hq, hkeeps, -⟩
    · exact Or.inl ⟨hpid, l, h.move hkeeps (SameOff.refl 0 l)
        (fun o c j hj => (h.backs.holds o c j hj).2.1) hsingle' fun c q hq => ⟨c, hq⟩⟩
    · exact Or.inr ⟨_, h.take hq hkeeps hsingle' holder⟩
  · rw [Master.selectOn, if_pos hsingle] at hs
    cases hs
    obtain ⟨-, hnot, honly⟩ := h.backs.keeps.dedicated core hsingle
    refine Or.inr ⟨l, h.backs.add (Or.inr ⟨rfl, hnot⟩) hsingle (h.backs.keeps.bound core) honly
      fun _ _ _ _ _ => rfl, ?_, fun q hlive => ?_⟩
    · rintro o c j (hj | ⟨rfl, rfl, rfl⟩)
      · exact h.firm o c j hj
      · exact Or.inr rfl
    · rcases h.located q hlive with hq | ⟨o, c, j, hj, hpid⟩ | hs
      · exact Or.inl hq
      · exact Or.inr (Or.inl ⟨o, c, j, Or.inl hj, hpid⟩)
      · exact Or.inr (Or.inr hs)

theorem select (h : l.Covers m n lent live) (holder : η)
    (hs : m.masterSchedSelect cfg core job newTime ptrs = some (m', job')) :
    (job'.pid = 0 ∧ ∃ l', Covers l' m' n lent live) ∨
      ∃ l', Covers l' m' n (lend lent holder core job') live := by
  obtain ⟨m₁, hacc, hs⟩ := Option.bind_eq_some_iff.mp hs
  obtain ⟨⟨l₁, h₁⟩, -, -⟩ :=
    (keptByAccounting cfg m n lent live).account ⟨⟨l, h⟩, rfl, rfl⟩ hacc
  exact h₁.selectOn holder hs

/-- Dedicating a core that no other pid has to a new pid. -/
theorem dedicate (h : l.Covers m n lent live) (h0 : pid ≠ 0) (hpid : pid.toNat = n)
    (hunused : m.selectCoreUnused = some core) (hshared : m.singleJobs core = 0)
    (hold : ∀ o c j, lent o c j → j.pid ≠ pid)
    (hlive : ∀ q, live' q → (live q ∧ q ≠ 0) ∨ q = pid) :
    l.Covers (m.dedicate core pid) (n + 1) lent live' := by
  obtain ⟨-, -, hnone, -⟩ := selectCoreUnused_iff.mp hunused
  have hself : (m.dedicate core pid).singleJobs core = pid := by
    simp only [Master.dedicate, Function.update_self]
  have hoff : ∀ c, c ≠ core → (m.dedicate core pid).singleJobs c = m.singleJobs c := by
    intro c hc
    simp only [Master.dedicate, Function.update_of_ne hc]
  -- a core that was dedicated is another one
  have hkept : ∀ c, m.singleJobs c ≠ 0 →
      (m.dedicate core pid).singleJobs c = m.singleJobs c := by
    intro c hc
    refine hoff c ?_
    rintro rfl
    exact hc hshared
  have hbacks : l.Backs (m.dedicate core pid) (n + 1) lent := by
    refine ⟨h.backs.keeps.dedicate hpid hnone, fun o c j hj => ?_,
      fun o o' c c' j j' hj hj' hne hpids => ?_⟩
    · obtain ⟨hh, hj0, hlt, hd⟩ := h.backs.holds o c j hj
      refine ⟨hh, hj0, Nat.lt_succ_of_lt hlt, fun d hjd => ?_⟩
      by_cases hdc : d = core
      · subst hdc
        exact absurd (hjd.symm.trans hself) (hold o c j hj)
      · exact hd d ((hoff d hdc).symm.trans hjd)
    · obtain ⟨rfl, hs⟩ := h.backs.apart o o' c c' j j' hj hj' hne hpids
      refine ⟨rfl, ?_⟩
      rw [hkept c hs]
      exact hs
  refine ⟨hbacks, fun o c j hj => ?_, fun q hq => ?_⟩
  · refine (h.firm o c j hj).imp_right fun hs => ?_
    rw [hkept c (by rw [hs]; exact (h.backs.holds o c j hj).2.1)]
    exact hs
  · rcases hlive q hq with ⟨hq, hq0⟩ | rfl
    · refine (h.located q hq).imp_right fun hin => hin.imp_right fun hs => ?_
      obtain ⟨c, rfl⟩ := hs
      exact ⟨c, hkept c hq0⟩
    · exact Or.inr (Or.inr ⟨core, hself⟩)

/-- A new pid gets a core that no other pid has, or joins a queue. -/
theorem schedule (h : l.Covers m n lent live) (h0 : pid ≠ 0) (hpid : pid.toNat = n)
    (hfree : ∀ core, prio = .titanic → m.selectCoreUnused = some core → m.singleJobs core = 0)
    (hlive : ∀ q, live' q → (live q ∧ q ≠ 0) ∨ q = pid)
    (hs : m.masterSchedSchedule cfg ptr pid prio = some m') :
    ∃ l', Covers l' m' (n + 1) lent live' := by
  have hold : ∀ o c j, lent o c j → j.pid ≠ pid := by
    intro o c j hj he
    have hlt := (h.backs.holds o c j hj).2.2.1
    rw [he] at hlt
    omega
  rcases masterSchedSchedule_cases hs with ⟨hprio, target, hunused, rfl⟩ | ⟨-, hs⟩
  · exact ⟨l, h.dedicate h0 hpid hunused (hfree target hprio hunused) hold hlive⟩
  · obtain ⟨target, hsingle, -, hkeeps⟩ := h.backs.keeps.scheduleShared h0 hpid hs
    have hbacks := h.backs.update hkeeps (Nat.le_succ n) (sameOff_enqueue l target pid)
      (fun o c j hj => ⟨hj, hold o c j hj⟩) hsingle
    refine ⟨l.enqueue target pid, hbacks, fun o c j hj => ?_, fun q hq => ?_⟩
    · rw [hsingle]
      exact h.firm o c j hj
    · rw [Located, hsingle]
      have hstays : ∀ c, ∀ p ∈ l.queued c, p ∈ (l.enqueue target pid).queued c := by
        intro c p hp
        by_cases hc : c = target
        · subst hc
          simp only [enqueue, Function.update_self]
          exact List.mem_cons_of_mem _ hp
        · simp only [enqueue, Function.update_of_ne hc]
          exact hp
      rcases hlive q hq with ⟨hq, -⟩ | rfl
      · refine (h.located q hq).imp_left fun hin => ?_
        obtain ⟨c, hc⟩ := hin
        exact ⟨c, hstays c q hc⟩
      · refine Or.inl ⟨target, ?_⟩
        simp only [enqueue, Function.update_self]
        exact List.mem_cons_self

/-- A holder returns its job: it is queued, or it was and stays dedicated. -/
theorem reschedule (h : l.Covers m n lent live) (hj : lent holder core job₀)
    (hone : ∀ c j, lent holder c j → j.pid = job₀.pid)
    (hpid : job.pid = job₀.pid) (hdata : job.data = job₀.data)
    (hs : m.masterSchedReschedule cfg core job = some m') :
    ∃ l', Covers l' m' n (settle lent holder) live := by
  obtain ⟨-, h0, -, -⟩ := h.backs.holds holder core job₀ hj
  rcases h.firm holder core job₀ hj with ⟨g, hg, hgpid, hgdata⟩ | hsingle
  · obtain ⟨hsingle, -, hkeeps⟩ := h.backs.keeps.requeue hg (hpid.trans hgpid.symm)
      (hdata.trans hgdata.symm) (hgpid ▸ h0) hs
    have hshared := h.backs.keeps.shared_of_out hg
    -- another holder of the pid would sit on a dedicated core
    have hother : ∀ o c j, settle lent holder o c j → j.pid ≠ g.pid := by
      intro o c j hlent he
      obtain ⟨rfl, hne⟩ :=
        h.backs.apart o holder c core j job₀ hlent.1 hj hlent.2 (he.trans hgpid)
      exact hne hshared
    have hoff := sameOff_requeue l hg
    refine ⟨l.requeue core g, h.backs.update hkeeps (Nat.le_refl n) hoff
      (fun o c j hlent => ⟨hlent.1, hother o c j hlent⟩) hsingle, fun o c j hlent => ?_,
      fun q hq => ?_⟩
    · rw [hsingle]
      refine (h.firm o c j hlent.1).imp_left fun hout => ?_
      obtain ⟨g', hg', hpid', hdata'⟩ := hout
      exact ⟨g', hoff.out c g' hg' (hpid' ▸ hother o c j hlent), hpid', hdata'⟩
    · rw [Located, hsingle]
      rcases h.located q hq with ⟨c, hc⟩ | ⟨o, c, j, hlent, rfl⟩ | hs
      · exact Or.inl ⟨c, mem_requeue hc⟩
      · by_cases ho : o = holder
        · subst ho
          rw [hone c j hlent, ← hgpid]
          exact Or.inl ⟨core, mem_requeue_self⟩
        · exact Or.inr (Or.inl ⟨o, c, j, ⟨hlent, ho⟩, rfl⟩)
      · exact Or.inr (Or.inr hs)
  · rw [masterSchedReschedule, if_neg (by rw [hsingle]; exact h0)] at hs
    cases hs
    refine ⟨l, h.backs.sub id (fun o c j hlent => ⟨j, hlent.1, rfl, rfl⟩)
      fun _ _ _ _ _ _ _ _ he => he, fun o c j hlent => h.firm o c j hlent.1, fun q hq => ?_⟩
    rcases h.located q hq with hq | ⟨o, c, j, hlent, rfl⟩ | hs
    · exact Or.inl hq
    · by_cases ho : o = holder
      · subst ho
        exact Or.inr (Or.inr ⟨core, hsingle.trans (hone c j hlent).symm⟩)
      · exact Or.inr (Or.inl ⟨o, c, j, ⟨hlent, ho⟩, rfl⟩)
    · exact Or.inr (Or.inr hs)

/-- The only holder of a pid gives its job up. -/
theorem unschedule (h : l.Covers m n lent live) (hj : lent holder core job₀)
    (hone : ∀ c j, lent holder c j → j.pid = job₀.pid)
    (hother : ∀ o c j, settle lent holder o c j → j.pid ≠ job₀.pid)
    (hpid : job.pid = job₀.pid) (hdata : job.data = job₀.data)
    (hlive : ∀ q, live' q → live q ∧ q ≠ job₀.pid)
    (hs : m.masterSchedUnschedule cfg core job = some m') :
    ∃ l', Covers l' m' n (settle lent holder) live' := by
  obtain ⟨-, h0, -, -⟩ := h.backs.holds holder core job₀ hj
  -- a pid that lives on is not the one that leaves
  have hlent : ∀ q, live' q → (∃ o c j, lent o c j ∧ j.pid = q) →
      ∃ o c j, settle lent holder o c j ∧ j.pid = q := by
    rintro q hq ⟨o, c, j, hlent, rfl⟩
    refine ⟨o, c, j, ⟨hlent, ?_⟩, rfl⟩
    rintro rfl
    exact (hlive j.pid hq).2 (hone c j hlent)
  rcases h.firm holder core job₀ hj with ⟨g, hg, hgpid, hgdata⟩ | hsingle
  · obtain ⟨hsingle, -, hkeeps⟩ := h.backs.keeps.drop hg (hpid.trans hgpid.symm)
      (hdata.trans hgdata.symm) (hgpid ▸ h0) hs
    have hoff := sameOff_erase l hg
    have hne : ∀ o c j, settle lent holder o c j → j.pid ≠ g.pid := by
      intro o c j hlent
      rw [hgpid]
      exact hother o c j hlent
    refine ⟨_, h.backs.update hkeeps (Nat.le_refl n) hoff
      (fun o c j hlent => ⟨hlent.1, hne o c j hlent⟩) hsingle, fun o c j hlent => ?_,
      fun q hq => ?_⟩
    · rw [hsingle]
      refine (h.firm o c j hlent.1).imp_left fun hout => ?_
      obtain ⟨g', hg', hpid', hdata'⟩ := hout
      exact ⟨g', hoff.out c g' hg' (hpid' ▸ hne o c j hlent), hpid', hdata'⟩
    · rw [Located, hsingle]
      exact (h.located q (hlive q hq).1).imp_right fun hin => hin.imp_left (hlent q hq)
  · rw [masterSchedUnschedule, if_pos (by rw [hsingle]; exact h0)] at hs
    cases hs
    have hoff : ∀ c, c ≠ core →
        Function.update m.singleJobs core 0 c = m.singleJobs c :=
      fun c hc => Function.update_of_ne hc _ _
    -- nobody else has the pid the core was dedicated to
    have hne : ∀ o c j, settle lent holder o c j → m.singleJobs c = j.pid → c ≠ core := by
      rintro o c j hlent hs rfl
      exact hother o c j hlent (hs.symm.trans hsingle)
    have hbacks : l.Backs { m with
        singleJobs := Function.update m.singleJobs core 0
        jobcounts := Function.update m.jobcounts core 0 } n (settle lent holder) := by
      refine ⟨h.backs.keeps.release core _, fun o c j hlent => ?_,
        fun o o' c c' j j' hlent hlent' ho hpids => ?_⟩
      · obtain ⟨hh, hj0, hlt, hd⟩ := h.backs.holds o c j hlent.1
        refine ⟨hh, hj0, hlt, fun d hjd => ?_⟩
        by_cases hdc : d = core
        · subst hdc
          exact absurd ((Function.update_self ..).symm.trans hjd) hj0.symm
        · exact hd d ((hoff d hdc).symm.trans hjd)
      · obtain ⟨rfl, hs⟩ := h.backs.apart o o' c c' j j' hlent.1 hlent'.1 ho hpids
        refine ⟨rfl, ?_⟩
        have hc : c ≠ core := by
          rintro rfl
          rcases h.firm o c j hlent.1 with ⟨g, hg, -⟩ | hcj
          · exact hs (h.backs.keeps.shared_of_out hg)
          · exact hne o c j hlent hcj rfl
        dsimp only
        rw [hoff c hc]
        exact hs
    refine ⟨l, hbacks, fun o c j hlent => ?_, fun q hq' => ?_⟩
    · refine (h.firm o c j hlent.1).imp_right fun hs => ?_
      exact (hoff c (hne o c j hlent hs)).trans hs
    · obtain ⟨hq, hqne⟩ := hlive q hq'
      rcases h.located q hq with hin | hin | ⟨c, hc⟩
      · exact Or.inl hin
      · exact Or.inr (Or.inl (hlent q hq' hin))
      · refine Or.inr (Or.inr ⟨c, (hoff c ?_).trans hc⟩)
        rintro rfl
        exact hqne (hc.symm.trans hsingle)

end Covers

end

end Ledger

end Yarns.Master
