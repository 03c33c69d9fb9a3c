import Yarns.Sched.CoreLocks
import Yarns.Sched.MasterRuns

/-!
# Jobs on their way

Between its first access and the last one under a lock, a call of the master scheduler
carries a job: a new pid that is going to be queued, or a job of a core that goes back to
it. `Tracks` says where every pid is while any number of calls are under way: with one of
the calls, queued on one core, or handed out by one core. It is stated for any carriers,
and its lemmas say what one critical section does; the counters stay those of
`Master.Client.Inv`.
-/

namespace Yarns

open Base Master

/-- What a call is still to do with a job. -/
inductive Errand where
  | enter (pid : ULong)
  | requeue (core : Nat) (job : SchedulerJob)
  | drop (core : Nat) (job : SchedulerJob)
  deriving DecidableEq

namespace Errand

def pid : Errand → ULong
  | enter pid => pid
  | requeue _ job | drop _ job => job.pid

/-- The job that goes back to a core. -/
def returned : Errand → Option (Nat × SchedulerJob)
  | enter _ => none
  | requeue core job | drop core job => some (core, job)

/-- The live pids once a call has begun. -/
def mark (live : ULong → Bool) : Errand → ULong → Bool
  | enter pid => Function.update live pid true
  | requeue _ _ => live
  | drop _ job => Function.update live job.pid false

end Errand

namespace Errand

/-- It ends the life of `pid`. -/
def Drops (e : Errand) (pid : ULong) : Prop := ∃ core job, e = drop core job ∧ job.pid = pid

/-- It takes a job with this pid back to core `c`. -/
def Brings (e : Errand) (c : Nat) (pid : ULong) : Prop :=
  ∃ job, e.returned = some (c, job) ∧ job.pid = pid

theorem Drops.pid_eq {e : Errand} {p : ULong} (h : e.Drops p) : e.pid = p := by
  obtain ⟨core, job, rfl, hpid⟩ := h
  exact hpid

theorem Brings.pid_eq {e : Errand} {c : Nat} {p : ULong} (h : e.Brings c p) : e.pid = p := by
  obtain ⟨job, hret, hpid⟩ := h
  cases e with
  | enter => cases hret
  | requeue | drop =>
    cases hret
    exact hpid

end Errand

/-- Some call carries an errand with this property. -/
def Carries {ι : Type} (carried : ι → Option Errand) (P : Errand → Prop) : Prop :=
  ∃ i e, carried i = some e ∧ P e

/-- `st` is the client to whom every job is out that is handed out or on its way back.
`out` are the jobs that no call has taken back, `live` the pids that were given to a
`master_sched_schedule` and not yet to a `master_sched_unschedule`. -/
structure Tracks {ι : Type} (carried : ι → Option Errand) (out : Nat → List SchedulerJob)
    (live : ULong → Bool) (st : Client) (queued : Nat → List ULong) : Prop where
  inv : st.Inv True queued
  kept : ∀ c, ∀ g ∈ out c, g ∈ st.out c
  returns : ∀ i e, carried i = some e → ∀ c job, e.returned = some (c, job) →
    c < st.master.nprocs ∧ ∃ g ∈ st.out c, job.Returns g ∧ g ∉ out c
  held : ∀ c, ∀ g ∈ st.out c, g ∈ out c ∨ Carries carried fun e => e.Brings c g.pid
  apart : ∀ i j e e', carried i = some e → carried j = some e' → e.pid = e'.pid → i = j
  fresh : ∀ i e, carried i = some e → ∀ pid, e = .enter pid → pid ≠ 0 ∧ pid ∉ st.pids
  alive : ∀ pid, live pid = true ↔
    pid ∈ st.pids ∧ ¬ Carries carried (fun e => e.Drops pid) ∨
      Carries carried fun e => e = .enter pid

namespace Master.Client

variable {cfg : Config} {counting : Prop} {st : Client} {m : Master} {queued : Nat → List ULong}
  {core c d : Nat} {pid ptr : ULong} {prio : SchedulerPriority} {job g g' : SchedulerJob}

/-- The cache of `select_core_least_load` is not in the books. -/
theorem Inv.setCache (h : st.Inv counting queued) (time : ULong) (min cd : Nat)
    (hmin : min < st.master.nprocs) :
    Inv counting { st with master := { st.master with
      lastAccounting := time, lastMin := min, lastMinCd := cd } } queued :=
  { h with cached := fun _ => hmin }

theorem scheduleOn_cache (m : Master) (min cd : Nat) :
    scheduleOn cfg { m with lastMin := min, lastMinCd := cd } core ptr pid prio =
      (m.scheduleOn cfg core ptr pid prio).map fun m' =>
        { m' with lastMin := min, lastMinCd := cd } := by
  cases hcore : m.schedulers core with
  | none =>
    simp only [scheduleOn, schedulerForCore, hcore]
    cases (allocateSchedByNumber cfg m.secSchedType).schedule cfg ptr pid prio <;> rfl
  | some s =>
    simp only [scheduleOn, schedulerForCore, hcore]
    cases s.schedule cfg ptr pid prio <;> rfl

/-- The new pid is queued on any core, as if the cache had chosen that core. -/
theorem Inv.scheduleOn (h : st.Inv counting queued) (hcore : core < st.master.nprocs)
    (h0 : pid ≠ 0) (hfresh : pid ∉ st.pids) (hmin : m.lastMin < m.nprocs)
    (hs : st.master.scheduleOn cfg core ptr pid prio = some m) :
    ∃ queued', Inv counting { st with master := m, live := (pid, prio) :: st.live } queued' := by
  have hchosen : Master.scheduleShared cfg { st.master with lastMin := core, lastMinCd := 1 }
      ptr pid prio = some { m with lastMin := core, lastMinCd := 0 } := by
    have hleast : selectCoreLeastLoad { st.master with lastMin := core, lastMinCd := 1 } =
        some ({ st.master with lastMin := core, lastMinCd := 0 }, core) := rfl
    rw [scheduleShared_eq, hleast, Option.bind_some, scheduleOn_cache, hs]
    rfl
  obtain ⟨queued', hinv, -⟩ :=
    (h.setCache st.master.lastAccounting core 1 hcore).scheduleShared h0 hfresh hchosen
  exact ⟨queued', hinv.setCache m.lastAccounting m.lastMin m.lastMinCd hmin⟩

end Master.Client

namespace Tracks

variable {ι : Type} {cfg : Config} {carried : ι → Option Errand} {out : Nat → List SchedulerJob}
  {live : ULong → Bool} {st : Client} {m : Master} {queued : Nat → List ULong} {i : ι}
  {e : Errand} {core src dst c d : Nat} {pid ptr : ULong} {prio : SchedulerPriority}
  {job job' g g' : SchedulerJob}

theorem shared (h : Tracks carried out live st queued) (c : Nat) : st.master.singleJobs c = 0 :=
  h.inv.shared trivial c

theorem pid_mem (h : Tracks carried out live st queued) (hc : c < st.master.nprocs)
    (hg : g ∈ st.out c) : g.pid ∈ st.pids :=
  h.inv.live_of_held hc (Client.mem_held_of_out (h.shared c) hg)

/-- The pids at one core are different. -/
theorem held_nodup (h : Tracks carried out live st queued) (hc : c < st.master.nprocs) :
    (queued c ++ (st.out c).map SchedulerJob.pid).Nodup := by
  rw [← Client.held_of_shared (h.shared c)]
  exact slot_nodup (h.inv.tally.placed.nodup_iff.mpr h.inv.distinct) (List.mem_range.mpr hc)

/-- A pid is at one core. -/
theorem core_unique (h : Tracks carried out live st queued) (hc : c < st.master.nprocs)
    (hd : d < st.master.nprocs) (hpc : pid ∈ queued c ++ (st.out c).map SchedulerJob.pid)
    (hpd : pid ∈ queued d ++ (st.out d).map SchedulerJob.pid) : c = d := by
  rw [← Client.held_of_shared (h.shared c)] at hpc
  rw [← Client.held_of_shared (h.shared d)] at hpd
  exact slot_unique (h.inv.tally.placed.nodup_iff.mpr h.inv.distinct) (List.mem_range.mpr hc)
    (List.mem_range.mpr hd) hpc hpd

/-- A pid is out once. -/
theorem out_unique (h : Tracks carried out live st queued) (hc : c < st.master.nprocs)
    (hd : d < st.master.nprocs) (hg : g ∈ st.out c) (hg' : g' ∈ st.out d)
    (hpid : g.pid = g'.pid) : c = d ∧ g = g' := by
  have hcd : c = d := by
    refine h.core_unique hc hd (List.mem_append_right _ (List.mem_map_of_mem hg)) ?_
    rw [hpid]
    exact List.mem_append_right _ (List.mem_map_of_mem hg')
  subst hcd
  exact ⟨rfl, List.inj_on_of_nodup_map (List.nodup_append'.mp (h.held_nodup hc)).2.1 hg hg' hpid⟩

/-- A queued pid is not out. -/
theorem not_out (h : Tracks carried out live st queued) (hc : c < st.master.nprocs)
    (hd : d < st.master.nprocs) (hq : pid ∈ queued c) (hg : g ∈ st.out d) : g.pid ≠ pid := by
  rintro rfl
  have hmem := List.mem_map_of_mem (f := SchedulerJob.pid) hg
  obtain rfl := h.core_unique hc hd (List.mem_append_left _ hq) (List.mem_append_right _ hmem)
  exact (List.nodup_append'.mp (h.held_nodup hc)).2.2 hq hmem

/-! ## Calls begin -/

section

variable [DecidableEq ι]

theorem forall_begin {P : Errand → Prop} (he : P e) (h : ∀ j e', carried j = some e' → P e') :
    ∀ j e', Function.update carried i (some e) j = some e' → P e' := by
  refine forall_update (P := fun _ x => ∀ e', x = some e' → P e') (fun j _ => h j) ?_
  rintro e' ⟨⟩
  exact he

theorem carries_begin (hi : carried i = none) {P : Errand → Prop} :
    Carries (Function.update carried i (some e)) P ↔ P e ∨ Carries carried P := by
  rw [Carries, exists_update (P := fun x => ∃ e', x = some e' ∧ P e')]
  refine or_congr ⟨?_, fun he => ⟨e, rfl, he⟩⟩
    ⟨fun ⟨j, _, hj⟩ => ⟨j, hj⟩, fun ⟨j, hj⟩ => ⟨j, ?_, hj⟩⟩
  · rintro ⟨e', he', hP⟩
    cases he'
    exact hP
  · rintro rfl
    obtain ⟨e', he', -⟩ := hj
    rw [hi] at he'
    cases he'

/-- The pid of a new errand is that of no other. -/
theorem apart_begin (h : Tracks carried out live st queued)
    (hno : ¬ Carries carried fun e' => e'.pid = e.pid) (j k : ι) (f f' : Errand)
    (hj : Function.update carried i (some e) j = some f)
    (hk : Function.update carried i (some e) k = some f') (hpid : f.pid = f'.pid) : j = k := by
  rw [Function.update_apply] at hj hk
  split at hj <;> split at hk
  next hji hki => rw [hji, hki]
  next =>
    cases hj
    exact absurd ⟨k, f', hk, hpid.symm⟩ hno
  next =>
    cases hk
    exact absurd ⟨j, f, hj, hpid⟩ hno
  next => exact h.apart j k f f' hj hk hpid

/-- A call brings a pid that is nowhere. -/
theorem enter (h : Tracks carried out live st queued) (hi : carried i = none) (h0 : pid ≠ 0)
    (hlive : live pid = false) (hno : ¬ Carries carried fun e => e.pid = pid) :
    Tracks (Function.update carried i (some (.enter pid))) out (Function.update live pid true) st
      queued := by
  have hnew : pid ∉ st.pids := by
    intro hmem
    have hdead := (h.alive pid).not.mp (by rw [hlive]; exact Bool.false_ne_true)
    exact hdead (Or.inl ⟨hmem, fun ⟨j, e, hj, hdrop⟩ => hno ⟨j, e, hj, hdrop.pid_eq⟩⟩)
  refine { h with
    returns := forall_begin (fun c job hret => by cases hret) h.returns
    held := fun c g hg => (h.held c g hg).imp_right fun hc => (carries_begin hi).mpr (Or.inr hc)
    apart := h.apart_begin hno
    fresh := forall_begin (fun q hq => by cases hq; exact ⟨h0, hnew⟩) h.fresh
    alive := fun q => ?_ }
  rw [carries_begin hi, carries_begin hi]
  by_cases hq : q = pid
  · subst hq
    rw [Function.update_self]
    exact iff_of_true rfl (Or.inr (Or.inl rfl))
  · rw [Function.update_of_ne hq, h.alive q]
    have hdrop : ¬ (Errand.enter pid).Drops q := fun hd => hq hd.pid_eq.symm
    have henter : Errand.enter pid ≠ .enter q := fun he => hq (Errand.enter.inj he).symm
    tauto

/-- A call takes a job back that was handed out. -/
theorem takeBack (h : Tracks carried out live st queued) (hi : carried i = none)
    (hret : e.returned = some (core, job)) (hcore : core < st.master.nprocs)
    (hg : g ∈ out core) (hjob : job.Returns g) :
    Tracks (Function.update carried i (some e))
      (Function.update out core ((out core).filter fun g => g.pid ≠ job.pid))
      (e.mark live) st queued := by
  have hgst := h.kept core g hg
  have hpid : e.pid = g.pid := by
    rw [← hjob.1]
    exact Errand.Brings.pid_eq ⟨job, hret, rfl⟩
  -- nobody else carries the pid
  have hno : ¬ Carries carried fun e' => e'.pid = e.pid := by
    rintro ⟨j, e', hj, he'⟩
    have hgone : ∀ c job', e'.returned = some (c, job') → False := by
      intro c job' hret'
      obtain ⟨hc, g', hg', hjob', hnot⟩ := h.returns j e' hj c job' hret'
      have hpid' : g'.pid = g.pid := by
        rw [← hjob'.1, ← hpid, ← he']
        exact (Errand.Brings.pid_eq ⟨job', hret', rfl⟩).symm
      obtain ⟨rfl, rfl⟩ := h.out_unique hc hcore hg' hgst hpid'
      exact hnot hg
    cases e' with
    | enter pid =>
      refine (h.fresh j _ hj pid rfl).2 ?_
      have he' : pid = e.pid := he'
      rw [he', hpid]
      exact h.pid_mem hcore hgst
    | requeue c job' => exact hgone c job' rfl
    | drop c job' => exact hgone c job' rfl
  have hsub : ∀ c, ∀ g' ∈ Function.update out core ((out core).filter fun g => g.pid ≠ job.pid) c,
      g' ∈ out c := by
    intro c g' hg'
    by_cases hc : c = core
    · subst hc
      rw [Function.update_self] at hg'
      exact List.mem_of_mem_filter hg'
    · rwa [Function.update_of_ne hc] at hg'
  refine { h with
    kept := fun c g' hg' => h.kept c g' (hsub c g' hg')
    returns := forall_begin (fun c job' hret' => ?_) fun j e' hj c job' hret' => ?_
    held := fun c g' hg' => ?_
    apart := h.apart_begin hno
    fresh := forall_begin (fun q hq => ?_) h.fresh
    alive := fun q => ?_ }
  · cases hret.symm.trans hret'
    refine ⟨hcore, g, hgst, hjob, ?_⟩
    rw [Function.update_self]
    intro hmem
    have hne := (List.mem_filter.mp hmem).2
    simp [hjob.1] at hne
  · obtain ⟨hc, g', hg', hjob', hnot⟩ := h.returns j e' hj c job' hret'
    exact ⟨hc, g', hg', hjob', fun hmem => hnot (hsub c g' hmem)⟩
  · rcases h.held c g' hg' with hmem | hc
    · by_cases hout : g' ∈ Function.update out core
          ((out core).filter fun g => g.pid ≠ job.pid) c
      · exact Or.inl hout
      · -- it is the one that is taken back
        refine Or.inr ((carries_begin hi).mpr (Or.inl ⟨job, ?_⟩))
        by_cases hcc : c = core
        · subst hcc
          rw [Function.update_self, List.mem_filter] at hout
          refine ⟨hret, ?_⟩
          by_contra hne
          exact hout ⟨hmem, decide_eq_true fun he => hne he.symm⟩
        · rw [Function.update_of_ne hcc] at hout
          exact absurd hmem hout
    · exact Or.inr ((carries_begin hi).mpr (Or.inr hc))
  · subst hq
    cases hret
  · have hmem := h.pid_mem hcore hgst
    have henter : ¬ Carries carried fun e' => e' = .enter g.pid := by
      rintro ⟨j, e', hj, rfl⟩
      exact hno ⟨j, _, hj, hpid.symm⟩
    rw [carries_begin hi, carries_begin hi]
    cases e with
    | enter => cases hret
    | requeue c' job' =>
      have hdrop : ¬ (Errand.requeue c' job').Drops q := by
        rintro ⟨_, _, he, -⟩
        cases he
      have henter : Errand.requeue c' job' ≠ .enter q := Errand.noConfusion
      have hq := h.alive q
      rw [Errand.mark]
      tauto
    | drop c' job' =>
      cases hret
      rw [Errand.mark]
      by_cases hq : q = job.pid
      · subst hq
        rw [Function.update_self]
        refine iff_of_false Bool.false_ne_true ?_
        rintro (⟨-, hdrop⟩ | he | hc)
        · exact hdrop (Or.inl ⟨core, job, rfl, rfl⟩)
        · cases he
        · exact henter (hjob.1 ▸ hc)
      · rw [Function.update_of_ne hq]
        have hdrop : ¬ (Errand.drop core job).Drops q := fun hd => hq hd.pid_eq.symm
        have henter : Errand.drop core job ≠ .enter q := Errand.noConfusion
        have hq := h.alive q
        tauto

/-! ## Critical sections -/

theorem forall_end {P : Errand → Prop} (h : ∀ j e', carried j = some e' → P e') :
    ∀ j e', Function.update carried i none j = some e' → P e' := by
  refine forall_update (P := fun _ x => ∀ e', x = some e' → P e') (fun j _ => h j) ?_
  rintro e' ⟨⟩

theorem apart_end (h : Tracks carried out live st queued) (j k : ι) (f f' : Errand)
    (hj : Function.update carried i none j = some f)
    (hk : Function.update carried i none k = some f') (hpid : f.pid = f'.pid) : j = k := by
  rw [Function.update_apply] at hj hk
  split at hj <;> split at hk
  next => cases hj
  next => cases hj
  next => cases hk
  next => exact h.apart j k f f' hj hk hpid

theorem carries_end (hi : carried i = some e) {P : Errand → Prop} (hP : ¬ P e) :
    Carries (Function.update carried i none) P ↔ Carries carried P := by
  constructor
  · rintro ⟨j, e', hj, he'⟩
    rw [Function.update_apply] at hj
    split at hj
    next => cases hj
    next => exact ⟨j, e', hj, he'⟩
  · rintro ⟨j, e', hj, he'⟩
    refine ⟨j, e', ?_, he'⟩
    rw [Function.update_of_ne, hj]
    rintro rfl
    cases hi.symm.trans hj
    exact hP he'

/-- Nobody else has an errand with this pid. -/
theorem not_carries_end (h : Tracks carried out live st queued) (hi : carried i = some e)
    {P : Errand → Prop} (hP : ∀ e', P e' → e'.pid = e.pid) :
    ¬ Carries (Function.update carried i none) P := by
  rintro ⟨j, e', hj, he'⟩
  rw [Function.update_apply] at hj
  split at hj
  next => cases hj
  next hji => exact hji (h.apart j i e' e hj hi (hP e' he'))

/-- A new pid is queued. -/
theorem entered (h : Tracks carried out live st queued) (hi : carried i = some (.enter pid))
    (hcore : core < st.master.nprocs) (hmin : m.lastMin < m.nprocs)
    (hn : m.nprocs = st.master.nprocs)
    (hs : st.master.scheduleOn cfg core ptr pid prio = some m) :
    ∃ queued', Tracks (Function.update carried i none) out live
      { st with master := m, live := (pid, prio) :: st.live } queued' := by
  obtain ⟨h0, hnew⟩ := h.fresh i _ hi pid rfl
  obtain ⟨queued', hinv⟩ := h.inv.scheduleOn hcore h0 hnew hmin hs
  refine ⟨queued', hinv, h.kept, forall_end (hn ▸ h.returns), fun c g hg => ?_, h.apart_end,
    fun j e hj q hq => ?_, fun q => ?_⟩
  · refine (h.held c g hg).imp_right (carries_end hi ?_).mpr
    rintro ⟨job, hret, -⟩
    cases hret
  · subst hq
    rw [Function.update_apply] at hj
    split at hj
    next => cases hj
    next hji =>
      obtain ⟨hq0, hq⟩ := h.fresh j _ hj q rfl
      refine ⟨hq0, fun hmem => ?_⟩
      rcases List.mem_cons.mp hmem with rfl | hmem
      · exact hji (h.apart j i _ _ hj hi rfl)
      · exact hq hmem
  · rw [h.alive q]
    by_cases hq : q = pid
    · subst hq
      refine iff_of_true (Or.inr ⟨i, _, hi, rfl⟩) (Or.inl ⟨List.mem_cons_self, ?_⟩)
      exact h.not_carries_end hi fun e' he' => he'.pid_eq
    · rw [carries_end hi fun hd => hq hd.pid_eq.symm,
        carries_end (P := fun e => e = .enter q) hi fun he => hq (Errand.enter.inj he).symm]
      refine or_congr (and_congr_left fun _ => ?_) Iff.rfl
      exact ⟨List.mem_cons_of_mem _, fun hmem => (List.mem_cons.mp hmem).resolve_left hq⟩

/-- What an errand has brought back is out no longer. -/
theorem brought (h : Tracks carried out live st queued) (hi : carried i = some e)
    (hret : e.returned = some (core, job)) (hcore : core < st.master.nprocs)
    (hg : g ∈ st.out core) (hjob : job.Returns g) (hnot : g ∉ out core) {st' : Client}
    {queued' : Nat → List ULong} (hinv : st'.Inv True queued')
    (hn : st'.master.nprocs = st.master.nprocs)
    (hout : ∀ c g', g' ∈ st'.out c ↔ g' ∈ st.out c ∧ (c = core → g'.pid ≠ g.pid))
    (hpids : ∀ q ∈ st'.pids, q ∈ st.pids)
    (halive : ∀ q, q ∈ st'.pids ∧ ¬ Carries (Function.update carried i none) (fun e => e.Drops q) ↔
      q ∈ st.pids ∧ ¬ Carries carried fun e => e.Drops q) :
    Tracks (Function.update carried i none) out live st' queued' := by
  have hpid : e.pid = g.pid := by
    rw [← hjob.1]
    exact Errand.Brings.pid_eq ⟨job, hret, rfl⟩
  refine ⟨hinv, fun c g' hg' => ?_, fun j e' hj c job' hret' => ?_, fun c g' hg' => ?_, h.apart_end,
    forall_end fun j e' hj q hq => ?_, fun q => ?_⟩
  · have hg'' := h.kept c g' hg'
    refine (hout c g').mpr ⟨hg'', ?_⟩
    rintro rfl he
    obtain ⟨-, rfl⟩ := h.out_unique hcore hcore hg'' hg he
    exact hnot hg'
  · rw [Function.update_apply] at hj
    split at hj
    next => cases hj
    next hji =>
      obtain ⟨hc, g', hg', hjob', hnot'⟩ := h.returns j e' hj c job' hret'
      refine ⟨hn ▸ hc, g', (hout c g').mpr ⟨hg', fun _ he => hji ?_⟩, hjob', hnot'⟩
      refine h.apart j i e' e hj hi ?_
      rw [hpid, ← he, ← hjob'.1]
      exact Errand.Brings.pid_eq ⟨job', hret', rfl⟩
  · obtain ⟨hg', hne⟩ := (hout c g').mp hg'
    rcases h.held c g' hg' with hmem | ⟨j, e', hj, hbrings⟩
    · exact Or.inl hmem
    · refine Or.inr ⟨j, e', ?_, hbrings⟩
      rw [Function.update_of_ne, hj]
      rintro rfl
      cases hi.symm.trans hj
      obtain ⟨job', hret', hpid'⟩ := hbrings
      cases hret.symm.trans hret'
      exact hne rfl (hpid'.symm.trans hjob.1)
  · obtain ⟨h0, hnew⟩ := h.fresh j e' hj q hq
    exact ⟨h0, fun hmem => hnew (hpids q hmem)⟩
  · rw [halive q, carries_end hi, h.alive q]
    rintro rfl
    cases hret

/-- A job is queued on its core again. -/
theorem requeued (h : Tracks carried out live st queued)
    (hi : carried i = some (.requeue core job)) (hn : m.nprocs = st.master.nprocs)
    (hs : st.master.rescheduleOn cfg core job = some m) :
    ∃ st' queued', st'.master = m ∧
      Tracks (Function.update carried i none) out live st' queued' := by
  obtain ⟨hcore, g, hg, hjob, hnot⟩ := h.returns i _ hi core job rfl
  rw [← masterSchedReschedule_eq (h.shared core)] at hs
  obtain ⟨queued', hinv, -⟩ := h.inv.reschedule hcore hg hjob hs
  refine ⟨_, queued', rfl, h.brought hi rfl hcore hg hjob hnot hinv hn (fun c g' => ?_)
    (fun _ hq => hq) fun q => ?_⟩
  · dsimp only
    by_cases hc : c = core
    · subst hc
      have hnd := (List.nodup_append'.mp (h.held_nodup hcore)).2.1.of_map
      rw [Function.update_self, hnd.mem_erase_iff, and_comm]
      refine and_congr_right fun hg' => ?_
      constructor
      · exact fun hne _ he => hne (h.out_unique hcore hcore hg' hg he).2
      · rintro hne rfl
        exact hne rfl rfl
    · rw [Function.update_of_ne hc]
      exact (and_iff_left fun he => absurd he hc).symm
  · rw [carries_end hi]
    · exact Iff.rfl
    · rintro ⟨_, _, he, -⟩
      cases he

/-- A job leaves its core. -/
theorem dropped (h : Tracks carried out live st queued)
    (hi : carried i = some (.drop core job)) (hn : m.nprocs = st.master.nprocs)
    (hs : st.master.unscheduleOn cfg core job = some m) :
    ∃ st' queued', st'.master = m ∧
      Tracks (Function.update carried i none) out live st' queued' := by
  obtain ⟨hcore, g, hg, hjob, hnot⟩ := h.returns i _ hi core job rfl
  rw [← masterSchedUnschedule_eq (h.shared core)] at hs
  obtain ⟨hinv, -⟩ := h.inv.unschedule hcore hg hjob hs
  have hpids : ∀ q, q ∈ (st.live.filter fun l => l.1 ≠ g.pid).map Prod.fst ↔
      q ∈ st.pids ∧ q ≠ g.pid := by
    intro q
    simp only [Client.pids, List.mem_map, List.mem_filter, decide_eq_true_eq]
    constructor
    · rintro ⟨l, ⟨hl, hne⟩, rfl⟩
      exact ⟨⟨l, hl, rfl⟩, hne⟩
    · rintro ⟨⟨l, hl, rfl⟩, hne⟩
      exact ⟨l, ⟨hl, hne⟩, rfl⟩
  refine ⟨_, queued, rfl, h.brought hi rfl hcore hg hjob hnot hinv hn (fun c g' => ?_)
    (fun q hq => ((hpids q).mp hq).1) fun q => ?_⟩
  · dsimp only
    by_cases hc : c = core
    · subst hc
      rw [Function.update_self, List.mem_filter]
      simp
    · rw [Function.update_of_ne hc]
      exact (and_iff_left fun he => absurd he hc).symm
  · have hmem := hpids q
    by_cases hq : q = g.pid
    · subst hq
      refine iff_of_false (fun hq => (hmem.mp hq.1).2 rfl) fun hq => hq.2 ?_
      exact ⟨i, _, hi, core, job, rfl, hjob.1⟩
    · rw [carries_end hi]
      · refine and_congr_left fun _ => ?_
        exact hmem.trans (and_iff_left hq)
      · intro hd
        exact hq (hd.pid_eq.symm.trans hjob.1)

end

/-- A select hands a job out, or none. -/
theorem selected (h : Tracks carried out live st queued) (hcore : core < st.master.nprocs)
    (hs : st.master.doselect cfg core job = some (m, job')) :
    ∃ st' queued', st'.master = m ∧
      Tracks carried (if job'.pid = 0 then out else Function.update out core (job' :: out core))
        live st' queued' := by
  have hsel : st.master.selectOn cfg core job = some (m, job') := by
    rw [Master.selectOn, if_neg (not_not_intro (h.shared core)), hs]
  obtain ⟨queued', hinv, -⟩ := h.inv.selectOn hcore hsel
  obtain ⟨hm, hcase⟩ := doselect_spec h.inv.books hs
  have hn : m.nprocs = st.master.nprocs := by rw [hm]
  by_cases h0 : job'.pid = 0
  · rw [if_pos h0] at hinv ⊢
    exact ⟨_, queued', rfl, { h with inv := hinv, returns := hn ▸ h.returns }⟩
  · rw [if_neg h0] at hinv ⊢
    have hmem : job'.pid ∈ queued core := (hcase.resolve_left fun hc => h0 hc.1).2.1
    -- the job was queued, so it was not out
    have hnew : ∀ c < st.master.nprocs, ∀ g ∈ st.out c, g ≠ job' := by
      rintro c hc g hg rfl
      exact h.not_out hcore hc hmem hg rfl
    have hcons : ∀ (f : Nat → List SchedulerJob) c g,
        g ∈ Function.update f core (job' :: f core) c ↔ c = core ∧ g = job' ∨ g ∈ f c := by
      intro f c g
      by_cases hc : c = core
      · subst hc
        rw [Function.update_self, List.mem_cons]
        exact or_congr (and_iff_right rfl).symm Iff.rfl
      · rw [Function.update_of_ne hc]
        exact (or_iff_right fun he => hc he.1).symm
    refine ⟨_, queued', rfl, { h with
      inv := hinv
      kept := fun c g hg => (hcons _ c g).mpr (((hcons _ c g).mp hg).imp_right (h.kept c g))
      returns := fun i e hi c job hret => ?_
      held := fun c g hg => ?_ }⟩
    · obtain ⟨hc, g, hg, hjob, hnot⟩ := h.returns i e hi c job hret
      refine ⟨hn ▸ hc, g, (hcons _ c g).mpr (Or.inr hg), hjob, fun hg' => ?_⟩
      rcases (hcons _ c g).mp hg' with ⟨-, he⟩ | hg'
      · exact hnew c hc g hg he
      · exact hnot hg'
    · rcases (hcons _ c g).mp hg with hnew | hg
      · exact Or.inl ((hcons _ c g).mpr (Or.inl hnew))
      · exact (h.held c g hg).imp_left fun hg => (hcons _ c g).mpr (Or.inr hg)

/-- A job of one core is queued on another. -/
theorem hoisted (h : Tracks carried out live st queued) (hsrc : src < st.master.nprocs)
    (hdst : dst < st.master.nprocs) (hne : src ≠ dst)
    (hs : st.master.jobHoist cfg src dst ptr = some m) :
    ∃ st' queued', st'.master = m ∧ Tracks carried out live st' queued' := by
  obtain ⟨queued', hinv, -, hn⟩ := h.inv.hoist hsrc hdst hne hs
  refine ⟨_, queued', rfl, { h with inv := hinv, returns := ?_ }⟩
  dsimp only
  rw [hn]
  exact h.returns

theorem cached (h : Tracks carried out live st queued) (time : ULong) (min cd : Nat)
    (hmin : min < st.master.nprocs) :
    Tracks carried out live { st with master := { st.master with
      lastAccounting := time, lastMin := min, lastMinCd := cd } } queued :=
  { h with inv := h.inv.setCache time min cd hmin }

end Tracks

end Yarns
