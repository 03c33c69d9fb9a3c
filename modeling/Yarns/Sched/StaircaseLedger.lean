import Yarns.Sched.StaircaseContract

/-!
# The quotas of the staircase scheduler

A quota is never refilled: it is what `sched_allocate_staircase` set, less all that was
charged to its level. A ledger books the charges of a run, level by level, and changes
sides with the blocks. A slice is measured against the quota when it is granted, but it is
charged when the job comes back, to the level in the block that is active then; nothing is
reserved in between. So the quotas stay in range exactly as long as the books stay within
the first quota of a level, which is `YARNS_TIMESLICE * 5` as C computes it: five timeslices
where that fits in an `int`.
-/

namespace Yarns

open Base

namespace Staircase

/-- What was charged to the levels of both blocks. -/
structure Ledger where
  active : Nat → Nat
  exhausted : Nat → Nat

def Op.isReturn : Op → Bool
  | .reschedule .. => true
  | .unschedule .. => true
  | _ => false

/-- The level and the time that a return is charged with. -/
def Op.charge (st : Client) : Op → Option (Nat × Nat)
  | .reschedule granted job =>
    (st.sched.entries granted.data).map fun e =>
      (e.lastLevel, granted.runtime.toNat - job.runtime.toNat)
  | .unschedule granted _ =>
    (st.sched.entries granted.data).map fun e => (e.lastLevel, granted.runtime.toNat)
  | _ => none

/-- `select` exchanges the blocks. -/
def Op.swaps (st : Client) : Op → Bool
  | .select job => st.sched.active.firstLevel.isNone && job.data ≠ 1
  | _ => false

namespace Ledger

def new : Ledger := ⟨fun _ => 0, fun _ => 0⟩

def post (ledger : Ledger) (st : Client) (op : Op) : Ledger :=
  match op.charge st with
  | some (level, amount) =>
    { ledger with active := Function.update ledger.active level (ledger.active level + amount) }
  | none => if op.swaps st then ⟨ledger.exhausted, ledger.active⟩ else ledger

end Ledger

/-- A client whose charges are booked. -/
structure Audited where
  client : Client
  ledger : Ledger

def Audited.step (cfg : Config) (st : Audited) (op : Op) : Option Audited :=
  (st.client.step cfg op).map fun client => ⟨client, st.ledger.post st.client op⟩

def Audited.start (cfg : Config) : Audited := ⟨Client.start cfg, Ledger.new⟩

/-- The charge stays within what a level was given. -/
def Audited.Covers (cfg : Config) (st : Audited) (op : Op) : Prop :=
  match op.charge st.client with
  | some (level, amount) => st.ledger.active level + amount ≤ (cfg.timeslices 5).toNat
  | none => True

/-- The subtractions of `reschedule` and `unschedule`: none takes more than there is. -/
def Op.Subtracts (st : Client) : Op → Prop
  | .reschedule granted job => ∀ e, st.sched.entries granted.data = some e →
    job.runtime ≤ e.lastTimeslice ∧ e.lastTimeslice - job.runtime ≤ e.timeslice ∧
      e.lastTimeslice - job.runtime ≤ st.sched.active.timeslices e.lastLevel
  | .unschedule granted _ => ∀ e, st.sched.entries granted.data = some e →
    e.lastTimeslice ≤ st.sched.active.timeslices e.lastLevel
  | _ => True

/-- All quotas stay in range, a return increases none, and no subtraction wraps around. -/
structure QuotasKept (cfg : Config) (st : Client) (op : Op) (st' : Client) : Prop where
  range : ∀ level < LAYERS, st'.sched.active.timeslices level ≤ cfg.timeslices 5 ∧
    st'.sched.exhausted.timeslices level ≤ cfg.timeslices 5
  down : op.isReturn → ∀ level < LAYERS,
    st'.sched.active.timeslices level ≤ st.sched.active.timeslices level ∧
      st'.sched.exhausted.timeslices level ≤ st.sched.exhausted.timeslices level
  subtracts : op.Subtracts st

variable {cfg : Config} {s s' : Staircase} {st st' : Client} {job job' g : SchedulerJob}
  {out : List SchedulerJob} {op : Op} {level : Nat} {ptr pid : ULong} {prio : SchedulerPriority}
  {je : JobEntry}

/-! ## What each call does to the quotas -/

/-- The quotas of both blocks are left alone. -/
def SameQuotas (s s' : Staircase) : Prop :=
  s'.active.timeslices = s.active.timeslices ∧ s'.exhausted.timeslices = s.exhausted.timeslices

theorem schedule_quotas (hs : s.schedule cfg ptr pid prio = some s') : SameQuotas s s' := by
  unfold schedule at hs
  split at hs
  · cases hs
  · cases hs
    exact ⟨rfl, rfl⟩

theorem dispatch_quotas (hs : s.dispatch cfg job level = some (s', job')) :
    SameQuotas s s' := by
  cases dispatch_cases hs
  exact ⟨rfl, rfl⟩

theorem select_quotas (hs : s.select cfg job = some (s', job')) :
    SameQuotas (if s.active.firstLevel.isNone && job.data ≠ 1 then s.swap else s) s' := by
  have hswaps : s.active.firstLevel = none → job.data ≠ 1 →
      (s.active.firstLevel.isNone && decide (job.data ≠ 1)) = true := by
    intro hnone hdata
    rw [hnone, decide_eq_true hdata]
    rfl
  cases select_cases hs with
  | active hlevel hd =>
    rw [hlevel]
    exact dispatch_quotas hd
  | exhausted hnone hdata _ hd =>
    rw [if_pos (hswaps hnone hdata)]
    exact dispatch_quotas hd
  | flagged _ hdata =>
    rw [if_neg (by simp [hdata])]
    exact ⟨rfl, rfl⟩
  | empty hnone hdata =>
    rw [if_pos (hswaps hnone hdata)]
    exact ⟨rfl, rfl⟩

/-- A return charges the level of the entry in the active block. -/
def Charges (s s' : Staircase) (level : Nat) (amount : ULong) : Prop :=
  s'.active.timeslices = Function.update s.active.timeslices level
      (s.active.timeslices level - amount) ∧
    s'.exhausted.timeslices = s.exhausted.timeslices

theorem reschedule_charges (hje : s.entryOf job = some je)
    (hs : s.reschedule cfg job = some s') :
    Charges s s' je.lastLevel (je.lastTimeslice - job.runtime) := by
  simp only [reschedule, hje, Option.bind_eq_bind, Option.bind_some] at hs
  split at hs
  · cases hs
    exact ⟨rfl, rfl⟩
  · cases hs
    exact ⟨rfl, rfl⟩

theorem unschedule_charges (hje : s.entryOf job = some je) (hs : s.unschedule job = some s') :
    Charges s s' je.lastLevel je.lastTimeslice := by
  simp only [unschedule, hje, Option.bind_eq_bind, Option.bind_some] at hs
  cases hs
  exact ⟨rfl, rfl⟩

/-! ## The books -/

/-- In every block a quota and what was charged make the first quota. -/
def Balanced (cfg : Config) (b : StaircaseBlock) (spent : Nat → Nat) : Prop :=
  ∀ level < LAYERS, (b.timeslices level).toNat + spent level = (cfg.timeslices 5).toNat

structure Audited.Inv (cfg : Config) (st : Audited) : Prop where
  client : st.client.Inv cfg
  settled : cfg.timeslice ≠ 0 → st.client.sched.Settled cfg st.client.out
  active : Balanced cfg st.client.sched.active st.ledger.active
  exhausted : Balanced cfg st.client.sched.exhausted st.ledger.exhausted

theorem Balanced.le {b : StaircaseBlock} {spent : Nat → Nat} (h : Balanced cfg b spent)
    (hl : level < LAYERS) : b.timeslices level ≤ cfg.timeslices 5 := by
  have hsum := h level hl
  rw [BitVec.le_def]
  omega

theorem audited_client (st : Audited) (op : Op) :
    (st.step cfg op).map Audited.client = st.client.step cfg op := by
  rw [Audited.step, Option.map_map]
  exact Option.map_id'

theorem start_audited : (Audited.start cfg).Inv cfg where
  client := start_inv
  settled := fun _ => start_settled
  active := fun _ _ => rfl
  exhausted := fun _ _ => rfl

/-- A subtraction stays below its first operand exactly if it does not wrap around. -/
theorem sub_le_iff {a b : ULong} : a - b ≤ a ↔ b ≤ a := by bv_omega

/-- The entry of a job that is returned, with the slice the job was granted. -/
theorem Audited.Inv.returned {st : Audited} (h : st.Inv cfg) (hg : g ∈ st.client.out)
    (hpid : job.pid = g.pid) (hdata : job.data = g.data) :
    ∃ je, st.client.sched.entryOf job = some je ∧ st.client.sched.entries g.data = some je ∧
      je.lastLevel < LAYERS ∧ je.lastTimeslice = g.runtime ∧ g.runtime ≤ je.timeslice := by
  have hz : cfg.timeslice ≠ 0 := by
    intro hz
    rw [(h.client.unfunded hz).2] at hg
    cases hg
  obtain ⟨je, hje, hentry, -⟩ := entryOf_out (h.client.owns.perm (List.perm_cons_erase hg)) hpid
    hdata (h.client.held g hg)
  exact ⟨je, hje, hentry, (h.client.owns.levels _ _ hentry).1,
    (h.settled hz).granted g hg je hentry⟩

/-- What a return does to the quotas: the charge of the ledger, in machine arithmetic. -/
theorem return_charges {st : Audited} (h : st.Inv cfg) (hop : op.isReturn)
    (hs : st.client.step cfg op = some st') :
    ∃ level amount, level < LAYERS ∧ op.charge st.client = some (level, amount.toNat) ∧
      Charges st.client.sched st'.sched level amount ∧
      (amount ≤ st.client.sched.active.timeslices level → op.Subtracts st.client) := by
  cases step_calls hs with
  | schedule => cases hop
  | select => cases hop
  | reschedule hg hjob hsched =>
    obtain ⟨hpid, hdata, hleft⟩ := hjob
    obtain ⟨je, hje, hentry, hl, hslice, hfunds⟩ := h.returned hg hpid hdata
    refine ⟨je.lastLevel, _, hl, ?_, reschedule_charges hje hsched, fun hquota e he => ?_⟩
    · rw [Op.charge, hentry, hslice, BitVec.toNat_sub_of_le hleft]
      rfl
    · obtain rfl := Option.some.inj (hentry.symm.trans he)
      rw [hslice] at hquota ⊢
      exact ⟨hleft, by bv_omega, hquota⟩
  | unschedule hg hjob hsched =>
    obtain ⟨hpid, hdata, -⟩ := hjob
    obtain ⟨je, hje, hentry, hl, hslice, -⟩ := h.returned hg hpid hdata
    refine ⟨je.lastLevel, _, hl, ?_, unschedule_charges hje hsched, fun hquota e he => ?_⟩
    · rw [Op.charge, hentry, hslice]
      rfl
    · obtain rfl := Option.some.inj (hentry.symm.trans he)
      exact hquota

/-- Any other call leaves the quotas alone, but for the blocks they belong to. -/
theorem other_quotas (hop : ¬ op.isReturn) (hs : st.step cfg op = some st') :
    op.charge st = none ∧ op.Subtracts st ∧
      SameQuotas (if op.swaps st then st.sched.swap else st.sched) st'.sched := by
  cases step_calls hs with
  | schedule _ hsched => exact ⟨rfl, trivial, schedule_quotas hsched⟩
  | select hsel => exact ⟨rfl, trivial, select_quotas hsel⟩
  | reschedule => exact absurd rfl hop
  | unschedule => exact absurd rfl hop

/-! ## Step by step -/

/-- A step keeps the quotas exactly if the ledger covers it. -/
theorem quotasKept_iff {st : Audited} (h : st.Inv cfg) (hs : st.client.step cfg op = some st') :
    QuotasKept cfg st.client op st' ↔ st.Covers cfg op := by
  by_cases hop : op.isReturn
  · obtain ⟨level, amount, hl, hcharge, ⟨hactive, hexhausted⟩, hsubtracts⟩ :=
      return_charges h hop hs
    have hsum := h.active level hl
    have hiff : st.Covers cfg op ↔ amount ≤ st.client.sched.active.timeslices level := by
      rw [BitVec.le_def, Audited.Covers, hcharge]
      dsimp only
      omega
    rw [hiff]
    constructor
    · intro hkept
      have hle := (hkept.down hop level hl).1
      rwa [hactive, Function.update_self, sub_le_iff] at hle
    · intro hle
      have hdown : ∀ l < LAYERS, st'.sched.active.timeslices l ≤
          st.client.sched.active.timeslices l := by
        intro l _
        rw [hactive]
        by_cases hll : l = level
        · rw [hll, Function.update_self]
          exact sub_le_iff.mpr hle
        · rw [Function.update_of_ne hll]
      refine ⟨fun l hl => ⟨(hdown l hl).trans (h.active.le hl), ?_⟩, fun _ l hl =>
        ⟨hdown l hl, ?_⟩, hsubtracts hle⟩
      · rw [hexhausted]
        exact h.exhausted.le hl
      · rw [hexhausted]
  · obtain ⟨hcharge, hsubtracts, hactive, hexhausted⟩ := other_quotas hop hs
    have hcovers : st.Covers cfg op := by
      rw [Audited.Covers, hcharge]
      trivial
    refine ⟨fun _ => hcovers, fun _ => ⟨fun l hl => ?_, fun hret => absurd hret hop, hsubtracts⟩⟩
    rw [hactive, hexhausted]
    split
    · exact ⟨h.exhausted.le hl, h.active.le hl⟩
    · exact ⟨h.active.le hl, h.exhausted.le hl⟩

/-- A covered charge keeps the books of the active block balanced. -/
theorem Balanced.charge {b b' : StaircaseBlock} {spent : Nat → Nat} {amount : ULong}
    (h : Balanced cfg b spent) (hl : level < LAYERS)
    (hb : b'.timeslices = Function.update b.timeslices level (b.timeslices level - amount))
    (hle : spent level + amount.toNat ≤ (cfg.timeslices 5).toNat) :
    Balanced cfg b' (Function.update spent level (spent level + amount.toNat)) := by
  intro l hll
  rw [hb]
  by_cases heq : l = level
  · have hsum := h level hl
    have hamount : amount ≤ b.timeslices level := by
      rw [BitVec.le_def]
      omega
    rw [heq, Function.update_self, Function.update_self, BitVec.toNat_sub_of_le hamount]
    rw [BitVec.le_def] at hamount
    omega
  · rw [Function.update_of_ne heq, Function.update_of_ne heq]
    exact h l hll

theorem Balanced.of_eq {b b' : StaircaseBlock} {spent : Nat → Nat} (h : Balanced cfg b spent)
    (hb : b'.timeslices = b.timeslices) : Balanced cfg b' spent := by
  intro level hl
  rw [hb]
  exact h level hl

/-- A step that is covered keeps the books balanced. -/
theorem step_audited {st st' : Audited} (h : st.Inv cfg) (hcovers : st.Covers cfg op)
    (hs : st.step cfg op = some st') : st'.Inv cfg := by
  obtain ⟨client, hclient, rfl⟩ := Option.map_eq_some_iff.mp hs
  have hinv := step_inv h.client hclient
  have hsettled := fun hz => step_settled hz h.client (h.settled hz) hclient
  by_cases hop : op.isReturn
  · obtain ⟨level, amount, hl, hcharge, ⟨hactive, hexhausted⟩, -⟩ := return_charges h hop hclient
    have hpost : st.ledger.post st.client op = { st.ledger with
        active := Function.update st.ledger.active level
          (st.ledger.active level + amount.toNat) } := by
      rw [Ledger.post, hcharge]
    rw [Audited.Covers, hcharge] at hcovers
    rw [hpost]
    exact ⟨hinv, hsettled, h.active.charge hl hactive hcovers, h.exhausted.of_eq hexhausted⟩
  · obtain ⟨hcharge, -, hactive, hexhausted⟩ := other_quotas hop hclient
    have hpost : st.ledger.post st.client op =
        if op.swaps st.client then ⟨st.ledger.exhausted, st.ledger.active⟩ else st.ledger := by
      rw [Ledger.post, hcharge]
    rw [hpost]
    split
    · -- the blocks are exchanged, and the books with them
      rename_i hswaps
      rw [if_pos hswaps] at hactive hexhausted
      exact ⟨hinv, hsettled, h.exhausted.of_eq hactive, h.active.of_eq hexhausted⟩
    · rename_i hswaps
      rw [if_neg hswaps] at hactive hexhausted
      exact ⟨hinv, hsettled, h.active.of_eq hactive, h.exhausted.of_eq hexhausted⟩

/-! ## One job at a time -/

/-- A job is selected only when none is out. -/
def Op.Alone (st : Client) : Op → Prop
  | .select _ => st.out = []
  | _ => True

/-- One job is out at most, and the level it is charged to can pay its slice. -/
structure Client.Solvent (st : Client) : Prop where
  alone : st.out.length ≤ 1
  pays : ∀ g ∈ st.out, ∀ e, st.sched.entries g.data = some e →
    g.runtime ≤ st.sched.active.timeslices e.lastLevel

theorem Client.Solvent.nil (h : st.out = []) : st.Solvent where
  alone := by simp [h]
  pays := by
    intro g hg
    rw [h] at hg
    cases hg

/-- A slice is no longer than the quota of the level that grants it. -/
theorem dispatch_pays (h : s.Settled cfg out) (hs : s.dispatch cfg job level = some (s', job')) :
    ∀ e, s'.entries job'.data = some e → job'.runtime ≤ s'.active.timeslices e.lastLevel := by
  cases dispatch_cases hs with
  | @intro ptr rest entry hq hentry =>
    have hat : s.QueuedAt level ptr := Or.inl (by rw [hq]; exact List.mem_cons_self)
    have hlevel := (h.placed level ptr hat).2 entry hentry
    intro e he
    dsimp only at he
    rw [Function.update_self] at he
    obtain rfl := Option.some.inj he
    dsimp only
    rw [hlevel]
    exact (min_le_right _ _).trans (min_le_left _ _)

theorem select_pays (h : s.Settled cfg out) (hs : s.select cfg job = some (s', job'))
    (hpid : job'.pid ≠ 0) :
    ∀ e, s'.entries job'.data = some e → job'.runtime ≤ s'.active.timeslices e.lastLevel := by
  cases select_cases hs with
  | active _ hd => exact dispatch_pays h hd
  | exhausted _ _ _ hd => exact dispatch_pays h.swap hd
  | flagged => exact absurd rfl hpid
  | empty => exact absurd rfl hpid

theorem step_solvent (hinv : st.Inv cfg)
    (hsettled : cfg.timeslice ≠ 0 → st.sched.Settled cfg st.out) (h : st.Solvent)
    (halone : op.Alone st) (hs : st.step cfg op = some st') : st'.Solvent := by
  have herase : ∀ g ∈ st.out, st.out.erase g = [] := by
    intro g hg
    apply List.eq_nil_of_length_eq_zero
    rw [List.length_erase_of_mem hg]
    have hone := h.alone
    omega
  cases step_calls hs with
  | @schedule ptr pid prio s' _ hsched =>
    refine ⟨h.alone, ?_⟩
    unfold schedule at hsched
    split at hsched
    · cases hsched
    · rename_i hfresh
      cases hsched
      intro g hg e he
      -- the new entry is not the one that is out
      have hne : g.data ≠ ptr := by
        rintro rfl
        obtain ⟨r, hr, -⟩ := hinv.owns.owned.outLive _ (List.mem_map_of_mem hg)
        exact hfresh (Or.inr (Or.inr (Option.isSome_of_eq_some hr)))
      dsimp only at he
      rw [Function.update_of_ne hne] at he
      exact h.pays g hg e he
  | @select job job' s' hsel =>
    have hout : st.out = [] := halone
    have hpaid := (step_inv hinv hs).unfunded
    by_cases hpid : job'.pid = 0
    · rw [if_pos hpid]
      exact .nil hout
    · rw [if_neg hpid] at hpaid ⊢
      have hz : cfg.timeslice ≠ 0 := fun hz => absurd (hpaid hz).2 (List.cons_ne_nil _ _)
      refine ⟨by simp [hout], fun g hg => ?_⟩
      rw [hout, List.mem_singleton] at hg
      rw [hg]
      exact select_pays (hsettled hz) hsel hpid
  | reschedule hg => exact .nil (herase _ hg)
  | unschedule hg => exact .nil (herase _ hg)

/-- What a level can pay, the ledger covers. -/
theorem Client.Solvent.covers {st : Audited} (h : st.client.Solvent) (hinv : st.Inv cfg)
    (hs : st.client.step cfg op = some st') : st.Covers cfg op := by
  have hpays : ∀ g ∈ st.client.out, ∀ e, st.client.sched.entries g.data = some e →
      st.ledger.active e.lastLevel + g.runtime.toNat ≤ (cfg.timeslices 5).toNat := by
    intro g hg e he
    have hle := h.pays g hg e he
    have hsum := hinv.active e.lastLevel (hinv.client.owns.levels _ e he).1
    rw [BitVec.le_def] at hle
    omega
  unfold Audited.Covers
  cases step_calls hs with
  | schedule => trivial
  | select => trivial
  | @reschedule granted job s' hg =>
    rw [Op.charge]
    cases he : st.client.sched.entries granted.data with
    | none => trivial
    | some e =>
      have hle := hpays granted hg e he
      show st.ledger.active e.lastLevel + (granted.runtime.toNat - job.runtime.toNat) ≤ _
      omega
  | @unschedule granted job s' hg =>
    rw [Op.charge]
    cases he : st.client.sched.entries granted.data with
    | none => trivial
    | some e => exact hpays granted hg e he

/-! ## Whole runs -/

/-- The quotas stay in range through a run exactly if no level is ever charged with more
than its first quota in all, whichever jobs were out together. -/
theorem quotas_kept_iff (cfg : Config) (ops : List Op) :
    Along (Client.step cfg) (QuotasKept cfg) (Client.start cfg) ops ↔
      Along (Audited.step cfg) (fun s op _ => s.Covers cfg op) (Audited.start cfg) ops := by
  refine (along_ghost audited_client (s := Audited.start cfg)).trans
    (along_iff_of_invariant start_audited (fun s op t hi hs => ?_)
      fun s op t hi hc hs => step_audited hi hc hs)
  obtain ⟨client, hclient, rfl⟩ := Option.map_eq_some_iff.mp hs
  exact quotasKept_iff hi hclient

/-- With one job out at a time all quotas stay in range. -/
theorem quotas_kept_of_alone (cfg : Config) (ops : List Op)
    (h : Along (Client.step cfg) (fun s op _ => op.Alone s) (Client.start cfg) ops) :
    Along (Client.step cfg) (QuotasKept cfg) (Client.start cfg) ops := by
  refine (along_ghost audited_client (s := Audited.start cfg)).mpr
    (along_of_invariant (I := fun s => s.Inv cfg ∧ s.client.Solvent) ⟨start_audited, .nil rfl⟩
      (fun s op t hi halone hs => ?_)
      ((along_ghost audited_client (s := Audited.start cfg)).mp h))
  obtain ⟨hinv, hsolvent⟩ := hi
  have hclient : s.client.step cfg op = some t.client := by
    rw [← audited_client, hs]
    rfl
  have hcovers := hsolvent.covers hinv hclient
  exact ⟨⟨step_audited hinv hcovers hs,
    step_solvent hinv.client hinv.settled hsolvent halone hclient⟩,
    (quotasKept_iff hinv hclient).mpr hcovers⟩

/-! ## Six jobs out at once -/

/-- The job of an address, which is its pid too, with some of a timeslice left. -/
def heldJob (left ptr : ULong) : SchedulerJob := ⟨ptr, left, ptr, 0, .normal⟩

/-- Six jobs of normal priority are out at once, and five of them use all they got. -/
def sixOut : List Op :=
  let ptrs : List ULong := [4096, 8192, 12288, 16384, 20480, 24576]
  (ptrs.map fun ptr => .schedule ptr ptr .normal) ++ (ptrs.map fun _ => .select .blank) ++
    ptrs.dropLast.map fun ptr => .reschedule (heldJob 1000 ptr) (heldJob 0 ptr)

/-- The five timeslices of their level were granted six times. -/
theorem sixth_charge_wraps : ¬ Along (Client.step .defaultProfile) (QuotasKept .defaultProfile)
    (Client.start .defaultProfile)
    (sixOut ++ [.reschedule (heldJob 1000 24576) (heldJob 0 24576)]) := by
  intro h
  have hrun : ((run (Client.step .defaultProfile) (Client.start .defaultProfile) sixOut).bind
      fun st => (st.step .defaultProfile
        (.reschedule (heldJob 1000 24576) (heldJob 0 24576))).map
          fun st' => st'.sched.active.timeslices 4) = some (0 - 1000) := by
    decide +kernel
  obtain ⟨st, st', hkept, hquota⟩ :=
    along_observed (f := fun _ st' => st'.sched.active.timeslices 4) h hrun
  have hle := (hkept.range 4 (by decide)).1
  rw [hquota] at hle
  exact absurd hle (by decide)

end Staircase

end Yarns
