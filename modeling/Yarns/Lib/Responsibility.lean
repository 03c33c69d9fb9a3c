import Yarns.Base.Parties
import Yarns.Base.WaitFor

/-!
# Who processes the wait graph

One loop at a time is to process the clock of the wait graph. `wgProcResponsibility` names
it, and the loop that is named passes the duty on with `++` and `%=`, two loads and two
stores that nothing keeps from being interleaved with those of the next loop. Even so the
duty is not lost: when no loop is between its two stores the variable names a loop, and no
loop ever divides by the `coreCount` that the main thread has not set yet (`duty_kept`).
-/

namespace Yarns

open Base

namespace Responsibility

/-- The next access of a thread: `setup` is in `yarn_process`, the others are in the loop. In
`held` a yarn of the loop has the lock of the graph. -/
inductive Pc where
  | setup
  | test
  | lock
  | process
  | unlock
  | loadInc
  | storeInc (v : Nat)
  | loadMod
  | storeMod (v : Nat)
  | rest
  | held
  deriving DecidableEq

/-- The loop has found its number in the variable. -/
def Pc.onDuty : Pc → Bool
  | lock | process | unlock | loadInc | storeInc _ | loadMod | storeMod _ => true
  | _ => false

/-- The loop is between its two stores. -/
def Pc.rotating : Pc → Bool
  | loadMod | storeMod _ => true
  | _ => false

/-- The loop holds the lock of the graph. -/
def Pc.holds : Pc → Bool
  | process | unlock | held => true
  | _ => false

structure Memory where
  wgProcResponsibility : Nat
  coreCount : Nat
  locked : Bool

inductive Act where
  | step
  /-- a yarn takes the lock of the graph -/
  | yarnLock

def step (n i : Nat) (m : Memory) : Pc → Option (Memory × Pc)
  | .setup => some ({ m with coreCount := n }, .test)
  | .test => some (m, if i = m.wgProcResponsibility then .lock else .rest)
  | .lock => if m.locked then none else some ({ m with locked := true }, .process)
  | .process => some (m, .unlock)
  | .unlock => some ({ m with locked := false }, .loadInc)
  | .loadInc => some (m, .storeInc m.wgProcResponsibility)
  | .storeInc v => some ({ m with wgProcResponsibility := (v + 1) % 2 ^ 64 }, .loadMod)
  | .loadMod => some (m, .storeMod m.wgProcResponsibility)
  | .storeMod v =>
    if m.coreCount = 0 then none
    else some ({ m with wgProcResponsibility := v % m.coreCount }, .rest)
  | .rest => some (m, .test)
  | .held => some ({ m with locked := false }, .rest)

def act {n : Nat} (i : Fin n) (m : Memory) (pc : Pc) : Act → Option (Memory × Pc)
  | .step => step n i m pc
  | .yarnLock =>
    if pc = .rest ∧ m.locked = false then some ({ m with locked := true }, .held) else none

/-- How often a step processes the graph. -/
def processes (pc : Pc) : Act → Nat
  | .step => if pc = .process then 1 else 0
  | .yarnLock => 0

/-- The main thread is thread 0; the others may have been created before `coreCount` is set. -/
def start (n : Nat) : Parties Memory Pc (Fin n) :=
  ⟨⟨0, 0, false⟩, fun i => if i.val = 0 then .setup else .test⟩

/-- The duty is somewhere, and one loop at a time processes the graph. -/
structure Kept {n : Nat} (s : Parties Memory Pc (Fin n)) : Prop where
  named : s.memory.wgProcResponsibility < n ∨ ∃ i, (s.locals i).rotating
  divisor : ∀ i, (s.locals i).onDuty → s.memory.coreCount = n
  alone : ∀ i j, (s.locals i).holds → (s.locals j).holds → i = j
  /-- a loop that is alone on duty processes the graph once and passes the duty to the next -/
  passes : (∀ i, (s.locals i).onDuty = false ∧ (s.locals i).holds = false) →
    ∀ i : Fin n, s.locals i = .test → i.val = s.memory.wgProcResponsibility →
      ∃ t, run (Parties.step act) s (List.replicate 9 (i, .step)) = some t ∧
        t.memory.wgProcResponsibility = (i.val + 1) % n ∧ t.memory.locked = false ∧
        (∀ j, (t.locals j).onDuty = false) ∧
        spent (Parties.step act) (fun s p => processes (s.locals p.1) p.2) s
          (List.replicate 9 (i, .step)) = 1

structure Inv {n : Nat} (s : Parties Memory Pc (Fin n)) : Prop where
  named : s.memory.wgProcResponsibility < n ∨ ∃ i, (s.locals i).rotating
  started : s.memory.coreCount = n ∨ s.memory.wgProcResponsibility = 0 ∧
    ∀ i, (s.locals i).onDuty = false ∧ (i.val = 0 → s.locals i = .setup)
  lock : Locked (fun _ : Unit => s.memory.locked) fun i _ => (s.locals i).holds

variable {n : Nat} {s s' : Parties Memory Pc (Fin n)} {m m' : Memory} {pc pc' : Pc} {i : Fin n}
  {a : Act}

theorem start_inv (hn : 0 < n) : Inv (start n) := by
  have hpc : ∀ i, (start n).locals i = .setup ∨ (start n).locals i = .test := by
    intro i
    show (if i.val = 0 then Pc.setup else .test) = _ ∨ (if i.val = 0 then Pc.setup else .test) = _
    split
    · exact Or.inl rfl
    · exact Or.inr rfl
  have hfree : ∀ i, ¬ ((start n).locals i).holds := by
    intro i
    rcases hpc i with h | h <;> rw [h] <;> exact Bool.false_ne_true
  refine ⟨Or.inl hn, Or.inr ⟨rfl, fun i => ⟨?_, fun hi => if_pos hi⟩⟩, ⟨?_, ?_, ?_⟩⟩
  · rcases hpc i with h | h <;> rw [h] <;> rfl
  · exact fun i _ hi => absurd hi (hfree i)
  · exact fun _ h => absurd h Bool.false_ne_true
  · exact fun i _ _ hi => absurd hi (hfree i)

/-! ## One access -/

/-- What one access does to the lock: nothing, or it takes it, or it gives it back. -/
inductive LockStep (m : Memory) (pc : Pc) (m' : Memory) (pc' : Pc) : Prop
  | keep : m'.locked = m.locked → pc'.holds = pc.holds → LockStep m pc m' pc'
  | take : m.locked = false → m'.locked = true → pc'.holds = true → LockStep m pc m' pc'
  | free : pc.holds = true → m'.locked = false → pc'.holds = false → LockStep m pc m' pc'

/-- What one access does to the duty: it is kept, or the loop is between its stores, or it is
given to a loop. -/
structure DutyStep (n i : Nat) (m : Memory) (pc : Pc) (m' : Memory) (pc' : Pc) : Prop where
  named : m.coreCount = n ∨ pc.onDuty = false →
    m'.wgProcResponsibility = m.wgProcResponsibility ∧ (pc.rotating → pc'.rotating) ∨
      pc'.rotating = true ∨ m'.wgProcResponsibility < n
  count : m'.coreCount = m.coreCount ∧ pc ≠ .setup ∨ m'.coreCount = n
  off : pc.onDuty = false → i ≠ m.wgProcResponsibility →
    m'.wgProcResponsibility = m.wgProcResponsibility ∧ pc'.onDuty = false

theorem step_lock {k : Nat} (h : step n k m pc = some (m', pc')) : LockStep m pc m' pc' := by
  cases pc with
  | setup | process | loadInc | storeInc | loadMod | rest =>
    cases h
    exact .keep rfl rfl
  | test =>
    cases h
    refine .keep rfl ?_
    split <;> rfl
  | lock =>
    obtain ⟨hfree, h⟩ := Option.ite_none_left_eq_some.mp h
    cases h
    exact .take (Bool.eq_false_iff.mpr hfree) rfl rfl
  | unlock | held =>
    cases h
    exact .free rfl rfl rfl
  | storeMod v =>
    obtain ⟨-, h⟩ := Option.ite_none_left_eq_some.mp h
    cases h
    exact .keep rfl rfl

theorem step_duty {k : Nat} (h : step n k m pc = some (m', pc')) :
    DutyStep n k m pc m' pc' := by
  cases pc with
  | setup =>
    cases h
    exact ⟨fun _ => Or.inl ⟨rfl, fun h => (by cases h)⟩, Or.inr rfl, fun _ _ => ⟨rfl, rfl⟩⟩
  | test =>
    cases h
    refine ⟨fun _ => Or.inl ⟨rfl, fun h => (by cases h)⟩, Or.inl ⟨rfl, Pc.noConfusion⟩,
      fun _ hk => ⟨rfl, ?_⟩⟩
    rw [if_neg hk]
    rfl
  | lock =>
    obtain ⟨-, h⟩ := Option.ite_none_left_eq_some.mp h
    cases h
    exact ⟨fun _ => Or.inl ⟨rfl, fun h => (by cases h)⟩, Or.inl ⟨rfl, Pc.noConfusion⟩,
      fun h => (by cases h)⟩
  | process | unlock | loadInc =>
    cases h
    exact ⟨fun _ => Or.inl ⟨rfl, fun h => (by cases h)⟩, Or.inl ⟨rfl, Pc.noConfusion⟩,
      fun h => (by cases h)⟩
  | storeInc v =>
    cases h
    exact ⟨fun _ => Or.inr (Or.inl rfl), Or.inl ⟨rfl, Pc.noConfusion⟩, fun h => (by cases h)⟩
  | loadMod =>
    cases h
    exact ⟨fun _ => Or.inr (Or.inl rfl), Or.inl ⟨rfl, Pc.noConfusion⟩, fun h => (by cases h)⟩
  | storeMod v =>
    obtain ⟨h0, h⟩ := Option.ite_none_left_eq_some.mp h
    cases h
    refine ⟨fun hn => Or.inr (Or.inr ?_), Or.inl ⟨rfl, Pc.noConfusion⟩, fun h => (by cases h)⟩
    rcases hn with hn | hn
    · rw [hn] at h0
      dsimp only
      rw [hn]
      exact Nat.mod_lt v (Nat.pos_of_ne_zero h0)
    · cases hn
  | rest | held =>
    cases h
    exact ⟨fun _ => Or.inl ⟨rfl, fun h => (by cases h)⟩, Or.inl ⟨rfl, Pc.noConfusion⟩,
      fun _ _ => ⟨rfl, rfl⟩⟩

theorem act_spec (h : act i m pc a = some (m', pc')) :
    LockStep m pc m' pc' ∧ DutyStep n i m pc m' pc' := by
  cases a with
  | step => exact ⟨step_lock h, step_duty h⟩
  | yarnLock =>
    obtain ⟨⟨rfl, hfree⟩, heq⟩ := Option.ite_none_right_eq_some.mp h
    cases heq
    exact ⟨.take hfree rfl rfl, fun _ => Or.inl ⟨rfl, fun h => (by cases h)⟩,
      Or.inl ⟨rfl, Pc.noConfusion⟩, fun _ _ => ⟨rfl, rfl⟩⟩

theorem step_inv {p : Fin n × Act} (h : Inv s) (hs : Parties.step act s p = some s') : Inv s' := by
  obtain ⟨i, a⟩ := p
  obtain ⟨m', pc', hact, rfl⟩ := Parties.step_cases hs
  obtain ⟨hlock, hduty⟩ := act_spec hact
  refine ⟨?_, ?_, ?_⟩
  · have hcase := hduty.named (h.started.imp_right fun hnew => (hnew.2 i).1)
    rcases hcase with ⟨hsame, hkept⟩ | hrot | hlt
    · rcases h.named with hlt | ⟨j, hj⟩
      · exact Or.inl (hsame ▸ hlt)
      · refine Or.inr ((exists_update (P := fun pc : Pc => pc.rotating)).mpr ?_)
        by_cases hji : j = i
        · subst hji
          exact Or.inl (hkept hj)
        · exact Or.inr ⟨j, hji, hj⟩
    · exact Or.inr ((exists_update (P := fun pc : Pc => pc.rotating)).mpr (Or.inl hrot))
    · exact Or.inl hlt
  · rcases hduty.count with ⟨hsame, hpc⟩ | hn
    · rcases h.started with hn | ⟨h0, hall⟩
      · exact Or.inl (hsame.trans hn)
      · -- another thread, and the duty is with the main thread
        have hi : i.val ≠ 0 := fun hi => hpc ((hall i).2 hi)
        obtain ⟨hsame, hoff⟩ := hduty.off (hall i).1 (by rw [h0]; exact hi)
        refine Or.inr ⟨hsame.trans h0, ?_⟩
        exact forall_update (P := fun j (pc : Pc) => pc.onDuty = false ∧ (j.val = 0 → pc = .setup))
          (fun j _ => hall j) ⟨hoff, fun hz => absurd hz hi⟩
    · exact Or.inl hn
  · have hother : ∀ c, c ≠ i → ∀ l : Unit, (Function.update s.locals i pc' c).holds ↔
        (s.locals c).holds := by
      intro c hc _
      rw [Function.update_of_ne hc]
    have hself : ∀ _ : Unit, (Function.update s.locals i pc' i).holds ↔ pc'.holds := by
      intro _
      rw [Function.update_self]
    cases hlock with
    | keep hsame hholds =>
      dsimp only
      rw [hsame]
      refine h.lock.congr fun c l => ?_
      by_cases hc : c = i
      · subst hc
        rw [hself l, hholds]
      · exact hother c hc l
    | take hfree htaken hholds =>
      have hlocks : (fun _ : Unit => m'.locked) =
          Function.update (fun _ => s.memory.locked) () true := by
        funext l
        rw [Function.update_self, htaken]
      dsimp only
      rw [hlocks]
      refine h.lock.acquire hfree hother fun l => ?_
      rw [hself l]
      exact iff_of_true hholds (Or.inr rfl)
    | free hholds hfree hholds' =>
      have hlocks : (fun _ : Unit => m'.locked) =
          Function.update (fun _ => s.memory.locked) () false := by
        funext l
        rw [Function.update_self, hfree]
      have hnot : ¬ (Function.update s.locals i pc' i).holds := by
        rw [hself (), hholds']
        exact Bool.false_ne_true
      dsimp only
      rw [hlocks]
      refine h.lock.release hother (fun l => ?_) hnot
      exact iff_of_true hholds (Or.inl rfl)

/-! ## Passing the duty on -/

/-- One pass of the loop that has the duty, with nothing in between: it processes the graph
once. -/
theorem pass_alone (hi : i.val = m.wgProcResponsibility) (hfree : m.locked = false)
    (hn : m.coreCount = n) (hsmall : n < 2 ^ 64) :
    run (fun (r : Memory × Pc) (a : Act) => act i r.1 r.2 a) (m, .test)
        (List.replicate 9 .step) =
          some ({ m with wgProcResponsibility := (i.val + 1) % n }, .test) ∧
      spent (fun (r : Memory × Pc) (a : Act) => act i r.1 r.2 a) (fun r a => processes r.2 a)
        (m, .test) (List.replicate 9 .step) = 1 := by
  obtain ⟨w, c, l⟩ := m
  obtain rfl : i.val = w := hi
  obtain rfl : l = false := hfree
  obtain rfl : c = n := hn
  have hlt := i.isLt
  have hinc : (i.val + 1) % 2 ^ 64 = i.val + 1 := Nat.mod_eq_of_lt (by omega)
  have hc : c ≠ 0 := by omega
  constructor
  · simp only [List.replicate, run, act, step, Option.bind_some, if_true, Bool.false_eq_true,
      if_false, if_neg hc, hinc]
  · simp [List.replicate, spent, act, step, processes, hc]

theorem inv_of_reachable (hn : 0 < n) (hr : Reachable (Parties.step act) (start n) s) : Inv s :=
  reachable_invariant (start_inv hn) (fun _ _ _ h hs => step_inv h hs) hr

/-- In every interleaving the duty is with a loop or on its way to one, no loop divides by
zero, one loop or yarn at a time has the graph, and a loop that is not disturbed processes it
once and hands the duty to the next. -/
theorem duty_kept (hsmall : n < 2 ^ 64) (hn : 0 < n)
    (hr : Reachable (Parties.step act) (start n) s) : Kept s := by
  have h : Inv s := inv_of_reachable hn hr
  refine ⟨h.named, ?_, fun i j => h.lock.unique i j (), ?_⟩
  · intro i hi
    rcases h.started with hcount | ⟨-, hall⟩
    · exact hcount
    · rw [(hall i).1] at hi
      exact absurd hi Bool.false_ne_true
  · intro hidle i hpc hi
    have hcount : s.memory.coreCount = n := by
      rcases h.started with hcount | ⟨h0, hall⟩
      · exact hcount
      · -- before `coreCount` is set the duty is with the main thread, which has no loop yet
        have hsetup := (hall i).2 (hi.trans h0)
        rw [hpc] at hsetup
        cases hsetup
    have hfree : s.memory.locked = false := by
      refine Bool.eq_false_iff.mpr fun hl => ?_
      obtain ⟨j, hj⟩ := h.lock.held () hl
      rw [(hidle j).2] at hj
      exact absurd hj Bool.false_ne_true
    obtain ⟨hpass, honce⟩ := pass_alone hi hfree hcount hsmall
    refine ⟨⟨{ s.memory with wgProcResponsibility := (i.val + 1) % n },
      Function.update s.locals i .test⟩, ?_, rfl, hfree, ?_, ?_⟩
    · have hown : run (Parties.step act) s ((List.replicate 9 Act.step).map (i, ·)) = _ :=
        Parties.run_own
      rw [List.map_replicate, hpc, hpass] at hown
      exact hown
    · exact forall_update (P := fun _ (pc : Pc) => pc.onDuty = false) (fun j _ => (hidle j).1) rfl
    · have hown : spent (Parties.step act) (fun s p => processes (s.locals p.1) p.2) s
          ((List.replicate 9 Act.step).map (i, ·)) = _ := Parties.spent_own
      rw [List.map_replicate, hpc, honce] at hown
      exact hown

/-- Loop `j` is on duty while loop `i` is between its two stores. -/
def overlap (i j : Fin n) : List (Fin n × Act) :=
  List.replicate 7 (i, .step) ++ List.replicate 6 (j, .step) ++ List.replicate 2 (i, .step) ++
    List.replicate 2 (j, .step)

theorem duty_kept_overlap : ∃ s : Parties Memory Pc (Fin 2),
    run (Parties.step act) (start 2) (overlap 0 1) = some s ∧
      s.memory.wgProcResponsibility = 0 ∧ Kept s := by
  have hrun : (run (Parties.step act) (start 2) (overlap 0 1)).map
      (fun s => s.memory.wgProcResponsibility) = some 0 := by
    decide +kernel
  obtain ⟨s, hs, hduty⟩ := Option.map_eq_some_iff.mp hrun
  exact ⟨s, hs, hduty, duty_kept (by omega) Nat.two_pos ⟨_, hs⟩⟩

end Responsibility

end Yarns
