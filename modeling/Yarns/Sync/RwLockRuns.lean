import Mathlib.Data.Fintype.Fin
import Yarns.Sync.RwLock

/-!
# Every interleaving of the readers-writer lock

The lock word always is the word of the number of read holds and two flags (`Inv`); a
writer that holds the lock has the write bit, which keeps readers and other writers out.

`yarn_rwlock_write_unlock` clears the waiting bit, not the write bit. So the write bit, once
set, stays (`Inv.step`): the lock is available again exactly as long as no write lock has
been released (`available_iff`).
-/

namespace Yarns

open Base

namespace RwLock

variable {ι : Type} [DecidableEq ι]

/-- The lock and its yarns. -/
abbrev State (ι : Type) := Parties RwLock Yarn ι

def start : State ι := ⟨init, fun _ => .fresh⟩

/-- One access or call of one yarn; `pids` are the pids of the yarns. -/
def step (pids : ι → ULong) : State ι → ι × Act → Option (State ι) :=
  Parties.step fun i => act (pids i)

variable [Fintype ι]

/-- The number of read holds. -/
def readHolds (s : State ι) : Nat := ∑ i, (s.locals i).reads

/-- The lock word in terms of what the yarns hold. -/
structure Inv (s : State ι) (locked waiting : Bool) : Prop where
  lock : s.memory.lock = word (readHolds s) locked waiting
  fits : Fits (readHolds s) locked
  holder : ∀ i, (s.locals i).writes = true → locked = true
  alone : ∀ i j, (s.locals i).writes = true → (s.locals j).writes = true → i = j
  pcs : ∀ i, PcOk (s.locals i)

/-- As long as no write lock has been released: the write bit is that of a holder, and
before there is one the waiting bit is that of the writers on their way. -/
structure Unreleased (s : State ι) (locked waiting : Bool) : Prop where
  byHolder : locked = true → ∃ i, (s.locals i).writes = true
  byWriters : locked = false → (waiting = true ↔ ∃ i, (s.locals i).Announced)

/-- The step that ends a write hold: the last compare-and-swap of an unlock call, and the
word is the one the call has loaded. -/
def Releases (s : State ι) (p : ι × Act) : Prop :=
  ∃ newValue, (s.locals p.1).pc = .unlockCas s.memory.lock newValue

variable {s t : State ι} {pids : ι → ULong} {p : ι × Act} {as : List (ι × Act)}
  {locked waiting waiting' : Bool} {i : ι} {m : RwLock} {y : Yarn}

omit [DecidableEq ι] in
theorem Inv.held_word (h : Inv s locked waiting) (hw : (s.locals i).writes = true) :
    ∃ waiting, s.memory.lock = word 0 true waiting := by
  have hlocked := h.holder i hw
  subst hlocked
  refine ⟨waiting, ?_⟩
  rw [h.lock, fits_locked h.fits]

omit [DecidableEq ι] in
/-- The word before a releasing step has the write bit. -/
theorem Inv.locked_of_releases (h : Inv s locked waiting) (hr : Releases s p) :
    locked = true := by
  obtain ⟨newValue, hpc⟩ := hr
  have hok := h.pcs p.1
  rw [PcOk, hpc] at hok
  exact h.holder p.1 hok.1

omit [Fintype ι] in
theorem writes_update (hw : y.writes = (s.locals i).writes) (j : ι) :
    (Function.update s.locals i y j).writes = (s.locals j).writes := by
  by_cases hj : j = i
  · subst hj
    rw [Function.update_self, hw]
  · rw [Function.update_of_ne hj]

/-- A step that begins and ends no write hold. -/
theorem Inv.move (h : Inv s locked waiting) (hpcs : ∀ j, PcOk (Function.update s.locals i y j))
    (hw : y.writes = (s.locals i).writes)
    (hlock : m.lock = word (readHolds ⟨m, Function.update s.locals i y⟩) locked waiting')
    (hfits : Fits (readHolds ⟨m, Function.update s.locals i y⟩) locked) :
    Inv ⟨m, Function.update s.locals i y⟩ locked waiting' where
  lock := hlock
  fits := hfits
  holder := by
    intro j hj
    rw [writes_update hw] at hj
    exact h.holder j hj
  alone := by
    intro j k hj hk
    rw [writes_update hw] at hj hk
    exact h.alone j k hj hk
  pcs := hpcs

omit [Fintype ι] in
theorem Unreleased.move (h : Unreleased s locked waiting) (hw : y.writes = (s.locals i).writes)
    (hann : y.Announced ↔ (s.locals i).Announced) :
    Unreleased ⟨m, Function.update s.locals i y⟩ locked waiting where
  byHolder := by
    intro hlocked
    obtain ⟨j, hj⟩ := h.byHolder hlocked
    exact ⟨j, (writes_update hw j).trans hj⟩
  byWriters := by
    intro hlocked
    rw [h.byWriters hlocked]
    exact (exists_update_iff (P := Yarn.Announced) hann).symm

/-- One step keeps the invariant, and the write bit once it is set. -/
theorem Inv.step (h : Inv s locked waiting) (hs : RwLock.step pids s p = some t) :
    ∃ locked' waiting', Inv t locked' waiting' ∧ (locked = true → locked' = true) ∧
      (¬ Releases s p → Unreleased s locked waiting → Unreleased t locked' waiting') := by
  obtain ⟨i, a⟩ := p
  obtain ⟨m, y, hact, rfl⟩ := Parties.step_cases hs
  have hpc := act_pcOk (h.pcs i) h.held_word hact
  have hpcs : ∀ j, PcOk (Function.update s.locals i y j) :=
    forall_update (P := fun _ y => PcOk y) (fun j _ => h.pcs j) hpc
  have hreads : readHolds ⟨m, Function.update s.locals i y⟩ + (s.locals i).reads =
      readHolds s + y.reads := sum_update s.locals i y Yarn.reads
  have hfits := h.fits
  unfold Fits at hfits
  cases act_effect (h.pcs i) hact with
  | keep hlock hr hw hann =>
    have hsame : readHolds ⟨m, Function.update s.locals i y⟩ = readHolds s := by omega
    refine ⟨locked, waiting, h.move hpcs hw ?_ ?_, id, fun _ hu => hu.move hw hann⟩
    · rw [hlock, hsame, h.lock]
    · rw [hsame]
      exact h.fits
  | enter hfree _ hlock hr hw hann hann' =>
    have hmore : readHolds ⟨m, Function.update s.locals i y⟩ = readHolds s + 1 := by omega
    rw [h.lock, word_locked h.fits] at hfree
    refine ⟨locked, waiting, h.move hpcs hw ?_ ?_, id, fun _ hu => hu.move hw ?_⟩
    · rw [hlock, h.lock, hmore, word_succ]
    · rw [hmore]
      unfold Fits
      omega
    · exact iff_of_false hann' hann
  | leave hlock hr hw hann hann' =>
    have hless : readHolds s = readHolds ⟨m, Function.update s.locals i y⟩ + 1 := by omega
    refine ⟨locked, waiting, h.move hpcs hw ?_ ?_, id, fun _ hu => hu.move hw ?_⟩
    · rw [hlock, h.lock, hless, word_pred]
    · unfold Fits
      omega
    · exact iff_of_false hann' hann
  | announce hlock hr hw hann =>
    have hsame : readHolds ⟨m, Function.update s.locals i y⟩ = readHolds s := by omega
    refine ⟨locked, true, h.move hpcs hw ?_ ?_, id, fun _ hu => ⟨?_, fun _ => ?_⟩⟩
    · rw [hlock, hsame, h.lock, word_set h.fits]
    · rw [hsame]
      exact h.fits
    · intro hlocked
      obtain ⟨j, hj⟩ := hu.byHolder hlocked
      exact ⟨j, (writes_update hw j).trans hj⟩
    · exact iff_of_true rfl (exists_update.mpr (Or.inl hann))
  | acquire hwas hlock hr hw _ =>
    rw [h.lock, word_eq_waiting h.fits] at hwas
    obtain ⟨hzero, rfl, -⟩ := hwas
    have hsame : readHolds ⟨m, Function.update s.locals i y⟩ = 0 := by omega
    -- nobody held it before
    have hnone : ∀ j, (s.locals j).writes ≠ true := fun j hj => by cases h.holder j hj
    have honly : ∀ j, (Function.update s.locals i y j).writes = true → j = i := by
      intro j hj
      by_contra hne
      rw [Function.update_of_ne hne] at hj
      exact hnone j hj
    refine ⟨true, false, ⟨?_, ?_, fun _ _ => rfl, ?_, ?_⟩, fun _ => rfl, fun _ _ => ⟨?_, ?_⟩⟩
    · rw [hsame]
      exact hlock
    · rw [hsame]
      exact fits_writer
    · exact fun j k hj hk => (honly j hj).trans (honly k hk).symm
    · exact hpcs
    · exact fun _ => ⟨i, (congrArg Yarn.writes (Function.update_self ..)).trans hw⟩
    · exact fun hfalse => absurd hfalse (by decide)
  | release hcas hheld hlock hr hw =>
    have hlocked := h.holder i hheld
    subst hlocked
    have hzero := fits_locked h.fits
    have hsame : readHolds ⟨m, Function.update s.locals i y⟩ = 0 := by omega
    have hold : ∀ j, (Function.update s.locals i y j).writes = true →
        (s.locals j).writes = true := by
      intro j hj
      by_cases hne : j = i
      · subst hne
        rw [Function.update_self, hw] at hj
        cases hj
      · rwa [Function.update_of_ne hne] at hj
    refine ⟨true, false, ⟨?_, ?_, fun _ _ => rfl, ?_, ?_⟩, fun _ => rfl, ?_⟩
    · rw [hsame]
      exact hlock
    · rw [hsame]
      exact fits_writer
    · exact fun j k hj hk => h.alone j k (hold j hj) (hold k hk)
    · exact hpcs
    · exact fun hnot => absurd hcas hnot

omit [DecidableEq ι] in
theorem start_inv : Inv (start : State ι) false false where
  lock := by
    have hzero : readHolds (start : State ι) = 0 := Finset.sum_eq_zero fun _ _ => rfl
    rw [hzero]
    rfl
  fits := by
    have hzero : readHolds (start : State ι) = 0 := Finset.sum_eq_zero fun _ _ => rfl
    rw [hzero]
    exact Nat.zero_le _
  holder := fun _ hw => by cases hw
  alone := fun _ _ hw => by cases hw
  pcs := fun _ => trivial

theorem reachable_inv (h : Reachable (RwLock.step pids) start s) :
    ∃ locked waiting, Inv s locked waiting :=
  reachable_invariant (I := fun s => ∃ locked waiting, Inv s locked waiting)
    ⟨false, false, start_inv⟩ (fun _ _ _ hi hs => by
      obtain ⟨locked, waiting, hi⟩ := hi
      obtain ⟨locked', waiting', hi', -⟩ := hi.step hs
      exact ⟨locked', waiting', hi'⟩) h

/-! ## Exclusion -/

/-- A writer that holds the lock is alone. -/
def Exclusive (s : State ι) : Prop :=
  ∀ i, (s.locals i).writes = true →
    (∀ j, (s.locals j).reads = 0) ∧ ∀ j, (s.locals j).writes = true → j = i

/-- In every state of every interleaving a writer excludes everyone else, and the low 30
bits count the read holds while there are fewer than `2 ^ 30`. -/
theorem rwlock_exclusion (pids : ι → ULong) (s : State ι)
    (h : Reachable (RwLock.step pids) start s) :
    Exclusive s ∧ (readHolds s < 2 ^ 30 → (s.memory.lock &&& 0x3FFFFFFF).toNat = readHolds s) := by
  obtain ⟨locked, waiting, hinv⟩ := reachable_inv h
  refine ⟨fun i hi => ⟨fun j => ?_, fun j hj => hinv.alone j i hj hi⟩, fun hlt => ?_⟩
  · have hlocked := hinv.holder i hi
    subst hlocked
    have hzero := fits_locked hinv.fits
    have hle : (s.locals j).reads ≤ readHolds s := le_sum_of_party s.locals j Yarn.reads
    omega
  · have hmask : (0x3FFFFFFF : ULong) = BitVec.ofNat 64 (2 ^ 30 - 1) := rfl
    have hfits := hinv.fits
    unfold Fits at hfits
    rw [hmask, mask_low _ (by decide), hinv.lock, word_toNat hinv.fits]
    cases waiting <;> cases locked <;> simp only [Bool.toNat_true, Bool.toNat_false] at * <;> omega

/-- A writer waits for a reader and gets the lock when the reader leaves; another reader finds it
locked. -/
def writerAfterReader : List (Fin 3 × Act) :=
  [(0, .readLock), (0, .step), (0, .step), (2, .writeLock), (2, .step), (2, .step), (2, .step),
    (2, .step), (0, .readUnlock), (0, .step), (2, .step), (2, .step), (1, .readLock), (1, .step)]

theorem rwlock_exclusion_writerAfterReader : ∃ s : State (Fin 3),
    run (RwLock.step fun i => BitVec.ofNat 64 i.val) start writerAfterReader = some s ∧
      ((s.locals 2).writes = true ∧ (s.locals 1).pc = .readYield) ∧ Exclusive s ∧
      (readHolds s < 2 ^ 30 → (s.memory.lock &&& 0x3FFFFFFF).toNat = readHolds s) := by
  have hrun : (run (RwLock.step fun i : Fin 3 => BitVec.ofNat 64 i.val) start
      writerAfterReader).map (fun s => ((s.locals 2).writes, (s.locals 1).pc)) =
        some (true, .readYield) := by
    decide +kernel
  obtain ⟨s, hs, hholds⟩ := Option.map_eq_some_iff.mp hrun
  exact ⟨s, hs, Prod.mk.inj hholds, rwlock_exclusion _ s ⟨writerAfterReader, hs⟩⟩

/-! ## Availability -/

/-- In the loop of `write_lock` that acquires. -/
def Yarn.Acquiring (y : Yarn) : Prop := y.pc = .writeTest ∨ y.pc = .writeCas

def Yarn.Unlocking (y : Yarn) : Prop :=
  match y.pc with
  | .readAdd | .readUnlockYield | .unlockLoad | .unlockReload _ | .unlockCas _ _ | .unlockYield
  | .unlockWriter | .unlockWriterYield => True
  | _ => False

/-- Nobody holds the lock and nobody is giving it back. -/
def Quiescent (s : State ι) : Prop :=
  ∀ i, (s.locals i).reads = 0 ∧ (s.locals i).writes = false ∧ ¬ (s.locals i).Unlocking

/-- The waiting bit alone while a writer is in the acquisition loop, `0` when no writer is
on its way; between its announcement and the loop the word may be either. -/
def Available (s : State ι) : Prop :=
  (s.memory.lock = 0 ∨ s.memory.lock = 0x80000000) ∧
    ((∃ i, (s.locals i).Acquiring) → s.memory.lock = 0x80000000) ∧
    ((∀ i, ¬ (s.locals i).Announced) → s.memory.lock = 0)

theorem Yarn.Acquiring.announced (h : y.Acquiring) : y.Announced := Or.inr h

omit [DecidableEq ι] in
theorem Inv.available_of_unreleased (h : Inv s locked waiting) (hu : Unreleased s locked waiting)
    (hq : Quiescent s) : Available s := by
  have hzero : readHolds s = 0 := Finset.sum_eq_zero fun i _ => (hq i).1
  have hlocked : locked = false := by
    by_contra hne
    obtain ⟨i, hi⟩ := hu.byHolder (Bool.eq_true_of_not_eq_false hne)
    rw [(hq i).2.1] at hi
    cases hi
  subst hlocked
  have hwriters := hu.byWriters rfl
  have hlock := h.lock
  rw [hzero] at hlock
  cases waiting with
  | true =>
    refine ⟨Or.inr hlock, fun _ => hlock, fun hnone => ?_⟩
    obtain ⟨i, hi⟩ := hwriters.mp rfl
    exact absurd hi (hnone i)
  | false =>
    refine ⟨Or.inl hlock, fun hacq => ?_, fun _ => hlock⟩
    obtain ⟨i, hi⟩ := hacq
    exact absurd (hwriters.mpr ⟨i, hi.announced⟩) (by decide)

omit [DecidableEq ι] in
/-- With the write bit and without a holder nobody gets the lock any more. -/
theorem Inv.not_available (h : Inv s true waiting) : ¬ Available s := by
  intro hav
  have hlock := h.lock
  rw [fits_locked h.fits] at hlock
  rcases hav.1 with hzero | hwaiting
  · rw [hlock] at hzero
    cases waiting <;> exact absurd hzero (by decide)
  · rw [hlock] at hwaiting
    cases waiting <;> exact absurd hwaiting (by decide)

theorem run_locked (h : Inv s true waiting) (hr : run (RwLock.step pids) s as = some t) :
    ∃ waiting', Inv t true waiting' :=
  reachable_invariant (I := fun s => ∃ waiting, Inv s true waiting) ⟨waiting, h⟩
    (fun _ _ _ hi hs => by
      obtain ⟨waiting, hi⟩ := hi
      obtain ⟨locked', waiting', hi', hkeep, -⟩ := hi.step hs
      obtain rfl := hkeep rfl
      exact ⟨waiting', hi'⟩) ⟨as, hr⟩

/-- Up to its first releasing step a run keeps the write bit to its holder; after it, the
bit is there for ever. -/
theorem run_cases (h : Inv s locked waiting) (hu : Unreleased s locked waiting)
    (hr : run (RwLock.step pids) s as = some t) :
    (Along (RwLock.step pids) (fun s p _ => ¬ Releases s p) s as ∧
        ∃ locked' waiting', Inv t locked' waiting' ∧ Unreleased t locked' waiting') ∨
      (¬ Along (RwLock.step pids) (fun s p _ => ¬ Releases s p) s as ∧
        ∃ waiting', Inv t true waiting') := by
  induction as generalizing s locked waiting with
  | nil =>
    obtain rfl := Option.some.inj hr
    exact Or.inl ⟨trivial, locked, waiting, h, hu⟩
  | cons p as ih =>
    obtain ⟨u, hs, hrest⟩ := run_cons_iff.mp hr
    obtain ⟨locked', waiting', h', hkeep, hu'⟩ := h.step hs
    by_cases hrel : Releases s p
    · obtain rfl := hkeep (h.locked_of_releases hrel)
      exact Or.inr ⟨fun halong => (halong u hs).1 hrel, run_locked h' hrest⟩
    · rcases ih h' (hu' hrel hu) hrest with ⟨halong, hend⟩ | ⟨halong, hend⟩
      · exact Or.inl ⟨along_cons hs hrel halong, hend⟩
      · exact Or.inr ⟨fun hall => halong (hall u hs).2, hend⟩

omit [DecidableEq ι] [Fintype ι] in
theorem start_unreleased : Unreleased (start : State ι) false false where
  byHolder := fun h => absurd h (by decide)
  byWriters := by
    refine fun _ => iff_of_false (by decide) fun h => ?_
    obtain ⟨i, hi⟩ := h
    rcases hi with hi | hi | hi <;> cases hi

/-- Take any run to a state in which nobody holds the lock or gives it back. The lock is
available there if and only if no write lock was released in the run. -/
theorem available_iff (pids : ι → ULong) (as : List (ι × Act)) (s : State ι)
    (h : run (RwLock.step pids) start as = some s) (hq : Quiescent s) :
    Available s ↔ Along (RwLock.step pids) (fun s p _ => ¬ Releases s p) start as := by
  rcases run_cases start_inv start_unreleased h with ⟨halong, locked, waiting, hinv, hu⟩ |
      ⟨halong, waiting, hinv⟩
  · exact iff_of_true (hinv.available_of_unreleased hu hq) halong
  · exact iff_of_false hinv.not_available halong

/-- A reader comes and goes. -/
def oneReader : List (Unit × Act) :=
  [((), .readLock), ((), .step), ((), .step), ((), .readUnlock), ((), .step)]

theorem available_iff_oneReader : ∃ s : State Unit,
    run (RwLock.step fun _ => 1) start oneReader = some s ∧ Quiescent s ∧
      (Available s ↔ Along (RwLock.step fun _ => 1) (fun s p _ => ¬ Releases s p) start
        oneReader) := by
  have hrun : (run (RwLock.step fun _ : Unit => 1) start oneReader).map (fun s => s.locals ()) =
      some .fresh := by
    decide +kernel
  obtain ⟨s, hs, hidle⟩ := Option.map_eq_some_iff.mp hrun
  have hq : Quiescent s := by
    intro i
    rw [Subsingleton.elim i (), hidle]
    exact ⟨rfl, rfl, id⟩
  exact ⟨s, hs, hq, available_iff _ oneReader s hs hq⟩

/-- A writer comes and goes. -/
def oneWriter : List (Unit × Act) :=
  ((), .writeLock) :: List.replicate 5 ((), .step) ++
    ((), .writeUnlock) :: List.replicate 4 ((), .step)

/-- The write bit stays behind. -/
theorem oneWriter_not_available : ∃ s : State Unit,
    run (RwLock.step fun _ => 1) start oneWriter = some s ∧ Quiescent s ∧ ¬ Available s := by
  have hrun : (run (RwLock.step fun _ : Unit => 1) start oneWriter).map
      (fun s => (s.memory.lock, s.locals ())) = some (0x40000000, .fresh) := by
    decide +kernel
  obtain ⟨s, hs, hobs⟩ := Option.map_eq_some_iff.mp hrun
  obtain ⟨hlock, hidle⟩ := Prod.mk.inj hobs
  refine ⟨s, hs, fun i => ?_, fun hav => ?_⟩
  · rw [Subsingleton.elim i (), hidle]
    exact ⟨rfl, rfl, id⟩
  · have hword := hav.1
    rw [hlock] at hword
    exact absurd hword (by decide)

end RwLock

end Yarns
