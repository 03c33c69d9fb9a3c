import Yarns.Sync.Lock

/-!
# Every interleaving of the recursive lock

The lock word is a yarn's pid exactly while that yarn holds the lock, so two yarns never
hold it and a yarn finds its own pid only when it may go on (`Inv`). The holder's depth is
its number of unmatched calls as a word: with fewer than `2 ^ 64` of them it is that
number, and the outermost unlock is the one that sees `0` (`lock_contract`). A yarn that
nests `2 ^ 64` calls has depth `0` (`nested_calls_wrap`).
-/

namespace Yarns

open Base

namespace YarnLock

variable {ι : Type} [DecidableEq ι]

/-- The lock and its yarns. -/
abbrev State (ι : Type) := Parties YarnLock Yarn ι

def start : State ι := ⟨init, fun _ => ⟨.idle, 0⟩⟩

/-- One access or call of one yarn; `pids` are the pids of the yarns. -/
def step (pids : ι → ULong) : State ι → ι × Act → Option (State ι) :=
  Parties.step fun i => act (pids i)

structure Inv (pids : ι → ULong) (s : State ι) : Prop where
  owner : ∀ i, (s.locals i).Holds ↔ s.memory.lock = pids i
  depths : ∀ i, DepthOk s.memory.depth (s.locals i)

/-- The store that ends the outermost unlock of a holder. -/
def Outermost (s : State ι) (p : ι × Act) : Prop :=
  (s.locals p.1).pc = .unlockClear ∧ (s.locals p.1).calls = 0 ∧ (s.locals p.1).Holds

/-- Every yarn has fewer unmatched calls than there are words. -/
def Shallow (s : State ι) : Prop := ∀ i, (s.locals i).calls < 2 ^ 64

variable {pids : ι → ULong} {s t : State ι} {p : ι × Act} {as : List (ι × Act)} {i j : ι}

omit [DecidableEq ι] in
theorem Inv.unique (hinj : Function.Injective pids) (h : Inv pids s)
    (hi : (s.locals i).Holds) (hj : (s.locals j).Holds) : i = j :=
  hinj (((h.owner i).mp hi).symm.trans ((h.owner j).mp hj))

omit [DecidableEq ι] in
theorem start_inv (h0 : ∀ i, pids i ≠ 0) : Inv pids (start : State ι) where
  owner := fun i => iff_of_false (Nat.lt_irrefl 0) fun h => h0 i h.symm
  depths := fun _ h => absurd h (Nat.lt_irrefl 0)

theorem step_inv (hinj : Function.Injective pids) (h0 : ∀ i, pids i ≠ 0) (h : Inv pids s)
    (hs : step pids s p = some t) (hb : Shallow t) :
    Inv pids t ∧ (t.memory.lock = 0 → s.memory.lock = 0 ∨ Outermost s p) := by
  obtain ⟨i, a⟩ := p
  obtain ⟨m, y, hact, rfl⟩ := Parties.step_cases hs
  have hcalls : y.calls < 2 ^ 64 := by
    have hbi := hb i
    simp only [Function.update_self] at hbi
    exact hbi
  obtain ⟨heffect, hok⟩ := act_cases (h.owner i) (h.depths i) hact hcalls
  cases heffect with
  | keep hlock hdepth hholds =>
    refine ⟨⟨?_, ?_⟩, fun hz => Or.inl (hlock ▸ hz)⟩
    · dsimp only
      rw [hlock]
      exact forall_update (P := fun j (y : Yarn) => y.Holds ↔ s.memory.lock = pids j)
        (fun j _ => h.owner j) (hholds.trans (h.owner i))
    · refine forall_update (P := fun _ y => DepthOk m.depth y) (fun j hj => ?_) hok
      rcases hdepth with hdepth | hi
      · rw [hdepth]
        exact h.depths j
      · -- somebody else wrote the depth, so `j` does not rely on it
        exact (h.depths j).of_not_holds fun hj' => hj (h.unique hinj hj' hi)
  | acquire hfree hlock hdepth hholds =>
    refine ⟨⟨?_, ?_⟩, fun _ => Or.inl hfree⟩
    · dsimp only
      rw [hlock]
      refine forall_update (P := fun j (y : Yarn) => y.Holds ↔ pids i = pids j) (fun j hj => ?_)
        (iff_of_true hholds rfl)
      refine iff_of_false (fun hj' => ?_) fun heq => hj (hinj heq).symm
      rw [h.owner j, hfree] at hj'
      exact h0 j hj'.symm
    · rw [hdepth] at hok
      dsimp only
      rw [hdepth]
      exact forall_update (P := fun _ y => DepthOk s.memory.depth y) (fun j _ => h.depths j) hok
  | clear hpc hzero hlock hdepth hholds hnot =>
    refine ⟨⟨?_, ?_⟩, fun _ => Or.inr ⟨hpc, hzero, hholds⟩⟩
    · dsimp only
      rw [hlock]
      refine forall_update (P := fun j (y : Yarn) => y.Holds ↔ 0 = pids j) (fun j hj => ?_)
        (iff_of_false hnot fun heq => h0 i heq.symm)
      exact iff_of_false (fun hj' => hj (h.unique hinj hj' hholds)) fun heq => h0 j heq.symm
    · rw [hdepth] at hok
      dsimp only
      rw [hdepth]
      exact forall_update (P := fun _ y => DepthOk s.memory.depth y) (fun j _ => h.depths j) hok

theorem run_inv (hinj : Function.Injective pids) (h0 : ∀ i, pids i ≠ 0)
    (hb : Along (step pids) (fun _ _ t => Shallow t) start as)
    (hr : run (step pids) start as = some s) : Inv pids s := by
  refine run_invariant (I := Inv pids) (start_inv h0) ?_ hb hr
  exact fun s p t hi hshallow hs => (step_inv hinj h0 hi hs hshallow).1

/-- The contract of the lock, for yarns with distinct pids that are not `0`, in every state
of every interleaving in which no yarn has `2 ^ 64` unmatched calls. -/
theorem lock_contract (pids : ι → ULong) (hinj : Function.Injective pids)
    (h0 : ∀ i, pids i ≠ 0) (as : List (ι × Act)) (s : State ι)
    (hb : Along (step pids) (fun _ _ t => Shallow t) start as)
    (hr : run (step pids) start as = some s) :
    (∀ i j, (s.locals i).Holds → (s.locals j).Holds → i = j) ∧
    (∀ i, (s.locals i).Holds → s.memory.lock = pids i) ∧
    (∀ i, (s.locals i).pc = .idle → (s.locals i).Holds →
      s.memory.depth.toNat = (s.locals i).calls) ∧
    ∀ p t, step pids s p = some t → Shallow t → s.memory.lock ≠ 0 → t.memory.lock = 0 →
      Outermost s p := by
  have hinv := run_inv hinj h0 hb hr
  have hshallow : Shallow s := by
    rcases List.eq_nil_or_concat as with rfl | ⟨bs, p, rfl⟩
    · obtain rfl := Option.some.inj hr
      exact fun _ => Nat.two_pow_pos 64
    · rw [List.concat_eq_append] at hb hr
      rw [run_append] at hr
      obtain ⟨u, hu, hlast⟩ := Option.bind_eq_some_iff.mp hr
      obtain ⟨v, hv, hnil⟩ := run_cons_iff.mp hlast
      obtain rfl := Option.some.inj hnil
      exact along_last hb hu hv
  refine ⟨fun i j => hinv.unique hinj, fun i => (hinv.owner i).mp, fun i hidle hi => ?_,
    fun p t hs ht hne hz => ?_⟩
  · have hdepth := hinv.depths i
    rw [DepthOk, hidle] at hdepth
    rw [Yarn.Holds, hidle] at hi
    rw [hdepth hi, BitVec.toNat_ofNat, Nat.mod_eq_of_lt (hshallow i)]
  · exact ((step_inv hinj h0 hinv hs ht).2 hz).resolve_left hne

/-! ## Long runs only nest deeply -/

theorem act_calls {pid : ULong} {m m' : YarnLock} {y y' : Yarn} {a : Act}
    (h : act pid m y a = some (m', y')) : y'.calls ≤ y.calls + 1 := by
  obtain ⟨pc, calls⟩ := y
  cases a with
  | lock =>
    simp only [act] at h
    split at h <;> cases h
    exact Nat.le_succ calls
  | unlock =>
    simp only [act] at h
    split at h <;> cases h
    dsimp only
    omega
  | step =>
    cases pc with
    | idle => cases h
    | lockLoad | cas | unlockTest =>
      simp only [act, access] at h
      split at h <;> cases h <;> exact Nat.le_succ calls
    | sitterTest =>
      simp only [act, access] at h
      split at h <;> cases h
      · exact Nat.le_succ calls
      · exact Nat.le_refl _
    | depthStore d | sitterClear =>
      cases h
      exact Nat.le_refl _
    | depthLoad | sitterStore | lockYield | depthOne | unlockLoad | unlockStore d | unlockClear
    | unlockYield =>
      cases h
      exact Nat.le_succ calls

/-- A run of fewer than `2 ^ 64` steps meets the condition. -/
theorem shallow_of_length {k : Nat} (hk : ∀ i, (s.locals i).calls ≤ k)
    (hlen : k + as.length < 2 ^ 64) : Along (step pids) (fun _ _ t => Shallow t) s as := by
  induction as generalizing s k with
  | nil => trivial
  | cons p as ih =>
    intro t ht
    obtain ⟨i, a⟩ := p
    obtain ⟨m, y, hact, rfl⟩ := Parties.step_cases ht
    have hle := act_calls hact
    have hnext : ∀ j, (Function.update s.locals i y j).calls ≤ k + 1 := by
      refine forall_update (P := fun _ (y : Yarn) => y.calls ≤ k + 1) (fun j _ => ?_) ?_
      · exact Nat.le_succ_of_le (hk j)
      · exact hle.trans (Nat.succ_le_succ (hk i))
    rw [List.length_cons] at hlen
    exact ⟨fun j => lt_of_le_of_lt (hnext j) (by omega), ih hnext (by omega)⟩

/-- One yarn holds the lock twice, another waits. -/
def nestedTwice : List (Bool × Act) :=
  (false, .lock) :: List.replicate 4 (false, .step) ++
    (false, .lock) :: List.replicate 3 (false, .step) ++
    (true, .lock) :: List.replicate 3 (true, .step)

theorem lock_contract_nestedTwice : ∃ s : State Bool,
    run (step fun i => if i then 2 else 1) start nestedTwice = some s ∧
      (s.locals false).Holds ∧ s.memory.depth = 2 ∧
      ∀ i j, (s.locals i).Holds → (s.locals j).Holds → i = j := by
  have hrun : (run (step fun i : Bool => if i then 2 else 1) start nestedTwice).map
      (fun s => (s.locals false, s.memory.depth)) = some (⟨.idle, 2⟩, 2) := by
    decide +kernel
  obtain ⟨s, hs, hobs⟩ := Option.map_eq_some_iff.mp hrun
  obtain ⟨hlocal, hdepth⟩ := Prod.mk.inj hobs
  refine ⟨s, hs, ?_, hdepth, (lock_contract _ ?_ ?_ nestedTwice s ?_ hs).1⟩
  · rw [hlocal]
    exact Nat.two_pos
  · exact fun i j => by revert i j; decide
  · decide
  · exact shallow_of_length (k := 0) (fun _ => Nat.le_refl 0) (by decide)

/-! ## A yarn that nests too deeply -/

/-- One yarn, alone: a state in which it has made `n + 1` nested calls. -/
def Nested (n : Nat) (s : State Unit) : Prop :=
  s.locals () = ⟨.idle, n + 1⟩ ∧ s.memory.lock = 1 ∧ s.memory.depth = BitVec.ofNat 64 (n + 1)

theorem nest_once {n : Nat} {s : State Unit} (h : Nested n s) :
    ∃ t, run (step fun _ => 1) s (((), .lock) :: List.replicate 3 ((), .step)) = some t ∧
      Nested (n + 1) t := by
  obtain ⟨hlocal, hlock, hdepth⟩ := h
  refine ⟨⟨{ s.memory with depth := s.memory.depth + 1 }, fun _ => ⟨.idle, n + 2⟩⟩, ?_, rfl,
    hlock, ?_⟩
  · have hall : ∀ (f : Unit → Yarn) (y : Yarn), Function.update f () y = fun _ => y := by
      intro f y
      funext i
      rw [Subsingleton.elim i (), Function.update_self]
    simp [run, step, Parties.step, act, access, hlocal, hlock, hall]
  · dsimp only
    rw [hdepth, BitVec.ofNat_add (n + 1) 1]
    rfl

theorem nested_reachable (n : Nat) :
    ∃ s, Reachable (step fun _ => 1) start s ∧ Nested n s := by
  induction n with
  | zero =>
    have hrun : (run (step fun _ : Unit => 1) start
        (((), .lock) :: List.replicate 4 ((), .step))).map
          (fun s => (s.locals (), s.memory.lock, s.memory.depth)) = some (⟨.idle, 1⟩, 1, 1) := by
      decide +kernel
    obtain ⟨s, hs, hobs⟩ := Option.map_eq_some_iff.mp hrun
    obtain ⟨hlocal, hwords⟩ := Prod.mk.inj hobs
    exact ⟨s, ⟨_, hs⟩, hlocal, (Prod.mk.inj hwords).1, (Prod.mk.inj hwords).2⟩
  | succ n ih =>
    obtain ⟨s, hs, hnested⟩ := ih
    obtain ⟨t, ht, hnext⟩ := nest_once hnested
    exact ⟨t, hs.trans ⟨_, ht⟩, hnext⟩

/-- After `2 ^ 64` nested calls the depth is `0` while the yarn holds the lock. -/
theorem nested_calls_wrap : ∃ s : State Unit, Reachable (step fun _ => 1) start s ∧
    (s.locals ()).pc = .idle ∧ (s.locals ()).Holds ∧
    s.memory.depth.toNat ≠ (s.locals ()).calls := by
  obtain ⟨s, hs, hlocal, -, hdepth⟩ := nested_reachable (2 ^ 64 - 1)
  refine ⟨s, hs, ?_, ?_, ?_⟩
  · rw [hlocal]
  · rw [hlocal]
    exact Nat.succ_pos _
  · rw [hlocal, hdepth]
    decide

end YarnLock

end Yarns
