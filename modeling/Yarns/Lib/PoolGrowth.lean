import Mathlib.Logic.Relation
import Yarns.Base.Parties
import Yarns.Lib.PoolRuns

/-!
# Threads growing one pool

`allocate` of `lib/pool.c` by any number of threads on one root pool, without releases. Each
load of `availFlags` or `chain`, each compare-and-swap and each call of `pool_create` or
`pool_destroy` is one step. A pool is known by the number of its creation; the root is
pool 0. What a thread reads in a destroyed pool is what was there.

A thread that loses the race to link its new pool destroys it and then allocates from it.
As long as no compare-and-swap on a `chain` field fails, every slot returned is a new one
of a pool that the root reaches (`growth_safe`).
-/

namespace Yarns.PoolGrowth

open Base PoolUse

structure ChainedPool where
  pool : Pool
  chain : Option Nat
  destroyed : Bool

structure Memory where
  pools : List ChainedPool
  /-- What the calls have returned. -/
  returned : List ULong

/-- The next access of a thread. -/
inductive Pc where
  | idle
  | load (p i : Nat)
  | swap (p i : Nat) (availFlags : ULong)
  | chain (p : Nat)
  | follow (p : Nat)
  | create (p : Nat)
  | link (p chained : Nat)
  | destroy (chained : Nat)

def Memory.all (m : Memory) : List Pool := m.pools.map ChainedPool.pool

def Memory.undestroyed (m : Memory) : List Pool :=
  (m.pools.filter fun q => !q.destroyed).map ChainedPool.pool

def Memory.chainOf (m : Memory) (p : Nat) : Option Nat := (m.pools[p]?).bind ChainedPool.chain

/-- The flags of a subpool are changed. -/
def ChainedPool.setSubpool (q : ChainedPool) (i : Nat) (s : Subpool) : ChainedPool :=
  { q with pool := { q.pool with subpools := q.pool.subpools.set i s } }

/-- One access of a thread; an idle one calls `pool_allocate`. `base` is the address that
`yalloc` returns in `pool_create`. -/
def act (m : Memory) (pc : Pc) (base : ULong) : Option (Memory × Pc) :=
  match pc with
  | .idle => some (m, .load 0 0)
  | .load p i => do
    let q ← m.pools[p]?
    match q.pool.subpools[i]? with
    | some s =>
      if s.availFlags ≠ 0 then some (m, .swap p i s.availFlags) else some (m, .load p (i + 1))
    | none => some (m, .chain p)
  | .swap p i availFlags => do
    let q ← m.pools[p]?
    let s ← q.pool.subpools[i]?
    -- the mask and the pointer are computed from the flags that were loaded
    let (s', ptr) ← Subpool.allocate q.pool.size { s with availFlags := availFlags }
    if s.availFlags = availFlags then
      some (⟨m.pools.set p (q.setSubpool i s'), ptr :: m.returned⟩, .idle)
    else some (m, .load 0 0)
  | .chain p => do
    let q ← m.pools[p]?
    if q.chain.isSome then some (m, .follow p) else some (m, .create p)
  | .follow p => do
    let q ← m.pools[p]?
    let c ← q.chain
    some (m, .load c 0)
  | .create p => do
    let q ← m.pools[p]?
    let chained ← poolCreate m.undestroyed q.pool.size q.pool.slots base
    some ({ m with pools := m.pools ++ [⟨chained, none, false⟩] }, .link p m.pools.length)
  | .link p chained => do
    let q ← m.pools[p]?
    if q.chain = none then
      some ({ m with pools := m.pools.set p { q with chain := some chained } },
        .load chained 0)
    else some (m, .destroy chained)
  | .destroy chained => do
    let q ← m.pools[chained]?
    some ({ m with pools := m.pools.set chained { q with destroyed := true } },
      .load chained 0)

/-- The field that the thread's next compare-and-swap is to link a pool to is null. -/
def FieldNull (m : Memory) : Pc → Prop
  | .link p _ => m.chainOf p = none
  | _ => True

instance (m : Memory) (pc : Pc) : Decidable (FieldNull m pc) := by
  unfold FieldNull
  split <;> infer_instance

section

variable {ι : Type} [DecidableEq ι]

def start (root : Pool) : Parties Memory Pc ι := ⟨⟨[⟨root, none, false⟩], []⟩, fun _ => .idle⟩

def step : Parties Memory Pc ι → ι × ULong → Option (Parties Memory Pc ι) :=
  Parties.step fun _ => act

/-- The pool is in the chain of the root. -/
def Reach (m : Memory) (p : Nat) : Prop :=
  Relation.ReflTransGen (fun a b => m.chainOf a = some b) 0 p

/-- `ptr` is a slot of pool `p`. -/
def IsSlotOf (size : ULong) (m : Memory) (p : Nat) (ptr : ULong) : Prop :=
  ∃ q, m.pools[p]? = some q ∧ q.destroyed = false ∧ ∃ s ∈ q.pool.subpools,
    ∃ d < SLOTS_PER_SUBPOOL, ptr.toNat = s.data.toNat + size.toNat * d

/-- No slot was returned twice, and each is in a pool that the root reaches and that is not
destroyed. -/
def Safe (size : ULong) (t : Parties Memory Pc ι) : Prop :=
  t.memory.returned.Nodup ∧
    ∀ ptr ∈ t.memory.returned, ∃ p, Reach t.memory p ∧ IsSlotOf size t.memory p ptr

/-- A thread that is about to link its new pool finds the field still null. -/
def Unraced (s : Parties Memory Pc ι) (a : ι × ULong) (_ : Parties Memory Pc ι) : Prop :=
  FieldNull s.memory (s.locals a.1)

instance (s : Parties Memory Pc ι) (a : ι × ULong) (t : Parties Memory Pc ι) :
    Decidable (Unraced s a t) := inferInstanceAs (Decidable (FieldNull _ _))

/-- A thread is at work on a pool of the chain. -/
def PcOk (m : Memory) : Pc → Prop
  | .idle => True
  | .load p _ | .swap p _ _ | .chain p | .follow p | .create p | .link p _ => Reach m p
  | .destroy _ => False

structure MemoryOk (size slots : ULong) (m : Memory) : Prop where
  pools : PoolUse.Inv size slots ⟨m.all, m.returned⟩
  live : ∀ q ∈ m.pools, q.destroyed = false
  reached : ∀ ptr ∈ m.returned, ∃ p, Reach m p ∧ IsSlotOf size m p ptr

structure Inv (size slots : ULong) (s : Parties Memory Pc ι) : Prop where
  memory : MemoryOk size slots s.memory
  threads : ∀ i, PcOk s.memory (s.locals i)

end

/-! ## What stays while the memory changes -/

variable {size slots base ptr : ULong} {m m' : Memory} {p i c : Nat} {q : ChainedPool}

/-- Links and slots stay where they are. -/
structure Extends (size : ULong) (m m' : Memory) : Prop where
  chain : ∀ a b, m.chainOf a = some b → m'.chainOf a = some b
  slots : ∀ p ptr, IsSlotOf size m p ptr → IsSlotOf size m' p ptr

theorem Extends.refl (size : ULong) (m : Memory) : Extends size m m :=
  ⟨fun _ _ h => h, fun _ _ h => h⟩

theorem Extends.reach (h : Extends size m m') (hp : Reach m p) : Reach m' p := by
  induction hp with
  | refl => exact .refl
  | tail _ hlink ih => exact ih.tail (h.chain _ _ hlink)

theorem Extends.pcOk (h : Extends size m m') {pc : Pc} (hpc : PcOk m pc) : PcOk m' pc := by
  cases pc with
  | idle => trivial
  | destroy c => exact hpc
  | load p i => exact h.reach hpc
  | swap p i flags => exact h.reach hpc
  | chain p => exact h.reach hpc
  | follow p => exact h.reach hpc
  | create p => exact h.reach hpc
  | link p c => exact h.reach hpc

/-- One pool is rewritten: its link is kept or was null, its slots stay. -/
theorem extends_set (hq : m.pools[p]? = some q) (q' : ChainedPool)
    (hchain : q.chain = none ∨ q'.chain = q.chain)
    (hdestroyed : q'.destroyed = q.destroyed)
    (hdata : ∀ s ∈ q.pool.subpools, ∃ s' ∈ q'.pool.subpools, s'.data = s.data)
    (returned : List ULong) : Extends size m ⟨m.pools.set p q', returned⟩ := by
  have hlt : p < m.pools.length := (List.getElem?_eq_some_iff.mp hq).1
  constructor
  · intro a b hab
    simp only [Memory.chainOf, List.getElem?_set] at hab ⊢
    by_cases hap : p = a
    · subst hap
      rw [if_pos rfl, if_pos hlt, Option.bind_some]
      rw [hq, Option.bind_some] at hab
      rcases hchain with hnone | hsame
      · rw [hnone] at hab
        cases hab
      · rwa [hsame]
    · rwa [if_neg hap]
  · rintro a ptr ⟨r, hr, hlive, s, hs, d, hd, hptr⟩
    by_cases hap : p = a
    · subst hap
      obtain rfl := Option.some.inj (hq.symm.trans hr)
      obtain ⟨s', hs', hdata'⟩ := hdata s hs
      refine ⟨q', ?_, hdestroyed.trans hlive, s', hs', d, hd, by rw [hdata']; exact hptr⟩
      rw [List.getElem?_set, if_pos rfl, if_pos hlt]
    · refine ⟨r, ?_, hlive, s, hs, d, hd, hptr⟩
      rw [List.getElem?_set, if_neg hap]
      exact hr

theorem extends_append (size : ULong) (m : Memory) (q : ChainedPool) :
    Extends size m { m with pools := m.pools ++ [q] } := by
  have hold : ∀ (a : Nat) r, m.pools[a]? = some r → (m.pools ++ [q])[a]? = some r := by
    intro a r hr
    rw [List.getElem?_append_left (List.getElem?_eq_some_iff.mp hr).1]
    exact hr
  constructor
  · intro a b hab
    obtain ⟨r, hr, hb⟩ := Option.bind_eq_some_iff.mp hab
    exact Option.bind_eq_some_iff.mpr ⟨r, hold a r hr, hb⟩
  · rintro a ptr ⟨r, hr, hrest⟩
    exact ⟨r, hold a r hr, hrest⟩

/-- The compare-and-swap on the flags exchanges one subpool of one pool. -/
theorem replaces_set {s s' : Subpool} (hq : m.pools[p]? = some q)
    (hs : q.pool.subpools[i]? = some s) :
    Replaces m.all ((m.pools.set p (q.setSubpool i s')).map ChainedPool.pool) s s' := by
  obtain ⟨hp, rfl⟩ := List.getElem?_eq_some_iff.mp hq
  obtain ⟨hi, rfl⟩ := List.getElem?_eq_some_iff.mp hs
  have hpools : m.pools = m.pools.take p ++ m.pools[p] :: m.pools.drop (p + 1) := by simp
  have hsubpools : m.pools[p].pool.subpools = m.pools[p].pool.subpools.take i ++
      m.pools[p].pool.subpools[i] :: m.pools[p].pool.subpools.drop (i + 1) := by simp
  have hall : m.all = (m.pools.take p).map ChainedPool.pool ++
      m.pools[p].pool :: (m.pools.drop (p + 1)).map ChainedPool.pool := by
    rw [Memory.all, ← List.map_cons, ← List.map_append, ← hpools]
  rw [hall, List.set_eq_take_append_cons_drop, if_pos hp, List.map_append, List.map_cons,
    ChainedPool.setSubpool, List.set_eq_take_append_cons_drop, if_pos hi]
  exact replaces_of_split hsubpools

/-! ## One access -/

variable {pc pc' : Pc}

theorem MemoryOk.undestroyed (h : MemoryOk size slots m) : m.undestroyed = m.all := by
  rw [Memory.undestroyed, List.filter_eq_self.mpr fun q hq => by rw [h.live q hq]; rfl]
  rfl

theorem MemoryOk.placed (h : MemoryOk size slots m) (hq : m.pools[p]? = some q) :
    Placed size slots q.pool :=
  h.pools.placed q.pool (List.mem_map_of_mem (List.mem_of_getElem? hq))

theorem allocate_slot {s s' : Subpool} (h : s.allocate size = some (s', ptr)) :
    s'.data = s.data ∧ ∃ d < SLOTS_PER_SUBPOOL, ptr = s.data + size * BitVec.ofNat 64 d := by
  rw [Subpool.allocate] at h
  split at h
  · obtain ⟨rfl, rfl⟩ := Prod.mk.inj (Option.some.inj h)
    refine ⟨rfl, _, ?_, rfl⟩
    rw [SLOTS_PER_SUBPOOL]
    omega
  · cases h

theorem setSubpool_data {s s' : Subpool} (hs : q.pool.subpools[i]? = some s)
    (hdata : s'.data = s.data) : ∀ t ∈ q.pool.subpools,
      ∃ t' ∈ (q.setSubpool i s').pool.subpools, t'.data = t.data := by
  intro t ht
  obtain ⟨j, hj, hjt⟩ := List.getElem_of_mem ht
  have hi : i < q.pool.subpools.length := (List.getElem?_eq_some_iff.mp hs).1
  by_cases hij : i = j
  · subst hij
    rw [List.getElem?_eq_getElem hj, hjt] at hs
    obtain rfl := Option.some.inj hs
    exact ⟨s', List.mem_set hi s', hdata⟩
  · refine ⟨t, List.mem_of_getElem? (i := j) ?_, rfl⟩
    rw [ChainedPool.setSubpool, List.getElem?_set, if_neg hij, List.getElem?_eq_getElem hj, hjt]

/-- A successful compare-and-swap on flags. -/
theorem MemoryOk.swap (h : MemoryOk size slots m) (hp : Reach m p) {s s' : Subpool}
    (hq : m.pools[p]? = some q) (hs : q.pool.subpools[i]? = some s)
    (halloc : s.allocate q.pool.size = some (s', ptr)) :
    Extends size m ⟨m.pools.set p (q.setSubpool i s'), ptr :: m.returned⟩ ∧
      MemoryOk size slots ⟨m.pools.set p (q.setSubpool i s'), ptr :: m.returned⟩ := by
  have hi : i < q.pool.subpools.length := (List.getElem?_eq_some_iff.mp hs).1
  have hlt : p < m.pools.length := (List.getElem?_eq_some_iff.mp hq).1
  rw [(h.placed hq).size_eq] at halloc
  have hr : Replaces (PoolUse.pools ⟨m.all, m.returned⟩)
    ((m.pools.set p (q.setSubpool i s')).map ChainedPool.pool) s s' := replaces_set hq hs
  have hpools := h.pools.allocate hr halloc
  obtain ⟨hdata, d, hd, hptr⟩ := allocate_slot halloc
  have hext : Extends size m ⟨m.pools.set p (q.setSubpool i s'), ptr :: m.returned⟩ :=
    extends_set hq (q.setSubpool i s') (Or.inr rfl) rfl (setSubpool_data hs hdata) _
  refine ⟨hext, hpools, ?_, ?_⟩
  · intro r hr
    rcases List.mem_or_eq_of_mem_set hr with hr | rfl
    · exact h.live r hr
    · exact h.live q (List.mem_of_getElem? hq)
  · intro ptr' hptr'
    rcases List.mem_cons.mp hptr' with rfl | hptr'
    · refine ⟨p, hext.reach hp, q.setSubpool i s', ?_, h.live q (List.mem_of_getElem? hq), s',
        List.mem_set hi s', d, hd, ?_⟩
      · rw [List.getElem?_set, if_pos rfl, if_pos hlt]
      · rw [hptr, hdata, h.pools.slot_toNat hr.mem_new.1 hd]
    · obtain ⟨p', hp', hslot⟩ := h.reached ptr' hptr'
      exact ⟨p', hext.reach hp', hext.slots p' ptr' hslot⟩

/-- A new pool, not linked yet. -/
theorem MemoryOk.create (h : MemoryOk size slots m) (hfit : Fits size slots) {root : Pool}
    (hs : poolCreate m.undestroyed size slots base = some root) :
    MemoryOk size slots { m with pools := m.pools ++ [⟨root, none, false⟩] } := by
  rw [h.undestroyed] at hs
  have hext := extends_append size m ⟨root, none, false⟩
  refine ⟨?_, ?_, ?_⟩
  · have hpools := h.pools.chain hfit hs
    rw [Memory.all, List.map_append]
    exact hpools
  · intro r hr
    rcases List.mem_append.mp hr with hr | hr
    · exact h.live r hr
    · rw [List.mem_singleton.mp hr]
  · intro ptr hptr
    obtain ⟨p, hp, hslot⟩ := h.reached ptr hptr
    exact ⟨p, hext.reach hp, hext.slots p ptr hslot⟩

/-- A successful compare-and-swap on a `chain` field. -/
theorem MemoryOk.link (h : MemoryOk size slots m) (hq : m.pools[p]? = some q)
    (hnone : q.chain = none) :
    Extends size m { m with pools := m.pools.set p { q with chain := some c } } ∧
      MemoryOk size slots { m with pools := m.pools.set p { q with chain := some c } } := by
  have hext : Extends size m { m with pools := m.pools.set p { q with chain := some c } } :=
    extends_set hq { q with chain := some c } (Or.inl hnone) rfl (fun s hs => ⟨s, hs, rfl⟩) _
  refine ⟨hext, ?_, ?_, ?_⟩
  · have hall : (m.pools.set p { q with chain := some c }).map ChainedPool.pool = m.all := by
      obtain ⟨hlt, rfl⟩ := List.getElem?_eq_some_iff.mp hq
      rw [List.map_set, Memory.all]
      apply List.ext_getElem?
      intro j
      rw [List.getElem?_set]
      split
      · rename_i hj
        subst hj
        simp [hlt]
      · rfl
    rw [Memory.all, hall]
    exact h.pools
  · intro r hr
    rcases List.mem_or_eq_of_mem_set hr with hr | rfl
    · exact h.live r hr
    · exact h.live q (List.mem_of_getElem? hq)
  · intro ptr hptr
    obtain ⟨p, hp, hslot⟩ := h.reached ptr hptr
    exact ⟨p, hext.reach hp, hext.slots p ptr hslot⟩

/-- One access of a thread that does not lose a race for a `chain` field. -/
theorem act_ok (hfit : Fits size slots) (h : MemoryOk size slots m) (hpc : PcOk m pc)
    (hraced : FieldNull m pc)
    (hact : act m pc base = some (m', pc')) :
    Extends size m m' ∧ MemoryOk size slots m' ∧ PcOk m' pc' := by
  cases pc with
  | idle =>
    cases hact
    exact ⟨.refl size m, h, .refl⟩
  | load p i =>
    simp only [act, Option.bind_eq_bind, Option.bind_eq_some_iff] at hact
    obtain ⟨q, hq, hact⟩ := hact
    split at hact
    · split at hact
      · cases hact
        exact ⟨.refl size m, h, hpc⟩
      · cases hact
        exact ⟨.refl size m, h, hpc⟩
    · cases hact
      exact ⟨.refl size m, h, hpc⟩
  | swap p i flags =>
    simp only [act, Option.bind_eq_bind, Option.bind_eq_some_iff] at hact
    obtain ⟨q, hq, s, hs, ⟨s', ptr⟩, halloc, hact⟩ := hact
    split at hact
    · rename_i hflags
      cases hact
      have hsame : { s with availFlags := flags } = s := by rw [← hflags]
      rw [hsame] at halloc
      obtain ⟨hext, hok⟩ := h.swap hpc hq hs halloc
      exact ⟨hext, hok, trivial⟩
    · cases hact
      exact ⟨.refl size m, h, .refl⟩
  | chain p =>
    simp only [act, Option.bind_eq_bind, Option.bind_eq_some_iff] at hact
    obtain ⟨q, hq, hact⟩ := hact
    split at hact
    · cases hact
      exact ⟨.refl size m, h, hpc⟩
    · cases hact
      exact ⟨.refl size m, h, hpc⟩
  | follow p =>
    simp only [act, Option.bind_eq_bind, Option.bind_eq_some_iff] at hact
    obtain ⟨q, hq, c, hc, hact⟩ := hact
    cases hact
    have hlink : m.chainOf p = some c := Option.bind_eq_some_iff.mpr ⟨q, hq, hc⟩
    exact ⟨.refl size m, h, Relation.ReflTransGen.tail hpc hlink⟩
  | create p =>
    simp only [act, Option.bind_eq_bind, Option.bind_eq_some_iff] at hact
    obtain ⟨q, hq, chained, hchained, hact⟩ := hact
    cases hact
    have hplaced := h.placed hq
    rw [hplaced.size_eq, hplaced.slots_eq] at hchained
    have hext := extends_append size m ⟨chained, none, false⟩
    exact ⟨hext, h.create hfit hchained, hext.pcOk hpc⟩
  | link p c =>
    simp only [act, Option.bind_eq_bind, Option.bind_eq_some_iff] at hact
    obtain ⟨q, hq, hact⟩ := hact
    have hnone : q.chain = none := by
      rwa [FieldNull, Memory.chainOf, hq, Option.bind_some] at hraced
    rw [if_pos hnone] at hact
    cases hact
    obtain ⟨hext, hok⟩ := h.link (c := c) hq hnone
    refine ⟨hext, hok, (hext.reach hpc).tail ?_⟩
    have hlt : p < m.pools.length := (List.getElem?_eq_some_iff.mp hq).1
    rw [Memory.chainOf, List.getElem?_set, if_pos rfl, if_pos hlt]
    rfl
  | destroy c => exact hpc.elim

/-! ## Interleavings -/

variable {ι : Type} [DecidableEq ι] {s t : Parties Memory Pc ι}

omit [DecidableEq ι] in
theorem start_inv (hfit : Fits size slots) {root : Pool}
    (hroot : poolCreate [] size slots base = some root) :
    Inv size slots (start root : Parties Memory Pc ι) where
  memory :=
    { pools := PoolUse.start_inv hfit (by rw [PoolUse.start, hroot]; rfl)
      live := fun q hq => by rw [List.mem_singleton.mp hq]
      reached := fun ptr hptr => by cases hptr }
  threads := fun _ => trivial

theorem step_inv (hfit : Fits size slots) (h : Inv size slots s) {a : ι × ULong}
    (hraced : Unraced s a t) (hs : step s a = some t) : Inv size slots t := by
  obtain ⟨i, base⟩ := a
  obtain ⟨m', pc', hact, rfl⟩ := Parties.step_cases hs
  obtain ⟨hext, hok, hpc⟩ := act_ok hfit h.memory (h.threads i) hraced hact
  exact ⟨hok, forall_update (P := fun _ pc => PcOk m' pc)
    (fun j _ => hext.pcOk (h.threads j)) hpc⟩

/-- Any number of threads, any interleaving: as long as no thread finds that another has
linked a pool before it, no slot is returned twice and every slot is in a pool that the root
reaches. -/
theorem growth_safe {size slots base : ULong} {root : Pool} (hfit : Fits size slots)
    (hroot : poolCreate [] size slots base = some root) (as : List (ι × ULong))
    (hraced : Along step Unraced (start root) as) :
    Along step (fun _ _ t => Safe size t) (start root) as := by
  refine along_of_invariant (start_inv hfit hroot) ?_ hraced
  intro s a t h hunraced hs
  have hinv := step_inv hfit h hunraced hs
  exact ⟨hinv, hinv.memory.pools.nodup, hinv.memory.reached⟩

/-- A pool of 8-byte objects with one subpool. -/
def smallRoot : Pool := ⟨4096, 8, 1, [⟨ulongMax, 4152⟩]⟩

theorem smallRoot_create : poolCreate [] 8 1 4096 = some smallRoot := by decide

/-- Two threads load the same flags, and the second fails its compare-and-swap and starts
again. When no slot is left it links a new pool, and the first follows the chain. -/
def drainAndGrow : List (Bool × ULong) :=
  [(false, 0), (true, 0), (false, 0), (true, 0), (false, 0), (true, 0), (true, 0), (true, 0)] ++
    List.replicate 90 (false, 0) ++ List.replicate 4 (true, 0) ++ [(true, 8192)] ++
    List.replicate 3 (true, 0) ++ List.replicate 7 (false, 0)

theorem growth_safe_drainAndGrow :
    (run step (start smallRoot) drainAndGrow).map (fun s => s.memory.returned.take 3) =
        some [8488, 8752, 4152] ∧
      Along step (fun _ _ t => Safe 8 t) (start smallRoot) drainAndGrow :=
  ⟨by decide +kernel,
    growth_safe ⟨by decide, by decide⟩ smallRoot_create drainAndGrow (by decide +kernel)⟩

/-! ## The loser of a race -/

/-- The slot returned last is in no pool that is still there. -/
def Dangling (size : ULong) (m : Memory) : Bool :=
  m.returned.head?.any fun ptr => m.pools.all fun q => q.destroyed ||
    q.pool.subpools.all fun s => ptr.toNat < s.data.toNat ||
      s.data.toNat + size.toNat * SLOTS_PER_SUBPOOL < ptr.toNat

omit [DecidableEq ι] in
theorem Dangling.not_safe (h : Dangling size s.memory = true) : ¬ Safe size s := by
  obtain ⟨ptr, hptr, hpools⟩ := (Option.any_eq_true _ _).mp h
  rintro ⟨-, hslots⟩
  obtain ⟨p, -, q, hq, hlive, sub, hsub, d, hd, heq⟩ := hslots ptr (List.mem_of_mem_head? hptr)
  have hq' := List.all_eq_true.mp hpools q (List.mem_of_getElem? hq)
  rw [hlive, Bool.false_or] at hq'
  have hout := List.all_eq_true.mp hq' sub hsub
  rw [Bool.or_eq_true, decide_eq_true_iff, decide_eq_true_iff] at hout
  have hle : size.toNat * d ≤ size.toNat * SLOTS_PER_SUBPOOL :=
    Nat.mul_le_mul_left _ (Nat.le_of_lt hd)
  omega

/-- The small root with the flags `x`, between calls. -/
def solo (x : ULong) (returned : List ULong) : Parties Memory Pc Bool :=
  ⟨⟨[⟨⟨4096, 8, 1, [⟨x, 4152⟩]⟩, none, false⟩], returned⟩, fun _ => .idle⟩

/-- Flags and results after one call while there is a slot. -/
def afterCall (u : ULong × List ULong) : ULong × List ULong :=
  let bitPosition := SLOTS_PER_SUBPOOL - clz u.1 - 1
  (u.1 &&& ~~~intShift bitPosition, (4152 + 8 * BitVec.ofNat 64 bitPosition) :: u.2)

theorem solo_call {u : ULong × List ULong} (hu : u.1 ≠ 0) :
    run step (solo u.1 u.2) (List.replicate 3 (false, 0)) =
      some (solo (afterCall u).1 (afterCall u).2) := by
  have hlocals : ∀ pc, Function.update (Function.update (fun _ : Bool => Pc.idle) false pc)
      false .idle = fun _ => .idle := by
    intro pc
    rw [Function.update_idem, Function.update_eq_self]
  simp only [List.replicate, run, step, Parties.step, act, solo, Function.update_self,
    Option.map_some, Option.bind_some, List.getElem?_cons_zero, Option.bind_eq_bind, hu, ne_eq,
    not_false_eq_true, if_true, Subpool.allocate, ChainedPool.setSubpool, List.set_cons_zero,
    Function.update_idem, Function.update_eq_self, afterCall]

/-- `n` calls of one thread, as long as there is a slot each time. -/
theorem solo_calls (n : Nat) {u : ULong × List ULong}
    (hu : ∀ k < n, (afterCall^[k] u).1 ≠ 0) :
    run step (solo u.1 u.2) (List.replicate (3 * n) (false, 0)) =
      some (solo (afterCall^[n] u).1 (afterCall^[n] u).2) := by
  induction n with
  | zero => rfl
  | succ n ih =>
    rw [Nat.mul_succ, List.replicate_add, run_append,
      ih fun k hk => hu k (Nat.lt_succ_of_lt hk), Option.bind_some,
      solo_call (hu n (Nat.lt_succ_self n)), Function.iterate_succ_apply']

/-- What one thread has taken when no slot is left. -/
def taken : List ULong := (afterCall^[32] (ulongMax, [])).2

theorem solo_exhausted : run step (start smallRoot) (List.replicate 96 (false, 0)) =
    some (solo 0 taken) := by
  have hcalls := solo_calls 32 (u := (ulongMax, [])) (by decide +kernel)
  have hzero : (afterCall^[32] (ulongMax, [])).1 = 0 := by decide +kernel
  rw [hzero] at hcalls
  exact hcalls

/-- Both threads find the pool exhausted and its `chain` null. -/
def bothGrow : List (Bool × ULong) :=
  List.replicate 4 (false, 0) ++ List.replicate 4 (true, 0) ++
    List.replicate 2 (false, 8192) ++ List.replicate 4 (true, 12288)

/-- The second to link its pool returns a slot of it all the same. -/
theorem loser_slot_dangling : ¬ ∀ as : List (Bool × ULong),
    Along step (fun _ _ t => Safe 8 t) (start smallRoot) as := by
  intro h
  obtain ⟨_, t, hsafe, hdangling⟩ := along_observed
    (f := fun _ (t : Parties Memory Pc Bool) => Dangling 8 t.memory)
    (h (List.replicate 96 (false, 0) ++ bothGrow ++ [(true, 0)])) (x := true) (by
      rw [run_append, solo_exhausted, Option.bind_some]
      decide +kernel)
  exact Dangling.not_safe hdangling hsafe

end Yarns.PoolGrowth
