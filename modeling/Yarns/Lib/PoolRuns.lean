import Mathlib.Data.List.Pairwise
import Yarns.Base.Run
import Yarns.Lib.Pool

/-!
# Objects of a pool do not overlap

Runs of `pool_allocate` and `pool_free` in which only held pointers are freed. The slot
of an element is a bit position: allocation clears the highest set bit, and because
`1 << 63` is sign-extended it hands out the slots 63, 30, 29, .., 0 of a subpool. The
release of slot `d` sets bit `64 - d` modulo 32 in place of bit `d`: the bit of another
slot, its `partner`. So the objects stay apart as long as a slot is not released while
its partner is held (`held_noOverlap`), and otherwise a held slot is handed out again
(`slot_handed_out_twice`).
-/

namespace Yarns

open Base

/-- The slots that `pool_allocate` hands out. -/
def IsSlot (d : Nat) : Prop := d = 63 ∨ d ≤ 30

/-- The slot whose bit the release of slot `d` sets. -/
def partner (d : Nat) : Nat := if d = 63 then 1 else if d = 1 then 63 else 32 - d

theorem IsSlot.lt {d : Nat} (h : IsSlot d) : d < 64 := by
  unfold IsSlot at h
  omega

/-! ## Bits -/

theorem intShift_getLsbD {n i : Nat} (hi : i < 64) :
    (intShift n).getLsbD i = if n % 32 = 31 then decide (31 ≤ i) else decide (i = n % 32) := by
  have key : ∀ k : Fin 32, ∀ i : Fin 64,
      (((1 : BitVec 32) <<< k.val).signExtend 64).getLsbD i.val =
        if k.val = 31 then decide (31 ≤ i.val) else decide (i.val = k.val) := by
    decide +kernel
  exact key ⟨n % 32, Nat.mod_lt _ (by decide)⟩ ⟨i, hi⟩

/-- The bits from 31 on are all set or all clear. -/
def Uniform (x : ULong) : Prop := ∀ i, 31 ≤ i → i < 64 → x.getLsbD i = x.getLsbD 63

theorem getLsbD_top {x : ULong} (hx : x ≠ 0) : x.getLsbD (63 - clz x) = true :=
  BitVec.getLsbD_true_clz_of_ne_zero (by decide) hx

theorem getLsbD_above_top {x : ULong} {i : Nat} (hi : 63 - clz x < i) : x.getLsbD i = false := by
  have hlt : x.toNat < 2 ^ (64 - clz x) := BitVec.toNat_lt_two_pow_sub_clz
  refine Nat.testBit_lt_two_pow (Nat.lt_of_lt_of_le hlt ?_)
  exact Nat.pow_le_pow_right (by decide) (by omega)

/-- The highest available slot. -/
theorem isSlot_top {x : ULong} (hx : x ≠ 0) (hu : Uniform x) : IsSlot (63 - clz x) := by
  by_cases h : 63 - clz x ≤ 30
  · exact Or.inr h
  · have htop := hu (63 - clz x) (by omega) (by omega)
    rw [getLsbD_top hx] at htop
    by_cases hz : clz x = 0
    · exact Or.inl (by omega)
    · rw [getLsbD_above_top (by omega)] at htop
      cases htop

theorem intShift_slot {b d : Nat} (hb : IsSlot b) (hd : IsSlot d) :
    (intShift b).getLsbD d = decide (d = b) := by
  unfold IsSlot at hb hd
  rw [intShift_getLsbD (by omega)]
  split
  · exact decide_eq_decide.mpr (by omega)
  · exact decide_eq_decide.mpr (by omega)

theorem uniform_clear {x : ULong} {b : Nat} (hu : Uniform x) :
    Uniform (x &&& ~~~intShift b) := by
  intro i hi hlt
  simp only [BitVec.getLsbD_and, BitVec.getLsbD_not, intShift_getLsbD hlt,
    intShift_getLsbD (show 63 < 64 by decide), hu i hi hlt]
  split
  · simp [hi, hlt]
  · have h1 : i ≠ b % 32 := by omega
    have h2 : 63 ≠ b % 32 := by omega
    simp [h1, h2, hlt]

theorem free_bit {d e : Nat} (hd : IsSlot d) (h1 : 1 ≤ d) (he : IsSlot e) :
    (intShift (64 - d)).getLsbD e = decide (e = partner d) := by
  unfold IsSlot at hd he
  unfold partner
  rw [intShift_getLsbD (by omega)]
  split
  · have hd1 : d = 1 := by omega
    subst hd1
    exact decide_eq_decide.mpr (by
      rw [if_neg (by decide), if_pos rfl]
      omega)
  · by_cases h63 : d = 63
    · subst h63
      rw [if_pos rfl]
    · rw [if_neg h63, if_neg (by omega)]
      exact decide_eq_decide.mpr (by omega)

theorem uniform_set {x : ULong} {d : Nat} (hu : Uniform x) :
    Uniform (x ||| intShift (64 - d)) := by
  intro i hi hlt
  simp only [BitVec.getLsbD_or, intShift_getLsbD hlt, intShift_getLsbD (show 63 < 64 by decide),
    hu i hi hlt]
  split
  · simp [hi]
  · have h1 : i ≠ (64 - d) % 32 := by omega
    have h2 : 63 ≠ (64 - d) % 32 := by omega
    simp [h1, h2]

/-! ## Runs -/

/-- The pools of a chain and the pointers its users hold. -/
structure PoolUse where
  pools : List Pool
  held : List ULong

inductive PoolOp where
  | allocate (base : ULong)
  | free (ptr : ULong)

namespace PoolUse

def start (size slots base : ULong) : Option PoolUse :=
  (poolCreate [] size slots base).map fun p => ⟨[p], []⟩

/-- Only pointers that are held are freed. -/
def step (st : PoolUse) : PoolOp → Option PoolUse
  | .allocate base => do
    let (pools, ptr) ← poolAllocate st.pools base
    some ⟨pools, ptr :: st.held⟩
  | .free ptr =>
    if ptr ∈ st.held then some ⟨poolFree st.pools ptr, st.held.erase ptr⟩ else none

def subpools (st : PoolUse) : List Subpool := st.pools.flatMap Pool.subpools

/-- Two areas of `len` bytes do not meet. -/
def Apart (len : Nat) (a b : ULong) : Prop :=
  a.toNat + len ≤ b.toNat ∨ b.toNat + len ≤ a.toNat

/-- Held objects are apart, and each is inside the data area of a subpool. -/
def NoOverlap (size : ULong) (st : PoolUse) : Prop :=
  st.held.Pairwise (Apart size.toNat) ∧
    ∀ ptr ∈ st.held, ∃ p ∈ st.pools, ∃ s ∈ p.subpools, s.data.toNat ≤ ptr.toNat ∧
      ptr.toNat + size.toNat ≤ s.data.toNat + SLOTS_PER_SUBPOOL * size.toNat

/-- The size of a pool's block does not overflow. -/
def Fits (size slots : ULong) : Prop :=
  40 + 16 * ((slots.toNat + 63) / 64) + size.toNat * 64 * ((slots.toNat + 63) / 64) < 2 ^ 64 ∧
    slots.toNat + 63 < 2 ^ 64

/-- A slot other than slot 0 is released while no other held pointer is at its partner
slot in the same subpool. -/
def PartnerFree (size : ULong) (st : PoolUse) (op : PoolOp) (_ : PoolUse) : Prop :=
  ∀ ptr, op = .free ptr → ∀ p ∈ st.pools, ∀ s ∈ p.subpools, ∀ d < SLOTS_PER_SUBPOOL, 1 ≤ d →
    ptr.toNat = s.data.toNat + size.toNat * d →
      ∀ q ∈ st.held.erase ptr, q.toNat ≠ s.data.toNat + size.toNat * partner d

/-! ## The invariant -/

/-- The data areas of a pool are inside its block. -/
structure Placed (size slots : ULong) (p : Pool) : Prop where
  size_eq : p.size = size
  slots_eq : p.slots = slots
  block : p.base.toNat + (sizeTotal size slots).toNat ≤ 2 ^ 64
  inside : ∀ s ∈ p.subpools, p.base.toNat < s.data.toNat ∧
    s.data.toNat + 64 * size.toNat ≤ p.base.toNat + (sizeTotal size slots).toNat

/-- `ptr` is slot `d` of the subpool `s`, and not available. -/
def At (size : ULong) (s : Subpool) (d : Nat) (ptr : ULong) : Prop :=
  IsSlot d ∧ ptr.toNat = s.data.toNat + size.toNat * d ∧ s.availFlags.getLsbD d = false

structure Inv (size slots : ULong) (st : PoolUse) : Prop where
  placed : ∀ p ∈ st.pools, Placed size slots p
  apart : (st.subpools.map Subpool.data).Pairwise (Apart (64 * size.toNat))
  uniform : ∀ s ∈ st.subpools, Uniform s.availFlags
  located : ∀ ptr ∈ st.held, ∃ s ∈ st.subpools, ∃ d, At size s d ptr
  nodup : st.held.Nodup
  pos : 0 < size.toNat

variable {size slots base ptr : ULong} {st st' : PoolUse} {s t : Subpool} {d e : Nat}
  {p : Pool} {pools : List Pool}

theorem Inv.areas_apart (h : st.Inv size slots) (hs : s ∈ st.subpools) (ht : t ∈ st.subpools)
    (hne : s ≠ t) : Apart (64 * size.toNat) s.data t.data := by
  have hsymm : Std.Symm fun a b : Subpool => Apart (64 * size.toNat) a.data b.data :=
    ⟨fun _ _ hab => hab.symm⟩
  exact (List.pairwise_map.mp h.apart).forall hs ht hne

/-- A slot ends before the area does. -/
theorem slot_end (size : ULong) (hd : d < 64) : size.toNat * d + size.toNat ≤ 64 * size.toNat := by
  calc size.toNat * d + size.toNat = size.toNat * (d + 1) := (Nat.mul_succ _ _).symm
    _ ≤ size.toNat * 64 := Nat.mul_le_mul_left _ hd
    _ = 64 * size.toNat := Nat.mul_comm _ _

/-- Two subpools whose areas share a slot are the same. -/
theorem Inv.subpool_unique (h : st.Inv size slots) (hs : s ∈ st.subpools) (ht : t ∈ st.subpools)
    (hd : d < 64) (he : e < 64)
    (heq : s.data.toNat + size.toNat * d = t.data.toNat + size.toNat * e) : s = t := by
  by_contra hne
  have hd' := slot_end size hd
  have he' := slot_end size he
  have hpos := h.pos
  rcases h.areas_apart hs ht hne with hap | hap <;> omega

theorem slot_unique_of_eq (hpos : 0 < size.toNat) {a : Nat}
    (heq : a + size.toNat * d = a + size.toNat * e) : d = e :=
  Nat.eq_of_mul_eq_mul_left hpos (Nat.add_left_cancel heq)

theorem Inv.noOverlap (h : st.Inv size slots) : st.NoOverlap size := by
  constructor
  · refine h.nodup.imp_of_mem ?_
    intro p q hp hq hne
    obtain ⟨s, hs, d, hd, hpd, -⟩ := h.located p hp
    obtain ⟨t, ht, e, he, hqe, -⟩ := h.located q hq
    unfold Apart
    rw [hpd, hqe]
    by_cases hst : s = t
    · subst hst
      have hde : d ≠ e := by
        rintro rfl
        exact hne (BitVec.eq_of_toNat_eq (hpd.trans hqe.symm))
      rcases Nat.lt_or_gt_of_ne hde with hlt | hlt
      · left
        have := Nat.mul_le_mul_left size.toNat hlt
        rw [Nat.mul_succ] at this
        omega
      · right
        have := Nat.mul_le_mul_left size.toNat hlt
        rw [Nat.mul_succ] at this
        omega
    · have hd' := slot_end size (IsSlot.lt hd)
      have he' := slot_end size (IsSlot.lt he)
      rcases h.areas_apart hs ht hst with hap | hap
      · left
        omega
      · right
        omega
  · intro ptr hptr
    obtain ⟨s, hs, d, hd, hpd, -⟩ := h.located ptr hptr
    obtain ⟨p, hp, hsp⟩ := List.mem_flatMap.mp hs
    refine ⟨p, hp, s, hsp, by omega, ?_⟩
    have := slot_end size (IsSlot.lt hd)
    rw [hpd, SLOTS_PER_SUBPOOL]
    omega

/-! ## Creating a pool -/

theorem nsubpools_toNat (hfit : Fits size slots) :
    (nsubpools slots).toNat = (slots.toNat + 63) / 64 := by
  have hsum : (slots + 64 - 1).toNat = slots.toNat + 63 := by
    have := hfit.2
    bv_omega
  rw [nsubpools, BitVec.toNat_udiv, hsum]
  rfl

theorem sizeTotal_toNat (hfit : Fits size slots) : (sizeTotal size slots).toNat =
    40 + 16 * ((slots.toNat + 63) / 64) + size.toNat * 64 * ((slots.toNat + 63) / 64) := by
  rw [sizeTotal, BitVec.toNat_add, BitVec.toNat_add, BitVec.toNat_mul, BitVec.toNat_mul,
    BitVec.toNat_mul, nsubpools_toNat hfit]
  have h40 : (40 : ULong).toNat = 40 := rfl
  have h16 : (16 : ULong).toNat = 16 := rfl
  have h64 : (64 : ULong).toNat = 64 := rfl
  rw [h40, h16, h64]
  simp only [Nat.add_mod_mod, Nat.mod_add_mod, Nat.mod_mul_mod]
  exact Nat.mod_eq_of_lt hfit.1

theorem next_area (size : ULong) (i : Nat) :
    (i + 1) * (64 * size.toNat) = i * (64 * size.toNat) + 64 * size.toNat :=
  Nat.succ_mul i _

theorem data_toNat (hfit : Fits size slots) (hpos : 0 < size.toNat)
    (hblock : base.toNat + (sizeTotal size slots).toNat ≤ 2 ^ 64) {i : Nat}
    (hi : i < (nsubpools slots).toNat) :
    (base + 40 + 16 * nsubpools slots + BitVec.ofNat 64 i * (64 * size)).toNat =
      base.toNat + 40 + 16 * (nsubpools slots).toNat + i * (64 * size.toNat) ∧
    base.toNat + 40 + 16 * (nsubpools slots).toNat + (i + 1) * (64 * size.toNat) ≤
      base.toNat + (sizeTotal size slots).toNat := by
  have hend : base.toNat + 40 + 16 * (nsubpools slots).toNat + (i + 1) * (64 * size.toNat) ≤
      base.toNat + (sizeTotal size slots).toNat := by
    rw [sizeTotal_toNat hfit, ← nsubpools_toNat hfit]
    have hmul : (i + 1) * (64 * size.toNat) ≤ (nsubpools slots).toNat * (64 * size.toNat) :=
      Nat.mul_le_mul_right (64 * size.toNat) hi
    have hcomm : size.toNat * 64 * (nsubpools slots).toNat =
        (nsubpools slots).toNat * (64 * size.toNat) := by
      rw [Nat.mul_comm size.toNat, Nat.mul_comm]
    omega
  refine ⟨?_, hend⟩
  have h40 : (40 : ULong).toNat = 40 := rfl
  have h16 : (16 : ULong).toNat = 16 := rfl
  have h64 : (64 : ULong).toNat = 64 := rfl
  rw [BitVec.toNat_add, BitVec.toNat_add, BitVec.toNat_add, BitVec.toNat_mul, BitVec.toNat_mul,
    BitVec.toNat_mul, BitVec.toNat_ofNat, h40, h16, h64]
  simp only [Nat.add_mod_mod, Nat.mod_add_mod, Nat.mod_mul_mod, Nat.mul_mod_mod]
  refine Nat.mod_eq_of_lt ?_
  have hstep := next_area size i
  omega

theorem poolCreate_spec (hfit : Fits size slots) (hs : poolCreate pools size slots base = some p) :
    Placed size slots p ∧ 0 < size.toNat ∧
      (p.subpools.map Subpool.data).Pairwise (Apart (64 * size.toNat)) ∧
      (∀ s ∈ p.subpools, Uniform s.availFlags) ∧
      ∀ q ∈ pools, base.toNat + (sizeTotal size slots).toNat ≤ q.base.toNat ∨
        q.base.toNat + (sizeTotal q.size q.slots).toNat ≤ p.base.toNat := by
  simp only [poolCreate] at hs
  split at hs
  · cases hs
  · rename_i hok
    simp only [not_or, Decidable.not_not] at hok
    obtain ⟨hsize, -, ⟨-, hblock, hfree⟩, -⟩ := hok
    have hpos : 0 < size.toNat := by
      rcases Nat.eq_zero_or_pos size.toNat with hz | hz
      · exact absurd (BitVec.eq_of_toNat_eq hz) hsize
      · exact hz
    cases hs
    refine ⟨⟨rfl, rfl, hblock, ?_⟩, hpos, ?_, ?_, hfree⟩
    · intro s hs
      obtain ⟨i, hi, rfl⟩ := List.mem_map.mp hs
      obtain ⟨hdata, hend⟩ := data_toNat hfit hpos hblock (List.mem_range.mp hi)
      have hstep := next_area size i
      dsimp only
      omega
    · rw [List.map_map, List.pairwise_map]
      refine List.pairwise_lt_range.imp_of_mem fun {i j} hi hj hij => Or.inl ?_
      obtain ⟨hdi, -⟩ := data_toNat hfit hpos hblock (List.mem_range.mp hi)
      obtain ⟨hdj, -⟩ := data_toNat hfit hpos hblock (List.mem_range.mp hj)
      have hmul : (i + 1) * (64 * size.toNat) ≤ j * (64 * size.toNat) :=
        Nat.mul_le_mul_right (64 * size.toNat) hij
      have hstep := next_area size i
      dsimp only [Function.comp]
      omega
    · intro s hs
      obtain ⟨i, -, rfl⟩ := List.mem_map.mp hs
      intro i hi hlt
      simp [hlt]

theorem start_inv (hfit : Fits size slots) (hs : start size slots base = some st) :
    st.Inv size slots := by
  obtain ⟨p, hp, rfl⟩ := Option.map_eq_some_iff.mp hs
  obtain ⟨hplaced, hpos, hapart, huniform, -⟩ := poolCreate_spec hfit hp
  have hsub : PoolUse.subpools ⟨[p], []⟩ = p.subpools := by simp [PoolUse.subpools]
  refine ⟨fun q hq => ?_, by rw [hsub]; exact hapart, by rw [hsub]; exact huniform, ?_,
    List.nodup_nil, hpos⟩
  · rw [List.mem_singleton.mp hq]
    exact hplaced
  · intro ptr hptr
    cases hptr

/-! ## Updating one subpool -/

/-- `pools'` is `pools` with `s` replaced by `s'`. -/
structure Replaces (pools pools' : List Pool) (s s' : Subpool) : Prop where
  split : ∃ pre post, pools.flatMap Pool.subpools = pre ++ s :: post ∧
    pools'.flatMap Pool.subpools = pre ++ s' :: post
  placed : ∀ size slots, s'.data = s.data → (∀ p ∈ pools, Placed size slots p) →
    ∀ p ∈ pools', Placed size slots p

section

variable {β : Type} {f : ULong → Subpool → Option (Subpool × β)} {pools' : List Pool} {b : β}

/-- One subpool of one pool is exchanged. -/
theorem replaces_of_split {pre post : List Pool} {p : Pool} {pre' post' : List Subpool}
    {s s' : Subpool} (hp : p.subpools = pre' ++ s :: post') :
    Replaces (pre ++ p :: post)
      (pre ++ { p with subpools := pre' ++ s' :: post' } :: post) s s' := by
  refine ⟨⟨pre.flatMap Pool.subpools ++ pre', post' ++ post.flatMap Pool.subpools, ?_, ?_⟩, ?_⟩
  · simp [hp]
  · simp
  · intro size slots hdata hplaced q hq
    rcases List.mem_append.mp hq with hq | hq
    · exact hplaced q (List.mem_append_left _ hq)
    · rcases List.mem_cons.mp hq with rfl | hq
      · have hpp := hplaced p (List.mem_append_right _ List.mem_cons_self)
        refine ⟨hpp.size_eq, hpp.slots_eq, hpp.block, fun t ht => ?_⟩
        rcases List.mem_append.mp ht with ht | ht
        · exact hpp.inside t (by rw [hp]; exact List.mem_append_left _ ht)
        · rcases List.mem_cons.mp ht with rfl | ht
          · rw [hdata]
            exact hpp.inside s (by rw [hp]; exact List.mem_append_right _ List.mem_cons_self)
          · refine hpp.inside t ?_
            rw [hp]
            exact List.mem_append_right _ (List.mem_cons_of_mem _ ht)
      · exact hplaced q (List.mem_append_right _ (List.mem_cons_of_mem _ hq))

theorem updatePools_eq_some (h : updateFirst (Pool.updateSubpool f) pools = some (pools', b)) :
    ∃ p ∈ pools, ∃ s ∈ p.subpools, ∃ s', f p.size s = some (s', b) ∧
      Replaces pools pools' s s' := by
  obtain ⟨pre, p, p', post, rfl, rfl, hf, -⟩ := updateFirst_eq_some h
  obtain ⟨⟨subpools, b'⟩, hsub, heq⟩ := Option.map_eq_some_iff.mp hf
  cases heq
  obtain ⟨pre', s, s', post', hold, hnew, hs, -⟩ := updateFirst_eq_some hsub
  subst hnew
  refine ⟨p, List.mem_append_right _ List.mem_cons_self, s, ?_, s', hs, replaces_of_split hold⟩
  rw [hold]
  exact List.mem_append_right _ List.mem_cons_self

end

theorem Replaces.append_left {pools' : List Pool} {s' : Subpool} (h : Replaces pools pools' s s')
    (front : List Pool) : Replaces (front ++ pools) (front ++ pools') s s' where
  split := by
    obtain ⟨pre, post, hold, hnew⟩ := h.split
    refine ⟨front.flatMap Pool.subpools ++ pre, post, ?_, ?_⟩
    · rw [List.flatMap_append, hold, List.append_assoc]
    · rw [List.flatMap_append, hnew, List.append_assoc]
  placed := by
    intro size slots hdata hplaced p hp
    rcases List.mem_append.mp hp with hp | hp
    · exact hplaced p (List.mem_append_left _ hp)
    · exact h.placed size slots hdata (fun q hq => hplaced q (List.mem_append_right _ hq)) p hp

section

variable {pools' : List Pool} {s' : Subpool} {held : List ULong}

/-- Another subpool is still there. -/
theorem Replaces.mem_of_ne (h : Replaces st.pools pools' s s') (ht : t ∈ st.subpools)
    (hne : t ≠ s) : t ∈ pools'.flatMap Pool.subpools := by
  obtain ⟨pre, post, hold, hnew⟩ := h.split
  rw [subpools, hold] at ht
  rw [hnew]
  rcases List.mem_append.mp ht with ht | ht
  · exact List.mem_append_left _ ht
  · rcases List.mem_cons.mp ht with rfl | ht
    · exact absurd rfl hne
    · exact List.mem_append_right _ (List.mem_cons_of_mem _ ht)

theorem Replaces.mem_new (h : Replaces st.pools pools' s s') :
    s ∈ st.subpools ∧ s' ∈ pools'.flatMap Pool.subpools := by
  obtain ⟨pre, post, hold, hnew⟩ := h.split
  rw [subpools, hold, hnew]
  exact ⟨List.mem_append_right _ List.mem_cons_self, List.mem_append_right _ List.mem_cons_self⟩

/-- Only the flags of one subpool change: what has to be checked. -/
theorem Inv.replace (h : st.Inv size slots) (hr : Replaces st.pools pools' s s')
    (hdata : s'.data = s.data) (huniform : Uniform s'.availFlags)
    (hlocated : ∀ ptr ∈ held, ∃ t ∈ pools'.flatMap Pool.subpools, ∃ d, At size t d ptr)
    (hnodup : held.Nodup) : Inv size slots ⟨pools', held⟩ := by
  obtain ⟨pre, post, hold, hnew⟩ := hr.split
  refine ⟨hr.placed size slots hdata h.placed, ?_, ?_, hlocated, hnodup, h.pos⟩
  · have hap := h.apart
    rw [subpools, hold] at hap
    rw [subpools, hnew]
    simp only [List.map_append, List.map_cons] at hap ⊢
    rw [hdata]
    exact hap
  · intro t ht
    rw [subpools, hnew] at ht
    have hmem : ∀ u, u ∈ pre ∨ u ∈ post → u ∈ st.subpools := by
      intro u hu
      rw [subpools, hold]
      rcases hu with hu | hu
      · exact List.mem_append_left _ hu
      · exact List.mem_append_right _ (List.mem_cons_of_mem _ hu)
    rcases List.mem_append.mp ht with ht | ht
    · exact h.uniform t (hmem t (Or.inl ht))
    · rcases List.mem_cons.mp ht with rfl | ht
      · exact huniform
      · exact h.uniform t (hmem t (Or.inr ht))

theorem Inv.area_end (h : st.Inv size slots) (hs : s ∈ st.subpools) :
    0 < s.data.toNat ∧ s.data.toNat + 64 * size.toNat ≤ 2 ^ 64 := by
  obtain ⟨p, hp, hs⟩ := List.mem_flatMap.mp hs
  have hplaced := h.placed p hp
  obtain ⟨hlt, hend⟩ := hplaced.inside s hs
  have hblock := hplaced.block
  omega

theorem Inv.slot_toNat (h : st.Inv size slots) (hs : s ∈ st.subpools) (hd : d < 64) :
    (s.data + size * BitVec.ofNat 64 d).toNat = s.data.toNat + size.toNat * d := by
  obtain ⟨-, hend⟩ := h.area_end hs
  have hslot := slot_end size hd
  have hpos := h.pos
  rw [BitVec.toNat_add, BitVec.toNat_mul, BitVec.toNat_ofNat, Nat.mul_mod_mod, Nat.add_mod_mod]
  exact Nat.mod_eq_of_lt (by omega)

/-- Allocation from a subpool hands out a slot that is not held. -/
theorem Inv.allocate (h : st.Inv size slots) (hr : Replaces st.pools pools' s s')
    (hs : s.allocate size = some (s', ptr)) : Inv size slots ⟨pools', ptr :: st.held⟩ := by
  obtain ⟨hmem, hmem'⟩ := hr.mem_new
  unfold Subpool.allocate at hs
  split at hs
  · rename_i hflags
    obtain ⟨rfl, rfl⟩ := Prod.mk.inj (Option.some.inj hs)
    have hpos : SLOTS_PER_SUBPOOL - clz s.availFlags - 1 = 63 - clz s.availFlags := by
      unfold SLOTS_PER_SUBPOOL
      omega
    rw [hpos] at hr hmem' ⊢
    have htop := isSlot_top hflags (h.uniform s hmem)
    have haddr := h.slot_toNat hmem htop.lt
    refine h.replace hr rfl (uniform_clear (h.uniform s hmem)) ?_ ?_
    · intro q hq
      rcases List.mem_cons.mp hq with rfl | hq
      · refine ⟨_, hmem', _, htop, haddr, ?_⟩
        simp only [BitVec.getLsbD_and, BitVec.getLsbD_not, intShift_slot htop htop]
        simp
      · obtain ⟨t, ht, e, he, hqe, hclear⟩ := h.located q hq
        by_cases hts : t = s
        · subst hts
          refine ⟨_, hmem', e, he, hqe, ?_⟩
          simp only [BitVec.getLsbD_and, hclear, Bool.false_and]
        · exact ⟨t, hr.mem_of_ne ht hts, e, he, hqe, hclear⟩
    · refine List.nodup_cons.mpr ⟨fun hq => ?_, h.nodup⟩
      obtain ⟨t, ht, e, he, hqe, hclear⟩ := h.located _ hq
      rw [haddr] at hqe
      obtain rfl := h.subpool_unique hmem ht htop.lt (IsSlot.lt he) hqe
      have hde := slot_unique_of_eq h.pos hqe
      rw [← hde, getLsbD_top hflags] at hclear
      cases hclear
  · cases hs

/-- Releasing a slot whose partner is not held. -/
theorem Inv.free (h : st.Inv size slots) (hr : Replaces st.pools pools' s s')
    (hptr : ptr ∈ st.held) (hpartner : PartnerFree size st (.free ptr) st')
    (hs : s.free ptr size = some (s', ())) : Inv size slots ⟨pools', st.held.erase ptr⟩ := by
  obtain ⟨hmem, hmem'⟩ := hr.mem_new
  obtain ⟨t, ht, d, hd, hpd, -⟩ := h.located ptr hptr
  obtain ⟨hdata, hend⟩ := h.area_end hmem
  simp only [Subpool.free] at hs
  split at hs
  · rename_i hin
    obtain ⟨hgt, hdiff⟩ := hin
    rw [gt_iff_lt, BitVec.lt_def] at hgt
    have hsub : (ptr - s.data).toNat = ptr.toNat - s.data.toNat :=
      BitVec.toNat_sub_of_le (BitVec.le_def.mpr (Nat.le_of_lt hgt))
    have hlen : (64 * size).toNat = 64 * size.toNat := by
      rw [BitVec.toNat_mul]
      exact Nat.mod_eq_of_lt (show 64 * size.toNat < 2 ^ 64 by omega)
    rw [BitVec.lt_def, hsub, hlen] at hdiff
    -- the pointer is in the area of one subpool only
    have hst : s = t := by
      by_contra hne
      have hslot := slot_end size (IsSlot.lt hd)
      have hpos := h.pos
      rcases h.areas_apart hmem ht hne with hap | hap <;> omega
    subst hst
    have hquot : ((ptr - s.data) / size).toNat = d := by
      rw [BitVec.toNat_udiv, hsub, hpd, Nat.add_sub_cancel_left]
      exact Nat.mul_div_cancel_left d h.pos
    have h1 : 1 ≤ d := by
      rcases Nat.eq_zero_or_pos d with hz | hz
      · rw [hz] at hpd
        omega
      · exact hz
    obtain ⟨rfl, -⟩ := Prod.mk.inj (Option.some.inj hs)
    rw [hquot, SLOTS_PER_SUBPOOL] at hr hmem'
    obtain ⟨p, hp, hsp⟩ := List.mem_flatMap.mp hmem
    have hfree := hpartner ptr rfl p hp s hsp d (IsSlot.lt hd) h1 hpd
    refine h.replace hr rfl (uniform_set (h.uniform s hmem)) ?_ (h.nodup.erase ptr)
    intro q hq
    obtain ⟨u, hu, e, he, hqe, hclear⟩ := h.located q (List.mem_of_mem_erase hq)
    by_cases hus : u = s
    · subst hus
      have hne : e ≠ partner d := by
        rintro rfl
        exact hfree q hq hqe
      refine ⟨_, hmem', e, he, hqe, ?_⟩
      simp only [BitVec.getLsbD_or, hclear, free_bit hd h1 he, hne, decide_false, Bool.or_false]
    · exact ⟨u, hr.mem_of_ne hu hus, e, he, hqe, hclear⟩
  · cases hs

end

/-! ## One step -/

/-- The chain grows by a pool whose block is elsewhere. -/
theorem Inv.chain (h : st.Inv size slots) (hfit : Fits size slots)
    (hs : poolCreate st.pools size slots base = some p) :
    Inv size slots ⟨st.pools ++ [p], st.held⟩ := by
  obtain ⟨hplaced, -, hapart, huniform, hfree⟩ := poolCreate_spec hfit hs
  have hsub : subpools ⟨st.pools ++ [p], st.held⟩ = st.subpools ++ p.subpools := by
    simp [subpools]
  have hbase : p.base = base := by
    simp only [poolCreate] at hs
    split at hs
    · cases hs
    · cases hs
      rfl
  refine ⟨?_, ?_, ?_, ?_, h.nodup, h.pos⟩
  · intro q hq
    rcases List.mem_append.mp hq with hq | hq
    · exact h.placed q hq
    · rw [List.mem_singleton.mp hq]
      exact hplaced
  · rw [hsub, List.map_append]
    refine List.pairwise_append.mpr ⟨h.apart, hapart, ?_⟩
    intro a ha b hb
    obtain ⟨s, hs, rfl⟩ := List.mem_map.mp ha
    obtain ⟨t, ht, rfl⟩ := List.mem_map.mp hb
    obtain ⟨q, hq, hs⟩ := List.mem_flatMap.mp hs
    have hqp := h.placed q hq
    obtain ⟨hslt, hsend⟩ := hqp.inside s hs
    obtain ⟨htlt, htend⟩ := hplaced.inside t ht
    have hblocks := hfree q hq
    rw [hqp.size_eq, hqp.slots_eq] at hblocks
    rw [hbase] at hblocks htlt htend
    rcases hblocks with hb | hb
    · right
      omega
    · left
      omega
  · rw [hsub]
    intro s hs
    rcases List.mem_append.mp hs with hs | hs
    · exact h.uniform s hs
    · exact huniform s hs
  · intro ptr hptr
    obtain ⟨s, hs, d, hat⟩ := h.located ptr hptr
    refine ⟨s, ?_, d, hat⟩
    rw [hsub]
    exact List.mem_append_left _ hs

theorem Inv.poolAllocate (h : st.Inv size slots) (hfit : Fits size slots) {pools' : List Pool}
    (hs : poolAllocate st.pools base = some (pools', ptr)) :
    Inv size slots ⟨pools', ptr :: st.held⟩ := by
  unfold Yarns.poolAllocate at hs
  split at hs
  · rename_i r hfound
    cases hs
    obtain ⟨p, hp, s, -, s', hs, hr⟩ := updatePools_eq_some hfound
    rw [(h.placed p hp).size_eq] at hs
    exact h.allocate hr hs
  · simp only [allocateChained, Option.bind_eq_bind, Option.bind_eq_some_iff] at hs
    obtain ⟨last, hlast, chained, hchained, ⟨chained', ptr'⟩, halloc, hs⟩ := hs
    cases hs
    have hplaced := h.placed last (List.mem_of_getLast? hlast)
    rw [hplaced.size_eq, hplaced.slots_eq] at hchained
    have hinv := h.chain hfit hchained
    have hfound : updateFirst (Pool.updateSubpool Subpool.allocate) [chained] =
        some ([chained'], ptr') := by
      have : chained.updateSubpool Subpool.allocate = some (chained', ptr') := halloc
      simp [updateFirst, this]
    obtain ⟨p, hp, s, -, s', hs, hr⟩ := updatePools_eq_some hfound
    rw [(hinv.placed p (List.mem_append_right _ hp)).size_eq] at hs
    exact hinv.allocate (hr.append_left st.pools) hs

theorem Inv.poolFree (h : st.Inv size slots) (hptr : ptr ∈ st.held)
    (hpartner : PartnerFree size st (.free ptr) st') :
    Inv size slots ⟨poolFree st.pools ptr, st.held.erase ptr⟩ := by
  unfold Yarns.poolFree
  have hne : ptr ≠ 0 := by
    rintro rfl
    obtain ⟨s, hs, d, -, hpd, -⟩ := h.located 0 hptr
    have := (h.area_end hs).1
    rw [zero_toNat] at hpd
    omega
  rw [if_neg hne]
  split
  · rename_i pools' hfound
    obtain ⟨p, hp, s, -, s', hs, hr⟩ := updatePools_eq_some hfound
    rw [(h.placed p hp).size_eq] at hs
    exact h.free hr hptr hpartner hs
  · -- slot 0 is found in no subpool
    exact ⟨h.placed, h.apart, h.uniform,
      fun q hq => h.located q (List.mem_of_mem_erase hq), h.nodup.erase ptr, h.pos⟩

theorem step_inv {op : PoolOp} (h : st.Inv size slots) (hfit : Fits size slots)
    (hpartner : PartnerFree size st op st') (hs : st.step op = some st') :
    st'.Inv size slots := by
  cases op with
  | allocate base =>
    simp only [step, Option.bind_eq_bind, Option.bind_eq_some_iff] at hs
    obtain ⟨⟨pools', ptr⟩, halloc, hs⟩ := hs
    cases hs
    exact h.poolAllocate hfit halloc
  | free ptr =>
    simp only [step] at hs
    split at hs
    · rename_i hptr
      cases hs
      exact h.poolFree hptr hpartner
    · cases hs

/-- In a run in which no slot other than slot 0 is released while its partner is held,
held objects never overlap. -/
theorem held_noOverlap (size slots base : ULong) (ops : List PoolOp) (hfit : Fits size slots)
    (hstart : start size slots base = some st)
    (hpartner : Along step (PartnerFree size) st ops) :
    Along step (fun _ _ st' => st'.NoOverlap size) st ops :=
  along_of_invariant (start_inv hfit hstart)
    (fun _ _ _ hI hP hs =>
      have hI' := step_inv hI hfit hP hs
      ⟨hI', hI'.noOverlap⟩) hpartner

theorem held_noOverlap_small : ∃ st, start 8 1 4096 = some st ∧
    Along step (fun _ _ st' => st'.NoOverlap 8) st [.allocate 0, .free 4656, .allocate 0] := by
  have hrun : ((start 8 1 4096).bind fun st => (step st (.allocate 0)).map PoolUse.held) =
      some [4656] := by
    decide +kernel
  obtain ⟨st, hst, hrun⟩ := Option.bind_eq_some_iff.mp hrun
  refine ⟨st, hst, held_noOverlap 8 1 4096 _ ⟨by decide, by decide⟩ hst ?_⟩
  intro t ht
  rw [ht] at hrun
  have hheld : t.held = [4656] := Option.some.inj hrun
  refine ⟨fun ptr h => (by cases h),
    fun u _ => ⟨?_, fun v _ => ⟨fun ptr h => (by cases h), trivial⟩⟩⟩
  intro ptr h p hp s hs d hd h1 heq q hq
  cases h
  rw [hheld] at hq
  cases hq

/-- Seventeen allocations hold the slots 63 and 30 to 15; the release of slot 15 makes
slot 17 available, and the next allocation hands it out a second time. -/
def releaseSlot15 : List PoolOp :=
  List.replicate 17 (.allocate 0) ++ [.free 4272, .allocate 0]

theorem NoOverlap.nodup (h : st.NoOverlap size) (hpos : 0 < size.toNat) : st.held.Nodup := by
  refine h.1.imp ?_
  intro a b hab heq
  subst heq
  rcases hab with hab | hab <;> omega

theorem slot_handed_out_twice : ∃ st st', start 8 1 4096 = some st ∧
    run step st releaseSlot15 = some st' ∧ ¬ st'.NoOverlap 8 := by
  have hrun : ((start 8 1 4096).bind fun st => (run step st releaseSlot15).map fun st' =>
      decide st'.held.Nodup) = some false := by
    decide +kernel
  obtain ⟨st, hst, hrun⟩ := Option.bind_eq_some_iff.mp hrun
  obtain ⟨st', hst', hdup⟩ := Option.map_eq_some_iff.mp hrun
  exact ⟨st, st', hst, hst', fun h => of_decide_eq_false hdup (h.nodup (by decide))⟩

end PoolUse

end Yarns
