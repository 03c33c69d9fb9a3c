import Yarns.Lib.PoolRuns

/-!
# The flags of a pool and the slots held

`availFlags` is meant to mirror what is held: bit `b` of a subpool is clear exactly while
slot `b` is. The first allocation from a subpool already breaks this: it hands out slot 63,
and its mask, the `int` 1 shifted by 63 and sign-extended, clears all bits from 31 on. The
release of slot 63 sets bit 1, so it does not bring the flags back.
-/

namespace Yarns.PoolUse

open Base

variable {size slots base ptr : ULong} {st st' : PoolUse} {s s' : Subpool}
  {pools : List Pool} {ops : List PoolOp}

/-- Bit `b` of a subpool is clear exactly while slot `b` is held. -/
def Mirrors (size : ULong) (st : PoolUse) : Prop :=
  ∀ s ∈ st.subpools, ∀ b < SLOTS_PER_SUBPOOL,
    s.availFlags.getLsbD b = false ↔ s.data + size * BitVec.ofNat 64 b ∈ st.held

/-- While a slot is free, an allocation and its release leave all flags as they were. -/
def Restores (st : PoolUse) : Prop :=
  ∀ base pools ptr, (∃ s ∈ st.subpools, s.availFlags ≠ 0) →
    poolAllocate st.pools base = some (pools, ptr) → poolFree pools ptr = st.pools

/-- No slot was handed out yet. -/
structure Fresh (st : PoolUse) : Prop where
  held : st.held = []
  flags : ∀ s ∈ st.subpools, s.availFlags = ulongMax
  nonempty : ∃ s, s ∈ st.subpools

theorem start_fresh (hfit : Fits size slots) (hs : start size slots base = some st) :
    st.Fresh := by
  obtain ⟨p, hp, rfl⟩ := Option.map_eq_some_iff.mp hs
  have hcount := nsubpools_toNat hfit
  simp only [poolCreate] at hp
  split at hp
  · cases hp
  · rename_i hok
    simp only [not_or] at hok
    have hslots : slots.toNat ≠ 0 := fun hz => hok.2.1 (BitVec.eq_of_toNat_eq hz)
    have hpos : 0 < (nsubpools slots).toNat := by omega
    cases hp
    refine ⟨rfl, ?_, ?_⟩
    · intro s hs
      simp only [subpools, List.flatMap_cons, List.flatMap_nil, List.append_nil] at hs
      obtain ⟨i, -, rfl⟩ := List.mem_map.mp hs
      rfl
    · simp only [subpools, List.flatMap_cons, List.flatMap_nil, List.append_nil]
      exact ⟨_, List.mem_map.mpr ⟨0, List.mem_range.mpr hpos, rfl⟩⟩

/-- The first allocation from a subpool. -/
theorem allocate_fresh (hflags : s.availFlags = ulongMax)
    (hs : s.allocate size = some (s', ptr)) :
    s'.data = s.data ∧ ptr = s.data + size * BitVec.ofNat 64 63 ∧
      s'.availFlags.getLsbD 62 = false := by
  rw [Subpool.allocate, hflags, if_pos (by decide)] at hs
  obtain ⟨rfl, rfl⟩ := Prod.mk.inj (Option.some.inj hs)
  refine ⟨rfl, rfl, ?_⟩
  change (ulongMax &&& ~~~intShift (SLOTS_PER_SUBPOOL - clz ulongMax - 1)).getLsbD 62 = false
  decide

/-- A fresh pool does not have to grow. -/
theorem Fresh.poolAllocate_eq (h : st.Fresh) (base : ULong) :
    ∃ pools ptr, updateFirst Pool.allocate st.pools = some (pools, ptr) ∧
      poolAllocate st.pools base = some (pools, ptr) := by
  cases hloop : updateFirst Pool.allocate st.pools with
  | some r => exact ⟨r.1, r.2, rfl, by rw [poolAllocate, hloop]⟩
  | none =>
    obtain ⟨s, hs⟩ := h.nonempty
    obtain ⟨p, hp, hsp⟩ := List.mem_flatMap.mp hs
    have hpool : updateFirst (Subpool.allocate p.size) p.subpools = none :=
      Option.map_eq_none_iff.mp (updateFirst_eq_none hloop p hp)
    have hsub := updateFirst_eq_none hpool s hsp
    rw [Subpool.allocate, h.flags s hs, if_pos (by decide)] at hsub
    cases hsub

/-- The first allocation, with the subpool it takes the slot from. -/
theorem Fresh.allocate (h : st.Fresh) (hinv : st.Inv size slots)
    (hs : poolAllocate st.pools base = some (pools, ptr)) :
    ∃ s s', Replaces st.pools pools s s' ∧ s ∈ st.subpools ∧ s'.data = s.data ∧
      ptr = s.data + size * BitVec.ofNat 64 63 ∧ s'.availFlags.getLsbD 62 = false := by
  obtain ⟨pools', ptr', hloop, heq⟩ := h.poolAllocate_eq base
  obtain ⟨rfl, rfl⟩ := Prod.mk.inj (Option.some.inj (heq.symm.trans hs))
  obtain ⟨p, hp, s, -, s', hss, hr⟩ := updatePools_eq_some hloop
  have hmem := hr.mem_new.1
  rw [(hinv.placed p hp).size_eq] at hss
  exact ⟨s, s', hr, hmem, allocate_fresh (h.flags s hmem) hss⟩

/-- After the first allocation a bit is clear whose slot is not held. -/
theorem Fresh.not_mirrors (h : st.Fresh) (hinv : st.Inv size slots) (hfit : Fits size slots)
    (hs : st.step (.allocate base) = some st') : ¬ Mirrors size st' := by
  have hinv' : st'.Inv size slots :=
    step_inv hinv hfit (fun ptr hptr => by cases hptr) hs
  simp only [step, Option.bind_eq_bind, Option.bind_eq_some_iff] at hs
  obtain ⟨⟨pools', ptr⟩, halloc, hs⟩ := hs
  obtain rfl := Option.some.inj hs
  obtain ⟨s, s', hr, -, hdata, hptr, hbit⟩ := h.allocate hinv halloc
  have hmem' := hr.mem_new.2
  intro hmirrors
  have hheld := (hmirrors s' hmem' 62 (by decide)).mp hbit
  rw [h.held, List.mem_singleton, hptr, ← hdata] at hheld
  have h62 := hinv'.slot_toNat hmem' (d := 62) (by decide)
  have h63 := hinv'.slot_toNat hmem' (d := 63) (by decide)
  rw [hheld, h63] at h62
  have hpos := hinv.pos
  omega

/-- The release of slot 63 sets bit 1 only. -/
theorem free_top (hpos : 0 < size.toNat) (hend : s.data.toNat + 64 * size.toNat ≤ 2 ^ 64)
    (hptr : ptr = s.data + size * BitVec.ofNat 64 63) (hbit : s.availFlags.getLsbD 62 = false)
    (hs : s.free ptr size = some (s', ())) : s'.availFlags.getLsbD 62 = false := by
  have hdiff : ((ptr - s.data) / size).toNat = 63 := by
    have hsub : ptr - s.data = size * BitVec.ofNat 64 63 := by
      rw [hptr, BitVec.add_comm, BitVec.add_sub_cancel]
    have h63 : (BitVec.ofNat 64 63).toNat = 63 := rfl
    rw [hsub, BitVec.toNat_udiv, BitVec.toNat_mul, h63, Nat.mod_eq_of_lt (by omega)]
    exact Nat.mul_div_cancel_left 63 hpos
  rw [Subpool.free, hdiff] at hs
  split at hs
  · obtain ⟨rfl, -⟩ := Prod.mk.inj (Option.some.inj hs)
    rw [BitVec.getLsbD_or, hbit]
    decide
  · cases hs

/-- An allocation and its release leave bit 62 of the subpool clear. -/
theorem Fresh.not_restores (h : st.Fresh) (hinv : st.Inv size slots)
    (hfit : Fits size slots) : ¬ Restores st := by
  intro hrestores
  obtain ⟨pools, ptr, -, halloc⟩ := h.poolAllocate_eq 0
  obtain ⟨s₀, hs₀⟩ := h.nonempty
  have hfree := hrestores 0 pools ptr ⟨s₀, hs₀, by rw [h.flags s₀ hs₀]; decide⟩ halloc
  have hinv' := hinv.poolAllocate hfit halloc
  obtain ⟨s, s', hr, hs, hdata, hptr, hbit⟩ := h.allocate hinv halloc
  have hmem' := hr.mem_new.2
  suffices hclear : ∃ t ∈ (poolFree pools ptr).flatMap Pool.subpools,
      t.availFlags.getLsbD 62 = false by
    obtain ⟨t, ht, htbit⟩ := hclear
    rw [hfree] at ht
    rw [h.flags t ht] at htbit
    revert htbit
    decide
  rw [poolFree]
  split
  · exact ⟨s', hmem', hbit⟩
  · split
    · rename_i pools' _ hfound
      obtain ⟨p, hp, t, -, t', ht, hr'⟩ := updatePools_eq_some hfound
      have hr' : Replaces (PoolUse.pools ⟨pools, ptr :: st.held⟩) pools' t t' := hr'
      by_cases hst : s' = t
      · subst hst
        refine ⟨t', hr'.mem_new.2, ?_⟩
        rw [(hinv'.placed p hp).size_eq] at ht
        exact free_top hinv.pos (hinv'.area_end hmem').2 (hdata ▸ hptr) hbit ht
      · exact ⟨s', hr'.mem_of_ne hmem' hst, hbit⟩
    · exact ⟨s', hmem', hbit⟩

/-- In a run on a new pool the flags mirror what is held after every operation only if there
is no operation. -/
theorem mirrors_iff (hfit : Fits size slots) (hstart : start size slots base = some st)
    (ops : List PoolOp) :
    ¬ Restores st ∧ (Along step (fun _ _ st' => Mirrors size st') st ops ↔
      ∀ op ∈ ops.head?, st.step op = none) := by
  have hinv := start_inv hfit hstart
  have hfresh := start_fresh hfit hstart
  refine ⟨hfresh.not_restores hinv hfit, ?_⟩
  cases ops with
  | nil => simp [Along]
  | cons op ops =>
    simp only [List.head?_cons, Option.mem_def, Option.some.injEq, forall_eq']
    constructor
    · intro hall
      by_contra hne
      obtain ⟨st', hst'⟩ := Option.ne_none_iff_exists'.mp hne
      cases op with
      | allocate base' => exact hfresh.not_mirrors hinv hfit hst' (hall st' hst').1
      | free ptr =>
        rw [step, hfresh.held, if_neg (by simp)] at hst'
        cases hst'
    · intro hnone st' hst'
      rw [hnone] at hst'
      cases hst'

theorem mirrors_iff_small : ∃ st, start 8 1 4096 = some st ∧ ¬ Restores st ∧
    (Along step (fun _ _ st' => Mirrors 8 st') st [.allocate 0] ↔
      ∀ op ∈ [PoolOp.allocate 0].head?, st.step op = none) := by
  obtain ⟨st, hst⟩ : ∃ st, start 8 1 4096 = some st := ⟨_, rfl⟩
  exact ⟨st, hst, mirrors_iff ⟨by decide, by decide⟩ hst [.allocate 0]⟩

/-- One allocation from a pool of one subpool. -/
theorem allocate_not_mirrored : ¬ ∀ (size slots base : ULong) (st : PoolUse) (ops : List PoolOp),
    Fits size slots → start size slots base = some st →
      Along step (fun _ _ st' => Mirrors size st') st ops := by
  intro h
  have hfit : Fits 8 1 := ⟨by decide, by decide⟩
  obtain ⟨st, hst⟩ : ∃ st, start 8 1 4096 = some st := ⟨_, rfl⟩
  have hfresh := start_fresh hfit hst
  obtain ⟨pools, ptr, -, halloc⟩ := hfresh.poolAllocate_eq 0
  have hs : st.step (.allocate 0) = some ⟨pools, ptr :: st.held⟩ := by
    simp only [step, halloc, Option.bind_eq_bind, Option.bind_some]
  exact hfresh.not_mirrors (start_inv hfit hst) hfit hs
    (h 8 1 4096 st [.allocate 0] hfit hst _ hs).1

end Yarns.PoolUse
