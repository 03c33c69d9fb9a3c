import Yarns.Base.Parties
import Yarns.Data.Word

/-!
# The recursive lock

`yarn_lock_lock` and `yarn_lock_unlock` of `include/yarns/sync.h`, for any number of yarns.
Each load, store and compare-and-swap is one step. A yarn counts its unmatched calls of
`yarn_lock_lock`: a lock call counts when it returns, an unlock call when it begins.

Of the three words only `lock` decides who enters. It is a yarn's pid exactly while that
yarn holds the lock (`Inv.owner`), from its compare-and-swap to the store that ends its
outermost unlock; only the holder writes `depth`, so both handover windows are harmless.
The depth is a word, so this is for fewer than `2 ^ 64` unmatched calls of a yarn.
-/

namespace Yarns

open Base

structure YarnLock where
  lock : ULong
  depth : ULong
  sitter : ULong
  deriving DecidableEq

namespace YarnLock

def init : YarnLock := ⟨0, 0, 0⟩

/-- The next access of a yarn. -/
inductive Pc where
  | idle
  | lockLoad
  | depthLoad
  | depthStore (depth : ULong)
  | cas
  | sitterStore
  | lockYield
  | depthOne
  | sitterTest
  | sitterClear
  | unlockLoad
  | unlockStore (depth : ULong)
  | unlockTest
  | unlockClear
  | unlockYield
  deriving DecidableEq

structure Yarn where
  pc : Pc
  calls : Nat
  deriving DecidableEq

inductive Act where
  | lock
  | unlock
  | step
  deriving DecidableEq

/-- The next access of a yarn that is in a call. -/
def access (pid : ULong) (m : YarnLock) (y : Yarn) : Option (YarnLock × Yarn) :=
  match y.pc with
  | .idle => none
  -- yarn_lock_lock
  | .lockLoad =>
    if m.lock = pid then some (m, { y with pc := .depthLoad })
    else some (m, { y with pc := .cas })
  | .depthLoad => some (m, { y with pc := .depthStore m.depth })
  | .depthStore depth => some ({ m with depth := depth + 1 }, ⟨.idle, y.calls + 1⟩)
  | .cas =>
    if m.lock = 0 then some ({ m with lock := pid }, { y with pc := .depthOne })
    else some (m, { y with pc := .sitterStore })
  | .sitterStore => some ({ m with sitter := pid }, { y with pc := .lockYield })
  | .lockYield => some (m, { y with pc := .cas })
  | .depthOne => some ({ m with depth := 1 }, { y with pc := .sitterTest })
  | .sitterTest =>
    if m.sitter = pid then some (m, { y with pc := .sitterClear })
    else some (m, ⟨.idle, y.calls + 1⟩)
  | .sitterClear => some ({ m with sitter := 0 }, ⟨.idle, y.calls + 1⟩)
  -- yarn_lock_unlock
  | .unlockLoad => some (m, { y with pc := .unlockStore m.depth })
  | .unlockStore depth => some ({ m with depth := depth - 1 }, { y with pc := .unlockTest })
  | .unlockTest =>
    if m.depth = 0 then some (m, { y with pc := .unlockClear })
    else some (m, { y with pc := .idle })
  | .unlockClear => some ({ m with lock := 0 }, { y with pc := .unlockYield })
  | .unlockYield => some (m, { y with pc := .idle })

/-- A yarn that is in no call makes one, unlock only while it holds the lock, or a yarn
goes on with its call. -/
def act (pid : ULong) (m : YarnLock) (y : Yarn) : Act → Option (YarnLock × Yarn)
  | .step => access pid m y
  | .lock => if y.pc = .idle then some (m, { y with pc := .lockLoad }) else none
  | .unlock =>
    if y.pc = .idle ∧ 0 < y.calls then some (m, ⟨.unlockLoad, y.calls - 1⟩) else none

/-- The yarn has passed its compare-and-swap and not yet ended its outermost unlock. -/
def Yarn.Holds (y : Yarn) : Prop :=
  match y.pc with
  | .depthOne | .sitterTest | .sitterClear | .unlockLoad | .unlockStore _ | .unlockTest
  | .unlockClear => True
  | _ => 0 < y.calls

/-- What the depth is where a yarn can rely on it, and where it has no unmatched call. -/
def DepthOk (depth : ULong) (y : Yarn) : Prop :=
  match y.pc with
  | .idle | .lockLoad => 0 < y.calls → depth = BitVec.ofNat 64 y.calls
  | .depthLoad => 0 < y.calls ∧ depth = BitVec.ofNat 64 y.calls
  | .depthStore d => 0 < y.calls ∧ d = BitVec.ofNat 64 y.calls
  | .cas | .sitterStore | .lockYield | .unlockYield | .depthOne | .unlockClear => y.calls = 0
  | .sitterTest | .sitterClear => y.calls = 0 ∧ depth = 1
  | .unlockLoad => depth = BitVec.ofNat 64 (y.calls + 1)
  | .unlockStore d => d = BitVec.ofNat 64 (y.calls + 1)
  | .unlockTest => depth = BitVec.ofNat 64 y.calls

/-- What one access does to the lock word and to who holds the lock. -/
inductive Effect (pid : ULong) (m : YarnLock) (y : Yarn) (m' : YarnLock) (y' : Yarn) : Prop where
  | keep : m'.lock = m.lock → (m'.depth = m.depth ∨ y.Holds) → (y'.Holds ↔ y.Holds) →
      Effect pid m y m' y'
  | acquire : m.lock = 0 → m'.lock = pid → m'.depth = m.depth → y'.Holds → Effect pid m y m' y'
  | clear : y.pc = .unlockClear → y.calls = 0 → m'.lock = 0 → m'.depth = m.depth → y.Holds →
      ¬ y'.Holds → Effect pid m y m' y'

variable {pid : ULong} {m m' : YarnLock} {y y' : Yarn} {a : Act}

/-- A yarn that does not hold the lock does not rely on the depth. -/
theorem DepthOk.of_not_holds {depth depth' : ULong} (h : DepthOk depth y) (hn : ¬ y.Holds) :
    DepthOk depth' y := by
  obtain ⟨pc, calls⟩ := y
  cases pc with
  | idle | lockLoad => exact fun hpos => absurd hpos hn
  | depthLoad => exact absurd h.1 hn
  | depthStore d | cas | sitterStore | lockYield | unlockYield => exact h
  | depthOne | sitterTest | sitterClear | unlockLoad | unlockStore | unlockTest | unlockClear =>
    exact absurd trivial hn

theorem access_cases (hown : y.Holds ↔ m.lock = pid) (hok : DepthOk m.depth y)
    (h : access pid m y = some (m', y')) (hb : y'.calls < 2 ^ 64) :
    Effect pid m y m' y' ∧ DepthOk m'.depth y' := by
  obtain ⟨pc, calls⟩ := y
  cases pc with
  | idle => cases h
  | lockLoad =>
    simp only [access] at h
    split at h
    · rename_i heq
      cases h
      have hpos : 0 < calls := hown.mpr heq
      exact ⟨.keep rfl (Or.inl rfl) Iff.rfl, hpos, hok hpos⟩
    · rename_i hne
      cases h
      have hzero : ¬ 0 < calls := fun hpos => hne (hown.mp hpos)
      exact ⟨.keep rfl (Or.inl rfl) Iff.rfl, Nat.eq_zero_of_not_pos hzero⟩
  | depthStore d =>
    cases h
    obtain ⟨hpos, hd⟩ := hok
    refine ⟨.keep rfl (Or.inr hpos) (iff_of_true (Nat.succ_pos calls) hpos), fun _ => ?_⟩
    rw [hd, BitVec.ofNat_add]
    rfl
  | cas =>
    simp only [access] at h
    split at h
    · rename_i hfree
      cases h
      exact ⟨.acquire hfree rfl rfl trivial, hok⟩
    · cases h
      exact ⟨.keep rfl (Or.inl rfl) Iff.rfl, hok⟩
  | depthLoad | unlockLoad | sitterStore | lockYield =>
    cases h
    exact ⟨.keep rfl (Or.inl rfl) Iff.rfl, hok⟩
  | depthOne =>
    cases h
    exact ⟨.keep rfl (Or.inr trivial) Iff.rfl, hok, rfl⟩
  | sitterTest =>
    obtain ⟨hzero, hone⟩ := hok
    dsimp only at hzero
    subst hzero
    simp only [access] at h
    split at h
    · cases h
      exact ⟨.keep rfl (Or.inl rfl) Iff.rfl, rfl, hone⟩
    · cases h
      exact ⟨.keep rfl (Or.inl rfl) (iff_of_true Nat.one_pos trivial), fun _ => hone⟩
  | sitterClear =>
    obtain ⟨hzero, hone⟩ := hok
    dsimp only at hzero
    subst hzero
    cases h
    exact ⟨.keep rfl (Or.inl rfl) (iff_of_true Nat.one_pos trivial), fun _ => hone⟩
  | unlockStore d =>
    cases h
    refine ⟨.keep rfl (Or.inr trivial) Iff.rfl, ?_⟩
    have hd : d = BitVec.ofNat 64 (calls + 1) := hok
    rw [DepthOk, hd, BitVec.ofNat_add]
    exact BitVec.add_sub_cancel _ _
  | unlockTest =>
    have hdepth : m.depth = BitVec.ofNat 64 calls := hok
    have hcalls : m.depth = 0 ↔ calls = 0 := by
      have hlt : calls < 2 ^ 64 := by
        simp only [access] at h
        split at h <;> cases h <;> exact hb
      rw [hdepth, ← BitVec.toNat_inj, BitVec.toNat_ofNat, Nat.mod_eq_of_lt hlt]
      exact Iff.rfl
    simp only [access] at h
    split at h
    · rename_i hz
      cases h
      exact ⟨.keep rfl (Or.inl rfl) Iff.rfl, hcalls.mp hz⟩
    · rename_i hz
      cases h
      have hpos : 0 < calls := Nat.pos_of_ne_zero fun h0 => hz (hcalls.mpr h0)
      exact ⟨.keep rfl (Or.inl rfl) (iff_of_true hpos trivial), fun _ => hdepth⟩
  | unlockClear =>
    cases h
    have hzero : calls = 0 := hok
    subst hzero
    exact ⟨.clear rfl rfl rfl rfl trivial (Nat.lt_irrefl 0), rfl⟩
  | unlockYield =>
    cases h
    have hzero : calls = 0 := hok
    subst hzero
    exact ⟨.keep rfl (Or.inl rfl) Iff.rfl, fun hpos => absurd hpos (Nat.lt_irrefl 0)⟩

theorem act_cases (hown : y.Holds ↔ m.lock = pid) (hok : DepthOk m.depth y)
    (h : act pid m y a = some (m', y')) (hb : y'.calls < 2 ^ 64) :
    Effect pid m y m' y' ∧ DepthOk m'.depth y' := by
  cases a with
  | step => exact access_cases hown hok h hb
  | lock =>
    simp only [act] at h
    split at h
    · rename_i hidle
      cases h
      rw [DepthOk, hidle] at hok
      refine ⟨.keep rfl (Or.inl rfl) ?_, hok⟩
      rw [Yarn.Holds, Yarn.Holds, hidle]
    · cases h
  | unlock =>
    simp only [act] at h
    split at h
    · rename_i hidle
      obtain ⟨hidle, hpos⟩ := hidle
      cases h
      rw [DepthOk, hidle] at hok
      have hholds : y.Holds := by
        rw [Yarn.Holds, hidle]
        exact hpos
      refine ⟨.keep rfl (Or.inl rfl) (iff_of_true trivial hholds), ?_⟩
      rw [DepthOk, hok hpos, Nat.sub_add_cancel hpos]
    · cases h

end YarnLock

end Yarns
