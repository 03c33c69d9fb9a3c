import Mathlib.Data.Nat.Bitwise
import Yarns.Base.Parties
import Yarns.Data.Word

/-!
# The readers-writer lock

The four `yarn_rwlock` operations of `include/yarns/sync.h`, for any number of yarns.
Each load, store, compare-and-swap and atomic add is one step; the local state of a yarn
is the next access of the call it is in (`Pc`) and what it holds. A yarn calls only when
it is in no call, and releases only what it holds.

A read hold begins with the compare-and-swap of `read_lock` and ends with the add of
`read_unlock`; a write hold begins with the last compare-and-swap of `write_lock` and ends
with the one of `write_unlock`. `word` is the lock word written as a number of readers and
two flags; the mask operations of the code are read on it once, in the lemmas below it.
-/

namespace Yarns

open Base

structure RwLock where
  lock : ULong
  writer : ULong
  deriving DecidableEq

namespace RwLock

def init : RwLock := ⟨0, 0⟩

/-- The next access of a yarn. The arguments are values it has loaded or computed. -/
inductive Pc where
  | idle
  | readLoad
  | readCas (oldValue : ULong)
  | readYield
  | readAdd
  | readUnlockYield
  | writeLoad
  | writeOr (oldValue : ULong)
  | writeOrYield
  | writeStore
  | writeTest
  | writeCas
  | unlockLoad
  | unlockReload (oldValue : ULong)
  | unlockCas (oldValue newValue : ULong)
  | unlockYield
  | unlockWriter
  | unlockWriterYield
  deriving DecidableEq

structure Yarn where
  pc : Pc
  reads : Nat
  writes : Bool
  deriving DecidableEq

def Yarn.fresh : Yarn := ⟨.idle, 0, false⟩

inductive Act where
  | readLock
  | readUnlock
  | writeLock
  | writeUnlock
  | step
  deriving DecidableEq

/-- The next access of a yarn that is in a call. -/
def access (pid : ULong) (m : RwLock) (y : Yarn) : Option (RwLock × Yarn) :=
  match y.pc with
  | .idle => none
  -- yarn_rwlock_read_lock
  | .readLoad =>
    let isWriteLocked := m.lock &&& 0x40000000 ≠ 0
    let isWriteWaiting := m.lock &&& 0x80000000 ≠ 0
    if isWriteLocked ∨ isWriteWaiting then some (m, { y with pc := .readYield })
    else some (m, { y with pc := .readCas m.lock })
  | .readCas oldValue =>
    if m.lock = oldValue then
      some ({ m with lock := oldValue + 1 }, { y with pc := .idle, reads := y.reads + 1 })
    else some (m, { y with pc := .readYield })
  | .readYield => some (m, { y with pc := .readLoad })
  -- yarn_rwlock_read_unlock; the atomic add returns the value it found
  | .readAdd =>
    let pc := if m.lock &&& 0x80000000 ≠ 0 then Pc.readUnlockYield else .idle
    some ({ m with lock := m.lock - 1 }, { y with pc, reads := y.reads - 1 })
  | .readUnlockYield => some (m, { y with pc := .idle })
  -- yarn_rwlock_write_lock
  | .writeLoad => some (m, { y with pc := .writeOr m.lock })
  | .writeOr oldValue =>
    if m.lock = oldValue then
      some ({ m with lock := oldValue ||| 0x80000000 }, { y with pc := .writeStore })
    else some (m, { y with pc := .writeOrYield })
  | .writeOrYield => some (m, { y with pc := .writeLoad })
  | .writeStore => some ({ m with writer := pid }, { y with pc := .writeTest })
  | .writeTest =>
    if m.lock &&& 0x7FFFFFFF ≠ 0 then some (m, y) else some (m, { y with pc := .writeCas })
  | .writeCas =>
    if m.lock = 0x80000000 then
      some ({ m with lock := 0x40000000 }, { y with pc := .idle, writes := true })
    else some (m, { y with pc := .writeTest })
  -- yarn_rwlock_write_unlock; `~0x80000000` is an `unsigned int`
  | .unlockLoad => some (m, { y with pc := .unlockReload m.lock })
  | .unlockReload oldValue =>
    some (m, { y with pc := .unlockCas oldValue (m.lock &&& 0x7FFFFFFF) })
  | .unlockCas oldValue newValue =>
    if m.lock = oldValue then
      some ({ m with lock := newValue }, { y with pc := .unlockWriter, writes := false })
    else some (m, { y with pc := .unlockYield })
  | .unlockYield => some (m, { y with pc := .unlockLoad })
  | .unlockWriter =>
    if m.writer = pid then some ({ m with writer := 0 }, { y with pc := .idle })
    else some (m, { y with pc := .unlockWriterYield })
  | .unlockWriterYield => some (m, { y with pc := .idle })

/-- A yarn that is in no call makes one, or a yarn goes on with its call. -/
def act (pid : ULong) (m : RwLock) (y : Yarn) : Act → Option (RwLock × Yarn)
  | .step => access pid m y
  | .readLock => if y.pc = .idle then some (m, { y with pc := .readLoad }) else none
  | .readUnlock =>
    if y.pc = .idle ∧ 0 < y.reads then some (m, { y with pc := .readAdd }) else none
  | .writeLock => if y.pc = .idle then some (m, { y with pc := .writeLoad }) else none
  | .writeUnlock =>
    if y.pc = .idle ∧ y.writes = true then some (m, { y with pc := .unlockLoad }) else none

/-! ## The lock word -/

/-- The word of a lock with `readers` read holds, the write bit and the waiting bit. -/
def word (readers : Nat) (locked waiting : Bool) : ULong :=
  BitVec.ofNat 64 (readers + 2 ^ 30 * locked.toNat + 2 ^ 31 * waiting.toNat)

/-- A lock is write locked and has no reader, or it has at most `2 ^ 30` of them: the
reader that makes it `2 ^ 30` sets the write bit and is the last to enter. -/
def Fits (readers : Nat) (locked : Bool) : Prop := readers + 2 ^ 30 * locked.toNat ≤ 2 ^ 30

variable {readers : Nat} {locked waiting : Bool} {m m' : RwLock} {y y' : Yarn} {pid : ULong}

theorem word_toNat (h : Fits readers locked) (waiting : Bool) :
    (word readers locked waiting).toNat =
      readers + 2 ^ 30 * locked.toNat + 2 ^ 31 * waiting.toNat := by
  have hw := Bool.toNat_le waiting
  unfold Fits at h
  rw [word, BitVec.toNat_ofNat, Nat.mod_eq_of_lt (by omega)]

theorem word_succ (readers : Nat) (locked waiting : Bool) :
    word readers locked waiting + 1 = word (readers + 1) locked waiting := by
  have hsum : readers + 1 + 2 ^ 30 * locked.toNat + 2 ^ 31 * waiting.toNat =
      readers + 2 ^ 30 * locked.toNat + 2 ^ 31 * waiting.toNat + 1 := by omega
  rw [word, word, hsum]
  exact (BitVec.ofNat_add _ 1).symm

theorem word_pred (readers : Nat) (locked waiting : Bool) :
    word (readers + 1) locked waiting - 1 = word readers locked waiting := by
  rw [← word_succ, BitVec.add_sub_cancel]

/-- A test of one bit. -/
theorem mask_bit (x : ULong) {i : Nat} (hi : i < 64) :
    x &&& BitVec.ofNat 64 (2 ^ i) = 0 ↔ x.toNat / 2 ^ i % 2 = 0 := by
  have hpow : 2 ^ i < 2 ^ 64 := Nat.pow_lt_pow_right (by decide) hi
  rw [← BitVec.toNat_inj, BitVec.toNat_and, BitVec.toNat_ofNat, Nat.mod_eq_of_lt hpow,
    Nat.and_two_pow, Nat.testBit_eq_decide_div_mod_eq, zero_toNat]
  have hpos : 0 < 2 ^ i := Nat.two_pow_pos i
  by_cases hbit : x.toNat / 2 ^ i % 2 = 1
  · simp only [hbit, decide_true, Bool.toNat_true]
    omega
  · simp only [hbit, decide_false, Bool.toNat_false]
    omega

/-- The low bits. -/
theorem mask_low (x : ULong) {i : Nat} (hi : i < 64) :
    (x &&& BitVec.ofNat 64 (2 ^ i - 1)).toNat = x.toNat % 2 ^ i := by
  have hpow : 2 ^ i < 2 ^ 64 := Nat.pow_lt_pow_right (by decide) hi
  rw [BitVec.toNat_and, BitVec.toNat_ofNat, Nat.mod_eq_of_lt (by omega),
    Nat.and_two_pow_sub_one_eq_mod]

section

variable (h : Fits readers locked)

include h

/-- `oldValue & 0x40000000`, set by a writer or by too many readers. -/
theorem word_locked :
    word readers locked waiting &&& 0x40000000 = 0 ↔ readers + 2 ^ 30 * locked.toNat < 2 ^ 30 := by
  have hw := word_toNat h waiting
  unfold Fits at h
  rw [show (0x40000000 : ULong) = BitVec.ofNat 64 (2 ^ 30) from rfl, mask_bit _ (by decide), hw]
  cases waiting <;> simp only [Bool.toNat_true, Bool.toNat_false] <;> omega

/-- `lock->lock & 0x7FFFFFFF` clears the waiting bit and nothing else. -/
theorem word_clear : word readers locked waiting &&& 0x7FFFFFFF = word readers locked false := by
  have hw := word_toNat h waiting
  have hw' := word_toNat h false
  unfold Fits at h
  apply BitVec.eq_of_toNat_eq
  rw [show (0x7FFFFFFF : ULong) = BitVec.ofNat 64 (2 ^ 31 - 1) from rfl, mask_low _ (by decide),
    hw, hw']
  cases waiting <;> simp only [Bool.toNat_true, Bool.toNat_false] <;> omega

/-- `oldValue | 0x80000000` sets the waiting bit and nothing else. -/
theorem word_set : word readers locked waiting ||| 0x80000000 = word readers locked true := by
  have hw := word_toNat h waiting
  have hw' := word_toNat h true
  unfold Fits at h
  have hlow := Nat.two_pow_add_eq_or_of_lt
    (show readers + 2 ^ 30 * locked.toNat < 2 ^ 31 by omega) 1
  apply BitVec.eq_of_toNat_eq
  rw [BitVec.toNat_or, hw, hw', show (0x80000000 : ULong).toNat = 2 ^ 31 * 1 from rfl]
  cases waiting with
  | false =>
    rw [Bool.toNat_false, Nat.mul_zero, Nat.add_zero, Nat.or_comm, ← hlow, Bool.toNat_true]
    omega
  | true =>
    rw [Bool.toNat_true, Nat.add_comm, hlow, Nat.or_comm, ← Nat.or_assoc, Nat.or_self]

theorem word_eq_waiting :
    word readers locked waiting = 0x80000000 ↔
      readers = 0 ∧ locked = false ∧ waiting = true := by
  have hw := word_toNat h waiting
  unfold Fits at h
  rw [← BitVec.toNat_inj, hw, show (0x80000000 : ULong).toNat = 2 ^ 31 from rfl]
  cases waiting <;> cases locked <;> simp only [Bool.toNat_true, Bool.toNat_false, reduceCtorEq,
    and_false, and_true, iff_false] at * <;> omega

end

theorem fits_writer : Fits 0 true := Nat.le_refl _

theorem fits_locked (h : Fits readers true) : readers = 0 := by
  unfold Fits at h
  rw [Bool.toNat_true] at h
  omega

/-! ## What one access does -/

/-- The yarn has set the waiting bit and has not acquired the lock yet. -/
def Yarn.Announced (y : Yarn) : Prop :=
  y.pc = .writeStore ∨ y.pc = .writeTest ∨ y.pc = .writeCas

/-- What the values a yarn goes on with say. -/
def PcOk (y : Yarn) : Prop :=
  match y.pc with
  | .readCas oldValue => oldValue &&& 0x40000000 = 0 ∧ oldValue &&& 0x80000000 = 0
  | .readAdd => 0 < y.reads
  | .unlockLoad | .unlockReload _ | .unlockYield => y.writes = true
  | .unlockCas _ newValue => y.writes = true ∧ newValue = word 0 true false
  | _ => True

/-- The changes of the lock word, and of what the yarn holds. -/
inductive Effect (m : RwLock) (y : Yarn) (m' : RwLock) (y' : Yarn) : Prop where
  | keep : m'.lock = m.lock → y'.reads = y.reads → y'.writes = y.writes →
      (y'.Announced ↔ y.Announced) → Effect m y m' y'
  | enter : m.lock &&& 0x40000000 = 0 → m.lock &&& 0x80000000 = 0 → m'.lock = m.lock + 1 →
      y'.reads = y.reads + 1 → y'.writes = y.writes → ¬ y.Announced → ¬ y'.Announced →
      Effect m y m' y'
  | leave : m'.lock = m.lock - 1 → y.reads = y'.reads + 1 → y'.writes = y.writes →
      ¬ y.Announced → ¬ y'.Announced → Effect m y m' y'
  | announce : m'.lock = m.lock ||| 0x80000000 → y'.reads = y.reads → y'.writes = y.writes →
      y'.Announced → Effect m y m' y'
  | acquire : m.lock = 0x80000000 → m'.lock = word 0 true false → y'.reads = y.reads →
      y'.writes = true → ¬ y'.Announced → Effect m y m' y'
  | release : (∃ newValue, y.pc = .unlockCas m.lock newValue) → y.writes = true →
      m'.lock = word 0 true false → y'.reads = y.reads → y'.writes = false → Effect m y m' y'

theorem access_effect (hok : PcOk y) (h : access pid m y = some (m', y')) :
    Effect m y m' y' := by
  obtain ⟨pc, reads, writes⟩ := y
  cases pc with
  | idle => cases h
  | readLoad =>
    simp only [access] at h
    split at h <;> cases h <;> exact .keep rfl rfl rfl (by simp [Yarn.Announced])
  | readCas oldValue =>
    simp only [access] at h
    split at h
    · rename_i heq
      cases h
      rw [PcOk, ← heq] at hok
      exact .enter hok.1 hok.2 (by rw [heq]) rfl rfl (by simp [Yarn.Announced])
        (by simp [Yarn.Announced])
    · cases h
      exact .keep rfl rfl rfl (by simp [Yarn.Announced])
  | readAdd =>
    cases h
    have hpos : 0 < reads := hok
    refine .leave rfl (by dsimp only; omega) rfl (by simp [Yarn.Announced]) ?_
    dsimp only [Yarn.Announced]
    split
    · simp
    · simp
  | writeOr oldValue =>
    simp only [access] at h
    split at h
    · rename_i heq
      cases h
      exact .announce (by rw [heq]) rfl rfl (by simp [Yarn.Announced])
    · cases h
      exact .keep rfl rfl rfl (by simp [Yarn.Announced])
  | writeTest =>
    simp only [access] at h
    split at h <;> cases h <;> exact .keep rfl rfl rfl (by simp [Yarn.Announced])
  | writeCas =>
    simp only [access] at h
    split at h
    · rename_i heq
      cases h
      exact .acquire heq rfl rfl rfl (by simp [Yarn.Announced])
    · cases h
      exact .keep rfl rfl rfl (by simp [Yarn.Announced])
  | unlockCas oldValue newValue =>
    simp only [access] at h
    split at h
    · rename_i heq
      cases h
      exact .release ⟨newValue, by rw [heq]⟩ hok.1 hok.2 rfl rfl
    · cases h
      exact .keep rfl rfl rfl (by simp [Yarn.Announced])
  | unlockWriter =>
    simp only [access] at h
    split at h <;> cases h <;> exact .keep rfl rfl rfl (by simp [Yarn.Announced])
  | readYield | readUnlockYield | writeLoad | writeOrYield | writeStore | unlockLoad
  | unlockReload | unlockYield | unlockWriterYield =>
    -- the word is not written and the yarn holds what it held
    cases h
    exact .keep rfl rfl rfl (by simp [Yarn.Announced])

theorem act_effect {a : Act} (hok : PcOk y) (h : act pid m y a = some (m', y')) :
    Effect m y m' y' := by
  cases a with
  | step => exact access_effect hok h
  | readLock | readUnlock | writeLock | writeUnlock =>
    simp only [act] at h
    split at h
    · rename_i hidle
      cases h
      exact .keep rfl rfl rfl (by simp [Yarn.Announced, hidle])
    · cases h

/-- A yarn that holds the write lock computes the word it releases with from a word that
has no reader. -/
theorem act_pcOk {a : Act} (hok : PcOk y)
    (hheld : y.writes = true → ∃ waiting, m.lock = word 0 true waiting)
    (h : act pid m y a = some (m', y')) : PcOk y' := by
  cases a with
  | readLock =>
    simp only [act] at h
    split at h <;> cases h
    trivial
  | readUnlock =>
    simp only [act] at h
    split at h <;> cases h
    rename_i hidle
    exact hidle.2
  | writeLock =>
    simp only [act] at h
    split at h <;> cases h
    trivial
  | writeUnlock =>
    simp only [act] at h
    split at h <;> cases h
    rename_i hidle
    exact hidle.2
  | step =>
    obtain ⟨pc, reads, writes⟩ := y
    cases pc with
    | idle => cases h
    | readLoad =>
      simp only [act, access] at h
      split at h <;> cases h
      · trivial
      · rename_i hbits
        rw [not_or, not_not, not_not] at hbits
        exact hbits
    | readCas oldValue =>
      simp only [act, access] at h
      split at h <;> cases h <;> trivial
    | readAdd =>
      by_cases hbit : m.lock &&& 0x80000000 ≠ 0
      · simp only [act, access, if_pos hbit] at h
        cases h
        trivial
      · simp only [act, access, if_neg hbit] at h
        cases h
        trivial
    | writeOr oldValue =>
      simp only [act, access] at h
      split at h <;> cases h <;> trivial
    | writeTest =>
      simp only [act, access] at h
      split at h <;> cases h <;> trivial
    | writeCas =>
      simp only [act, access] at h
      split at h <;> cases h <;> trivial
    | unlockLoad =>
      cases h
      exact hok
    | unlockReload oldValue =>
      cases h
      obtain ⟨waiting, hlock⟩ := hheld hok
      refine ⟨hok, ?_⟩
      rw [hlock]
      exact word_clear fits_writer
    | unlockCas oldValue newValue =>
      simp only [act, access] at h
      split at h <;> cases h
      · trivial
      · exact hok.1
    | unlockYield =>
      cases h
      exact hok
    | unlockWriter =>
      simp only [act, access] at h
      split at h <;> cases h <;> trivial
    | readYield | readUnlockYield | writeLoad | writeOrYield | writeStore | unlockWriterYield =>
      cases h
      trivial

end RwLock

end Yarns
