import Mathlib.Algebra.Group.Nat.Defs
import Mathlib.Logic.Function.Basic

/-!
# Words in a memory of bytes

A memory of bytes with addresses of 32 bits that wrap, and little-endian words of four
bytes in it. `InWord a x` says that the byte `x` belongs to the word at `a`, `InBlock base n
x` that it is one of the `n` bytes from `base` on.

A load depends on the four bytes of its word only (`load32_congr`), a store changes no
others (`store32_of_not_inWord`), and a load after a store at another word reads what was
there before (`load32_store32_of_apart`). Words in one block, and in blocks that have no
byte in common, are apart.
-/

namespace Yarns.Base

abbrev Word32 := BitVec 32

/-- Bytes by address. -/
abbrev ByteMemory := Word32 → BitVec 8

/-- The byte `x` is one of the four of the word at `a`. -/
def InWord (a x : Word32) : Prop := (x - a).toNat < 4

/-- The byte `x` is one of the `n` from `base` on. -/
def InBlock (base : Word32) (n : Nat) (x : Word32) : Prop := (x - base).toNat < n

instance (a x : Word32) : Decidable (InWord a x) := inferInstanceAs (Decidable (_ < _))

instance (base : Word32) (n : Nat) (x : Word32) : Decidable (InBlock base n x) :=
  inferInstanceAs (Decidable (_ < _))

/-- The `n` bytes from `a` on are among the `size` from `base` on. -/
def Spans (base : Word32) (size : Nat) (a : Word32) (n : Nat) : Prop :=
  (a - base).toNat + n ≤ size

instance (base : Word32) (size : Nat) (a : Word32) (n : Nat) : Decidable (Spans base size a n) :=
  inferInstanceAs (Decidable (_ ≤ _))

def load32 (m : ByteMemory) (a : Word32) : Word32 :=
  m (a + 3#32) ++ m (a + 2#32) ++ m (a + 1#32) ++ m a

def store32 (m : ByteMemory) (a v : Word32) : ByteMemory := fun x =>
  if InWord a x then v.extractLsb' (8 * (x - a).toNat) 8 else m x

variable {m m' : ByteMemory} {a b base v x : Word32} {n size : Nat}

theorem inWord_add {d : Word32} (h : d.toNat < 4) : InWord a (a + d) := by
  have hsub : a + d - a = d := by
    rw [BitVec.add_comm, BitVec.add_sub_cancel]
  rw [InWord, hsub]
  exact h

theorem inWord_self : InWord a a := by
  rw [InWord, BitVec.sub_self]
  decide

theorem load32_congr (h : ∀ x, InWord a x → m x = m' x) : load32 m a = load32 m' a := by
  have h0 := h a inWord_self
  have h1 := h (a + 1#32) (inWord_add (by decide))
  have h2 := h (a + 2#32) (inWord_add (by decide))
  have h3 := h (a + 3#32) (inWord_add (by decide))
  rw [load32, load32, h0, h1, h2, h3]

theorem store32_of_not_inWord (h : ¬ InWord a x) : store32 m a v x = m x := if_neg h

theorem store32_add {d : Word32} (h : d.toNat < 4) :
    store32 m a v (a + d) = v.extractLsb' (8 * d.toNat) 8 := by
  have hsub : a + d - a = d := by
    rw [BitVec.add_comm, BitVec.add_sub_cancel]
  rw [store32, if_pos (inWord_add h), hsub]

/-- The four bytes of a word, put together. -/
theorem extract_bytes (v : Word32) :
    v.extractLsb' 24 8 ++ v.extractLsb' 16 8 ++ v.extractLsb' 8 8 ++ v.extractLsb' 0 8 = v := by
  apply BitVec.eq_of_getLsbD_eq
  intro i hi
  simp only [BitVec.getLsbD_append, BitVec.getLsbD_extractLsb']
  grind

@[simp] theorem load32_store32 : load32 (store32 m a v) a = v := by
  have h0 : store32 m a v a = v.extractLsb' 0 8 := by
    rw [store32, if_pos inWord_self, BitVec.sub_self]
    rfl
  have h1 : store32 m a v (a + 1#32) = v.extractLsb' 8 8 := store32_add (by decide)
  have h2 : store32 m a v (a + 2#32) = v.extractLsb' 16 8 := store32_add (by decide)
  have h3 : store32 m a v (a + 3#32) = v.extractLsb' 24 8 := store32_add (by decide)
  rw [load32, h0, h1, h2, h3]
  exact extract_bytes v

/-- Clearing the low bits is rounding down. -/
theorem and_not_low {w k : Nat} (x : BitVec w) :
    x &&& ~~~(BitVec.ofNat w (2 ^ k - 1)) = x >>> k <<< k := by
  apply BitVec.eq_of_getLsbD_eq
  intro i hi
  rw [BitVec.getLsbD_and, BitVec.getLsbD_not, BitVec.getLsbD_ofNat, Nat.testBit_two_pow_sub_one,
    BitVec.getLsbD_shiftLeft, BitVec.getLsbD_ushiftRight]
  by_cases hik : i < k
  · simp [hi, hik]
  · have hadd : k + (i - k) = i := by omega
    simp [hi, hik, hadd]

theorem and_not_low_toNat {w k : Nat} (x : BitVec w) :
    (x &&& ~~~(BitVec.ofNat w (2 ^ k - 1))).toNat = x.toNat / 2 ^ k * 2 ^ k := by
  have hle := Nat.div_mul_le_self x.toNat (2 ^ k)
  rw [and_not_low, BitVec.toNat_shiftLeft, BitVec.toNat_ushiftRight,
    Nat.shiftRight_eq_div_pow, Nat.shiftLeft_eq]
  exact Nat.mod_eq_of_lt (Nat.lt_of_le_of_lt hle x.isLt)

/-! ## Words that are apart -/

/-- The words at `a` and `b` have no byte in common. -/
def WordsApart (a b : Word32) : Prop := 4 ≤ (b - a).toNat ∧ 4 ≤ (a - b).toNat

instance (a b : Word32) : Decidable (WordsApart a b) := inferInstanceAs (Decidable (_ ∧ _))

theorem WordsApart.symm (h : WordsApart a b) : WordsApart b a := ⟨h.2, h.1⟩

theorem WordsApart.not_inWord (h : WordsApart a b) (hx : InWord b x) : ¬ InWord a x := by
  obtain ⟨h1, h2⟩ := h
  rw [InWord] at hx ⊢
  bv_omega

theorem load32_store32_of_apart (h : WordsApart a b) : load32 (store32 m a v) b = load32 m b :=
  load32_congr fun _ hx => store32_of_not_inWord (h.not_inWord hx)

/-- Two words at fixed distances from one address. -/
theorem wordsApart_add {d e : Word32} (h : WordsApart d e) : WordsApart (a + d) (a + e) := by
  have h1 : a + e - (a + d) = e - d := by bv_omega
  have h2 : a + d - (a + e) = d - e := by bv_omega
  rw [WordsApart, h1, h2]
  exact h

/-! ## Blocks -/

theorem Spans.inBlock (h : Spans base size a n) (hx : InBlock a n x) : InBlock base size x := by
  rw [Spans] at h
  rw [InBlock] at hx ⊢
  bv_omega

theorem Spans.inBlock_word (h : Spans base size a 4) (hx : InWord a x) : InBlock base size x :=
  h.inBlock hx

theorem Spans.mono {n' : Nat} (h : Spans base size a n) (hle : n' ≤ n) :
    Spans base size a n' := by
  rw [Spans] at h ⊢
  omega

/-- A word further on. -/
theorem Spans.add {d : Word32} {k : Nat} (h : Spans base size a n) (hk : d.toNat + k ≤ n) :
    Spans base size (a + d) k := by
  rw [Spans] at h ⊢
  bv_omega

/-- The block itself, and a word in it. -/
theorem spans_add {d : Word32} (h : d.toNat + n ≤ size) : Spans base size (base + d) n := by
  have hsub : base + d - base = d := by
    rw [BitVec.add_comm, BitVec.add_sub_cancel]
  rw [Spans, hsub]
  exact h

/-- No byte in common. -/
def BlocksApart (base : Word32) (size : Nat) (base' : Word32) (size' : Nat) : Prop :=
  ∀ x, InBlock base size x → ¬ InBlock base' size' x

/-- Blocks one behind the other, neither of which wraps. -/
theorem blocksApart_of_le {base' : Word32} {size' : Nat}
    (h : base.toNat + size ≤ base'.toNat ∨ base'.toNat + size' ≤ base.toNat)
    (hend : base.toNat + size ≤ 2 ^ 32) (hend' : base'.toNat + size' ≤ 2 ^ 32) :
    BlocksApart base size base' size' := by
  intro x hx hx'
  rw [InBlock] at hx hx'
  bv_omega

end Yarns.Base
