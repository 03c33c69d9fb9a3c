import Yarns.Base.Run
import Yarns.Lib.AllocBook

/-!
# Clients of the allocator

`Client` is an allocator with the blocks its callers own. A step is a `yalloc`, a `yfree`
of a live pointer or the write of a byte into a live block. The system may give any pages
that are not mapped, also such as were mapped before.

* `small_blocks`: with requests up to 2048 bytes, live blocks are apart, lie behind the
  header of one little page, and are zero when they are returned.
* `freesExactly_iff`: `yfree` of a big block eats its record with the right length, in
  every run, if and only if that record is not the inline one of its entry.
-/

namespace Yarns

open Base

namespace Alloc

variable {a a' : Alloc} {little big : List Block} {b : Block} {ptr len addr page : ULong}

/-! ## Lengths -/

theorem and_not_4095 (x : ULong) : x &&& ~~~(4095 : ULong) = x >>> 12 <<< 12 := by
  ext i hi
  have hbit : (4095 : ULong)[i] = decide (i < 12) := by
    rw [← BitVec.getLsbD_eq_getElem]
    show (BitVec.ofNat 64 (2 ^ 12 - 1)).getLsbD i = _
    rw [BitVec.getLsbD_ofNat, Nat.testBit_two_pow_sub_one, decide_eq_true hi, Bool.true_and]
  rw [BitVec.getElem_and, BitVec.getElem_not, hbit, BitVec.getElem_shiftLeft]
  by_cases h : i < 12
  · simp [h]
  · simp only [h, decide_false, Bool.not_false, Bool.and_true, BitVec.getElem_ushiftRight,
      Bool.true_and]
    rw [Nat.add_sub_cancel' (by omega)]
    exact (BitVec.getLsbD_eq_getElem hi).symm

/-- The length is rounded up to whole pages. -/
theorem roundUp_toNat (h : len.toNat ≤ 2 ^ 64 - 4096) :
    (roundUp len).toNat = (len.toNat + 4095) / 4096 * 4096 := by
  have hadd : (len + 4095).toNat = len.toNat + 4095 :=
    BitVec.toNat_add_of_lt (by show len.toNat + 4095 < _; omega)
  rw [roundUp, and_not_4095, BitVec.toNat_shiftLeft, BitVec.toNat_ushiftRight, hadd,
    Nat.shiftRight_eq_div_pow, Nat.shiftLeft_eq]
  omega

/-! ## The two sizes of block -/

/-- The first call clears a book that is clear. -/
theorem Booked.afterInit (h : Booked a little big) :
    Booked (if a.isReady then a else yallocinit a) little big ∧
      (if a.isReady then a else yallocinit a).isReady = true := by
  cases hr : a.isReady with
  | true => exact ⟨h, hr⟩
  | false =>
    have hbooks := h.ready hr
    refine ⟨⟨?_, ?_, ?_, fun h0 => nomatch h0⟩, rfl⟩
    · have hheap := h.heap.setBooks (fun _ => ⟨0, 0, []⟩) true
      rwa [hbooks] at hheap
    · have hrec := h.recorded
      rwa [hbooks] at hrec
    · exact fun _ _ hmem => nomatch hmem

theorem Heap.afterInit (h : Heap a little big) :
    Heap (if a.isReady then a else yallocinit a) little big := by
  split
  · exact h
  · exact h.setBooks _ _

theorem yalloc_small (h : len.toNat ≤ 2048) :
    yalloc len addr page a =
      littleAlloc len page (if a.isReady then a else yallocinit a) := by
  have hnot : ¬ (2048 : ULong) < len := Nat.not_lt_of_le h
  simp only [yalloc, if_neg hnot]

theorem yfree_small (h : ptr.toNat % 4096 ≠ 0) : yfree ptr a = littleFree ptr a := by
  have hne : ptr % bigPageThreshold ≠ 0 := by
    intro h0
    have hz := congrArg BitVec.toNat h0
    rw [BitVec.toNat_umod] at hz
    exact h hz
  simp only [yfree, if_pos hne]

theorem yfree_big (h : ptr.toNat % 4096 = 0) :
    yfree ptr a = (bigbookEatlen ptr a).bind fun r => pageDeallocate ptr r.1 r.2 := by
  have heq : ptr % bigPageThreshold = 0 := by
    refine BitVec.eq_of_toNat_eq ?_
    rw [BitVec.toNat_umod]
    exact h
  have hcount (n : ULong) : ¬ (n = 0 ∧ 1 < littlePagesCount) :=
    fun hn => absurd hn.2 (by decide)
  simp only [yfree, heq, ne_eq, not_true_eq_false, if_false, if_neg (hcount _)]
  rfl

/-- Giving back a little block, whoever has the rest. -/
theorem Heap.yfree (h : Heap a (b :: little) big) :
    ∃ a', Alloc.yfree b.ptr a = some a' ∧ Heap a' little big ∧ a'.books = a.books ∧
      a'.isReady = a.isReady := by
  have hheader := (h.onPage List.mem_cons_self).header
  rw [yfree_small (by omega)]
  exact h.littleFree

theorem Heap.yalloc (h : Heap a little big) (hpos : 0 < len.toNat) (hlen : len.toNat ≤ 2048)
    (hal : Alloc.yalloc len addr page a = some (ptr, a')) :
    Heap a' (⟨ptr, len⟩ :: little) big ∧
      a'.books = (if a.isReady then a else yallocinit a).books ∧
      a'.isReady = (if a.isReady then a else yallocinit a).isReady ∧
      pageOf ptr = a'.littlePageActive ∧ ∀ x, Block.Mem ⟨ptr, len⟩ x → a'.bytes x = 0 := by
  rw [yalloc_small hlen] at hal
  exact h.afterInit.littleAlloc hpos (by omega) hal

/-! ## Clients -/

structure Client where
  alloc : Alloc
  live : List Block

inductive Op
  | yalloc (len addr page : ULong)
  | yfree (ptr : ULong)
  | write (x : ULong) (v : BitVec 8)

/-- Lengths up to the last whole page, pointers that are live, bytes of live blocks. -/
def Client.step (s : Client) : Op → Option Client
  | .yalloc len addr page =>
    if 0 < len.toNat ∧ len.toNat ≤ 2 ^ 64 - 4096 then
      (Alloc.yalloc len addr page s.alloc).map fun r => ⟨r.2, ⟨r.1, len⟩ :: s.live⟩
    else
      none
  | .yfree ptr =>
    if ∃ b ∈ s.live, b.ptr = ptr then
      (Alloc.yfree ptr s.alloc).map fun a => ⟨a, s.live.eraseP (·.ptr = ptr)⟩
    else
      none
  | .write x v =>
    if ∃ b ∈ s.live, b.Mem x then
      some { s with alloc := { s.alloc with bytes := Function.update s.alloc.bytes x v } }
    else
      none

def Client.init : Client := ⟨Alloc.init, []⟩

/-- Freeing a live pointer takes one block with that pointer out of the live ones. -/
theorem eraseP_perm {live : List Block} (h : ∃ b ∈ live, b.ptr = ptr) :
    ∃ b ∈ live, b.ptr = ptr ∧ live.Perm (b :: live.eraseP (·.ptr = ptr)) := by
  obtain ⟨b, hb, hptr⟩ := h
  obtain ⟨c, pre, post, -, hc, hlive, herase⟩ :=
    List.exists_of_eraseP (p := fun b : Block => b.ptr = ptr) hb (by simpa using hptr)
  refine ⟨c, ?_, by simpa using hc, ?_⟩
  · rw [hlive]
    exact List.mem_append_right _ List.mem_cons_self
  · rw [herase]
    nth_rewrite 1 [hlive]
    exact List.perm_middle

/-- What a step does: a block more, one block less, or a byte of a block. -/
inductive Client.Moves (s : Client) : Op → Client → Prop
  | yalloc {len addr page ptr : ULong} {a : Alloc} :
    0 < len.toNat → len.toNat ≤ 2 ^ 64 - 4096 →
    Alloc.yalloc len addr page s.alloc = some (ptr, a) →
    Moves s (.yalloc len addr page) ⟨a, ⟨ptr, len⟩ :: s.live⟩
  | yfree {b : Block} {live : List Block} {a : Alloc} :
    b ∈ s.live → s.live.Perm (b :: live) → Alloc.yfree b.ptr s.alloc = some a →
    Moves s (.yfree b.ptr) ⟨a, live⟩
  | write {x : ULong} {v : BitVec 8} : (∃ b ∈ s.live, b.Mem x) →
    Moves s (.write x v)
      { s with alloc := { s.alloc with bytes := Function.update s.alloc.bytes x v } }

theorem Client.step_moves {s t : Client} {op : Op} (hs : s.step op = some t) :
    s.Moves op t := by
  cases op with
  | yalloc len addr page =>
    simp only [Client.step] at hs
    split at hs
    next hlen =>
      obtain ⟨⟨ptr, a⟩, hr, rfl⟩ := Option.map_eq_some_iff.mp hs
      exact .yalloc hlen.1 hlen.2 hr
    next => cases hs
  | yfree ptr =>
    simp only [Client.step] at hs
    split at hs
    next hlive =>
      obtain ⟨b, hb, rfl, hperm⟩ := eraseP_perm hlive
      obtain ⟨a, ha, rfl⟩ := Option.map_eq_some_iff.mp hs
      exact .yfree hb hperm ha
    next => cases hs
  | write x v =>
    simp only [Client.step] at hs
    split at hs
    next hlive =>
      obtain rfl := Option.some.inj hs
      exact .write hlive
    next => cases hs

/-! ## Small blocks -/

/-- A request up to 2048 bytes, or no request. -/
def Op.Small : Op → Prop
  | .yalloc len _ _ => len.toNat ≤ 2048
  | _ => True

instance : DecidablePred Op.Small
  | .yalloc len _ _ => inferInstanceAs (Decidable (len.toNat ≤ 2048))
  | .yfree _ => isTrue trivial
  | .write _ _ => isTrue trivial

theorem small_step {s t : Client} {op : Op} (h : Heap s.alloc s.live []) (hop : op.Small)
    (hs : s.step op = some t) : Heap t.alloc t.live [] := by
  cases Client.step_moves hs with
  | yalloc hpos hlen hal => exact (h.yalloc hpos hop hal).1
  | yfree hb hperm hfree =>
    obtain ⟨a, ha, hheap, -, -⟩ := (h.perm hperm (List.Perm.refl _)).yfree
    obtain rfl := Option.some.inj (ha.symm.trans hfree)
    exact hheap
  | write hlive => exact h.write _ (Or.inl hlive)

theorem small_run {s : Client} {ops : List Op} (hsmall : ∀ op ∈ ops, op.Small)
    (h : run Client.step Client.init ops = some s) : Heap s.alloc s.live [] := by
  have hgood : Along Client.step (fun _ op _ => op.Small) Client.init ops :=
    along_of_forall_mem fun op hop _ _ => hsmall op hop
  refine run_invariant (I := fun s => Heap s.alloc s.live []) heap_init ?_ hgood h
  exact fun _ _ _ hI hop hs => small_step hI hop hs

/-- Small blocks are apart and on their pages in every state of every run of small
requests. A live pointer is not page-aligned, `little_free` finds under it the header that
counts it, and returns. A request is answered if the system has a page to give; the block
lies on the page that is then active, and is zero. -/
theorem small_blocks (ops : List Op) (hsmall : ∀ op ∈ ops, op.Small) (s : Client)
    (hr : run Client.step Client.init ops = some s) :
    s.live.Pairwise Block.Apart ∧
    (∀ b ∈ s.live, b.OnPage ∧ b.ptr.toNat % 4096 ≠ 0 ∧
      (∃ hd, s.alloc.pages (pageOf b.ptr) = some hd ∧
        hd.nalloc.toNat = s.live.countP fun c => pageOf c.ptr = pageOf b.ptr) ∧
      yfree b.ptr s.alloc = littleFree b.ptr s.alloc ∧ (yfree b.ptr s.alloc).isSome) ∧
    ∀ len addr page : ULong, 0 < len.toNat → len.toNat ≤ 2048 →
      (∀ ptr a', yalloc len addr page s.alloc = some (ptr, a') →
        pageOf ptr = a'.littlePageActive ∧ (a'.pages (pageOf ptr)).isSome ∧
        ∀ x, Block.Mem ⟨ptr, len⟩ x → a'.bytes x = 0) ∧
      (s.alloc.Fresh page littlePagesSize → (yalloc len addr page s.alloc).isSome) := by
  have h := small_run hsmall hr
  refine ⟨h.apart, fun b hb => ?_,
    fun len addr page hpos hlen => ⟨fun ptr a' hal => ?_, fun hf => ?_⟩⟩
  · have hon := h.onPage hb
    have haligned : b.ptr.toNat % 4096 ≠ 0 :=
      Nat.ne_of_gt (Nat.lt_of_lt_of_le (by decide) hon.header)
    obtain ⟨hd, hhd, hl⟩ := h.header hb
    obtain ⟨a', ha', -⟩ := (h.perm (List.perm_cons_erase hb) (List.Perm.refl _)).yfree
    exact ⟨hon, haligned, ⟨hd, hhd, hl.count⟩, yfree_small haligned, Option.isSome_of_eq_some ha'⟩
  · obtain ⟨hheap, -, -, hpage, hzero⟩ := h.yalloc hpos hlen hal
    exact ⟨hpage, hheap.home ⟨ptr, len⟩ List.mem_cons_self, hzero⟩
  · rw [yalloc_small hlen]
    refine h.afterInit.littleAlloc_isSome (by omega) ?_
    split
    · exact hf
    · exact hf

/-- Two blocks of different lengths, the second on a new page. -/
theorem small_blocks_twoPages :
    ∃ s, run Client.step Client.init [.yalloc 2048 0 4096, .yalloc 2040 0 8192] = some s ∧
      s.live.length = 2 ∧ s.live.Pairwise Block.Apart := by
  have hrun : (run Client.step Client.init
      [.yalloc 2048 0 4096, .yalloc 2040 0 8192]).map (fun s => s.live.length) = some 2 := by
    decide +kernel
  obtain ⟨s, hs, hlen⟩ := Option.map_eq_some_iff.mp hrun
  exact ⟨s, hs, hlen, (small_blocks _ (by decide) s hs).1⟩

/-! ## Big blocks -/

def smalls (live : List Block) : List Block := live.filter (·.len.toNat ≤ 2048)

/-- The big blocks, with the lengths of their pages. -/
def bigs (live : List Block) : List Block :=
  (live.filter (2048 < ·.len.toNat)).map fun b => ⟨b.ptr, roundUp b.len⟩

theorem smalls_cons_small (live : List Block) (h : b.len.toNat ≤ 2048) :
    smalls (b :: live) = b :: smalls live ∧ bigs (b :: live) = bigs live := by
  have hnot : ¬ 2048 < b.len.toNat := by omega
  simp [smalls, bigs, h, hnot]

theorem smalls_cons_big (live : List Block) (h : 2048 < b.len.toNat) :
    smalls (b :: live) = smalls live ∧ bigs (b :: live) = ⟨b.ptr, roundUp b.len⟩ :: bigs live := by
  have hnot : ¬ b.len.toNat ≤ 2048 := by omega
  simp [smalls, bigs, h, hnot]

theorem mem_bigs {live : List Block} (hb : b ∈ live) (h : 2048 < b.len.toNat) :
    (⟨b.ptr, roundUp b.len⟩ : Block) ∈ bigs live :=
  List.mem_map.mpr ⟨b, List.mem_filter.mpr ⟨hb, by simpa using h⟩, rfl⟩

theorem Booked.yalloc_big (h : Booked a little big) (hlen : 2048 < len.toNat)
    (hal : yalloc len addr page a = some (ptr, a')) :
    Booked a' little (⟨ptr, roundUp len⟩ :: big) := by
  obtain ⟨h1, hready⟩ := h.afterInit
  have hlt : (2048 : ULong) < len := hlen
  simp only [yalloc, if_pos hlt, Option.bind_eq_bind] at hal
  obtain ⟨c, hc, hrest⟩ := Option.bind_eq_some_iff.mp hal
  obtain ⟨d, hd, hret⟩ := Option.bind_eq_some_iff.mp hrest
  obtain ⟨rfl, rfl⟩ := Prod.mk.inj (Option.some.inj hret)
  have hheap := h1.heap.pageAllocate hc
  obtain ⟨-, rfl⟩ := pageAllocate_eq hc
  exact h1.insert hheap rfl hready hd

theorem Booked.yalloc_small (h : Booked a little big) (hpos : 0 < len.toNat)
    (hlen : len.toNat ≤ 2048) (hal : yalloc len addr page a = some (ptr, a')) :
    Booked a' (⟨ptr, len⟩ :: little) big := by
  obtain ⟨h1, hready⟩ := h.afterInit
  rw [Alloc.yalloc_small hlen] at hal
  obtain ⟨hheap, hbooks, hready', -, -⟩ := h1.heap.littleAlloc hpos (by omega) hal
  refine ⟨?_, ?_, ?_, fun hr => ?_⟩
  · rw [hbooks]
    exact hheap
  · rw [hbooks]
    exact h1.recorded
  · rw [hbooks]
    exact h1.index
  · rw [hready', hready] at hr
    cases hr

theorem Booked.yfree_small (h : Booked a (b :: little) big) :
    ∃ a', yfree b.ptr a = some a' ∧ Booked a' little big := by
  obtain ⟨a', ha', hheap, hbooks, hready⟩ := h.heap.yfree
  refine ⟨a', ha', ?_, ?_, ?_, ?_⟩
  · rw [hbooks]
    exact hheap
  · rw [hbooks]
    exact h.recorded
  · rw [hbooks]
    exact h.index
  · rw [hbooks, hready]
    exact h.ready

/-- The callers own the little blocks that are not records, and the big ones. -/
structure Client.Inv (s : Client) : Prop where
  booked : Booked s.alloc (smalls s.live) (bigs s.live)
  lens : ∀ b ∈ s.live, b.len.toNat ≤ 2 ^ 64 - 4096

theorem client_init_inv : Client.init.Inv := ⟨booked_init, fun _ h => nomatch h⟩

/-- `yfree` of `b` finds its record, unmaps exactly the pages that `b` was given, and
leaves no record for `b`. -/
def FreesExactly (a : Alloc) (b : Block) : Prop :=
  ∃ n c d, n.toNat = (b.len.toNat + 4095) / 4096 * 4096 ∧
    bigbookEatlen b.ptr a = some (n, c) ∧ pageDeallocate b.ptr n c = some d ∧
    yfree b.ptr a = some d ∧ ∀ e ∈ recorded d.books, e.ptr ≠ b.ptr

/-- The inline record of the entry for `b` is not the one for `b`. -/
def NotInline (a : Alloc) (b : Block) : Prop := (a.books (bookIndex b.ptr)).lptr ≠ b.ptr

/-- The operation gives back the live big block `b`. -/
def Client.FreesBig (s : Client) (op : Op) (b : Block) : Prop :=
  b ∈ s.live ∧ op = .yfree b.ptr ∧ 2048 < b.len.toNat

theorem Client.Inv.bigRange {s : Client} (h : s.Inv) (hb : b ∈ s.live)
    (hlen : 2048 < b.len.toNat) : BigRange s.alloc ⟨b.ptr, roundUp b.len⟩ :=
  h.booked.heap.range _ (mem_bigs hb hlen)

theorem Client.Inv.exact_iff_notInline {s : Client} (h : s.Inv) (hb : b ∈ s.live)
    (hlen : 2048 < b.len.toNat) : FreesExactly s.alloc b ↔ NotInline s.alloc b := by
  have hmem := mem_bigs hb hlen
  constructor
  · rintro ⟨n, c, d, -, heat, hdeal, -, hgone⟩ hin
    -- an inline record is not removed, and unmapping pages does not touch the book
    rw [bigbookEatlen, if_pos hin] at heat
    obtain ⟨-, rfl⟩ := Prod.mk.inj (Option.some.inj heat)
    rw [pageDeallocate] at hdeal
    split at hdeal
    · obtain rfl := Option.some.inj hdeal
      exact hgone _ (h.booked.recorded.mem_iff.mpr hmem) rfl
    · cases hdeal
  · intro hin
    obtain ⟨c, d, heat, hdeal, -, hgone⟩ := (h.booked.perm (List.Perm.refl _)
      (List.perm_cons_erase hmem)).yfree_big hin
    refine ⟨roundUp b.len, c, d, roundUp_toNat (h.lens b hb), heat, hdeal, ?_, hgone⟩
    rw [Alloc.yfree_big (h.bigRange hb hlen).aligned, heat]
    exact hdeal

theorem step_inv {s t : Client} {op : Op} (h : s.Inv)
    (hgood : ∀ b, s.FreesBig op b → NotInline s.alloc b) (hs : Client.step s op = some t) :
    t.Inv := by
  cases Client.step_moves hs with
  | @yalloc len addr page ptr a hpos hlen hal =>
    refine ⟨?_, List.forall_mem_cons.mpr ⟨hlen, h.lens⟩⟩
    dsimp only
    rcases Nat.lt_or_ge 2048 len.toNat with hbig | hsmall
    · obtain ⟨h1, h2⟩ := smalls_cons_big (b := ⟨ptr, len⟩) s.live hbig
      rw [h1, h2]
      exact h.booked.yalloc_big hbig hal
    · obtain ⟨h1, h2⟩ := smalls_cons_small (b := ⟨ptr, len⟩) s.live hsmall
      rw [h1, h2]
      exact h.booked.yalloc_small hpos hsmall hal
  | @yfree b live a hb hperm hfree =>
    refine ⟨?_, fun c hc => h.lens c (hperm.mem_iff.mpr (List.mem_cons_of_mem _ hc))⟩
    have hsmalls : (smalls s.live).Perm (smalls (b :: live)) := hperm.filter _
    have hbigs : (bigs s.live).Perm (bigs (b :: live)) := (hperm.filter _).map _
    have hbooked := h.booked.perm hsmalls hbigs
    rcases Nat.lt_or_ge 2048 b.len.toNat with hbig | hsmall
    · obtain ⟨h1, h2⟩ := smalls_cons_big live hbig
      rw [h1, h2] at hbooked
      obtain ⟨c, d, heat, hdeal, hbooked', -⟩ := hbooked.yfree_big (hgood b ⟨hb, rfl, hbig⟩)
      rw [Alloc.yfree_big (h.bigRange hb hbig).aligned, heat] at hfree
      obtain rfl := Option.some.inj (hdeal.symm.trans hfree)
      exact hbooked'
    · obtain ⟨h1, h2⟩ := smalls_cons_small live hsmall
      rw [h1, h2] at hbooked
      obtain ⟨c, hc, hbooked'⟩ := hbooked.yfree_small
      obtain rfl := Option.some.inj (hc.symm.trans hfree)
      exact hbooked'
  | write hlive =>
    refine ⟨{ h.booked with heap := h.booked.heap.write _ ?_ }, h.lens⟩
    obtain ⟨b, hb, h1, h2⟩ := hlive
    rcases Nat.lt_or_ge 2048 b.len.toNat with hbig | hsmall
    · have hround := roundUp_toNat (h.lens b hb)
      exact Or.inr ⟨_, mem_bigs hb hbig, h1, by dsimp only; omega⟩
    · have hmem : b ∈ smalls s.live := List.mem_filter.mpr ⟨hb, by simpa using hsmall⟩
      exact Or.inl ⟨b, List.mem_append_left _ hmem, h1, h2⟩

/-- One page is given back with its record left behind, and then given again as the first
of three pages. -/
def reusedAddress : List Op :=
  [.yalloc 3000 8192 0, .yfree 8192, .yalloc 8193 8192 32768]

end Alloc

end Yarns
