import Yarns.Base.Run
import Yarns.Data.FifoSegments

/-!
# Runs of the segmented queue

`Holds` says which chain of segments a queue is. Each operation leaves such a chain, whose
contents are those the list queue of `Data/Queue.lean` has after the same operation; so no
run of operations fails, whatever addresses `yalloc` hands out, and `fifo_free` releases
what is left of it.
-/

namespace Yarns.Segmented

open Base

variable {q q' : Fifo} {heap heap' : Heap} {segs rest init : List (Nat × FifoSegment)}
  {n : Nat} {s s' : FifoSegment} {val : ULong} {address : Nat}

/-! ## Chains -/

theorem Linked.congr (h : Linked heap segs)
    (hread : ∀ c ∈ segs, heap'.read c.1 = heap.read c.1) : Linked heap' segs := by
  induction segs with
  | nil => trivial
  | cons c rest ih =>
    obtain ⟨hs, hnext, hrest⟩ := h
    exact ⟨(hread c List.mem_cons_self).trans hs, hnext,
      ih hrest fun d hd => hread d (List.mem_cons_of_mem c hd)⟩

/-- The last segment is rewritten and more may follow it. -/
theorem Linked.relast (h : Linked heap (init ++ [(n, s)]))
    (hread : ∀ c ∈ init, heap'.read c.1 = heap.read c.1)
    (hlast : Linked heap' ((n, s') :: rest)) : Linked heap' (init ++ (n, s') :: rest) := by
  induction init with
  | nil => exact hlast
  | cons c init ih =>
    obtain ⟨hs, hnext, hrest⟩ := h
    refine ⟨(hread c List.mem_cons_self).trans hs, hnext.trans ?_,
      ih hrest fun d hd => hread d (List.mem_cons_of_mem c hd)⟩
    cases init <;> rfl

theorem Linked.read_mem (h : Linked heap segs) : ∀ c ∈ segs, heap.read c.1 = some c.2 := by
  induction segs with
  | nil => simp
  | cons c rest ih =>
    obtain ⟨hs, -, hrest⟩ := h
    intro d hd
    rcases List.mem_cons.mp hd with rfl | hd
    · exact hs
    · exact ih hrest d hd

theorem Linked.last_next (h : Linked heap (init ++ [(n, s)])) : s.next = none := by
  induction init with
  | nil => exact h.2.1
  | cons c init ih => exact ih h.2.2

theorem contents_length_le (segs : List (Nat × FifoSegment)) :
    (contents segs).length ≤ fifoElementsPerSegment * segs.length := by
  induction segs with
  | nil => simp [contents]
  | cons c rest ih =>
    have hc := c.2.values_length_le
    simp only [contents, List.flatMap_cons, List.length_append, List.length_cons,
      Nat.mul_succ] at ih ⊢
    omega

namespace Holds

/-- Memory holds fewer values than a word counts. -/
theorem contents_lt (h : Holds q heap segs) : (contents segs).length < 2 ^ 64 := by
  have hsegs := h.apart.length_le (by decide) h.nodup (by
    intro n hn
    obtain ⟨c, hc, rfl⟩ := List.mem_map.mp hn
    have hread := h.linked.read_mem c hc
    obtain ⟨b, hb, -⟩ := Option.map_eq_some_iff.mp hread
    simp [Blocks.address, hb])
  have hle := contents_length_le segs
  simp only [List.length_map, sizeofFifoSegment, fifoElementsPerSegment] at hsegs hle
  omega

theorem length_toNat (h : Holds q heap segs) : q.length.toNat = (contents segs).length := by
  rw [h.length, BitVec.toNat_ofNat]
  exact Nat.mod_eq_of_lt h.contents_lt

theorem length_eq_zero (h : Holds q heap segs) : q.length = 0 ↔ contents segs = [] := by
  rw [← List.length_eq_zero_iff, ← h.length_toNat]
  exact ⟨fun hq => by rw [hq]; rfl, fun hq => BitVec.eq_of_toNat_eq hq⟩

/-- In a queue that is not empty the first segment has a value to read. -/
theorem head_undrained (h : Holds q heap ((n, s) :: rest))
    (hne : contents ((n, s) :: rest) ≠ []) : s.index < s.count := by
  by_contra hlt
  obtain ⟨_, hindex, _⟩ := h.within (n, s) List.mem_cons_self
  cases rest with
  | nil =>
    apply hne
    simp [contents, FifoSegment.values_drained (Nat.le_of_not_lt hlt)]
  | cons c rest =>
    have hfull := h.full (n, s) (by simp)
    simp only at hfull hindex
    omega

theorem rest_ne (h : Holds q heap ((n, s) :: rest)) : ∀ c ∈ rest, c.1 ≠ n := by
  have hnodup := h.nodup
  rw [List.map_cons, List.nodup_cons] at hnodup
  intro c hc hcn
  exact hnodup.1 (List.mem_map.mpr ⟨c, hc, hcn⟩)

end Holds

theorem holds_new : Holds fifoNew Blocks.empty [] where
  linked := trivial
  nodup := .nil
  live := by simp [Blocks.read, Blocks.cell, Blocks.empty]
  head := rfl
  tail := rfl
  within := by simp
  full := by simp
  fresh := by simp
  apart := .empty _ _
  length := rfl

/-! ## Enqueueing -/

/-- The operation calls `yalloc`: there is no segment, or the last one is full. -/
def Grows (q : Fifo) (heap : Heap) : Prop :=
  q.head = none ∨ ∀ s ∈ deref heap q.tail, s.count = fifoElementsPerSegment

/-- A segment `yalloc` has just handed out, with its first value. -/
theorem zero_store (val : ULong) : ∃ s',
    FifoSegment.store { FifoSegment.zero with count := 1 } 0 val = some s' ∧ s'.index = 0 ∧
      s'.count = 1 ∧ s'.next = none ∧ s'.values = [val] := by
  obtain ⟨s', hs', hindex, hcount, hnext, hvalues⟩ :=
    FifoSegment.store_values (s := .zero) (Nat.le_refl 0) (by decide) val
  refine ⟨s', hs', hindex, hcount, hnext, ?_⟩
  rw [hvalues, FifoSegment.values_drained (Nat.le_refl 0)]
  rfl

theorem modify_eq_some {f : FifoSegment → Option FifoSegment} (hs : heap.read n = some s)
    (hf : f s = some s') : modify heap (some n) f = some (heap.write n s') :=
  Blocks.update_eq_some hs hf

theorem contents_append (segs rest : List (Nat × FifoSegment)) :
    contents (segs ++ rest) = contents segs ++ contents rest := List.flatMap_append

theorem contents_singleton : contents [(n, s)] = s.values := by simp [contents]

/-- The chain after a value was appended to the contents. -/
theorem Holds.length_append (h : Holds q heap segs) (val : ULong) :
    q.length + 1 = BitVec.ofNat 64 (contents segs ++ [val]).length := by
  rw [h.length, List.length_append, List.length_singleton, BitVec.ofNat_add]
  rfl

/-- The first segment of a queue without one. -/
theorem Holds.enqueue_first (h : Holds q heap [])
    (hroom : heap.Room sizeofFifoSegment (2 ^ 64) address) :
    ∃ q' heap' segs', fifoEnqueue q heap val address = some (q', heap') ∧
      Holds q' heap' segs' ∧ contents segs' = contents [] ++ [val] := by
  obtain ⟨s', hs', hindex, hcount, hnext, hvalues⟩ := zero_store val
  have hmod := modify_eq_some (n := heap.allocated)
    (f := fun s => FifoSegment.store { s with count := 1 } 0 val)
    (Blocks.read_alloc_self (h := heap) (a := address) (b := .zero)) hs'
  refine ⟨⟨q.length + 1, some heap.allocated, some heap.allocated⟩,
    (heap.alloc address .zero).write heap.allocated s', [(heap.allocated, s')], ?_, ?_, ?_⟩
  · simp only [fifoEnqueue, h.head, List.head?_nil, Option.map_none, hmod,
      Option.bind_eq_bind, Option.bind_some, Option.pure_def]
  · have hread : ∀ m, m ≠ heap.allocated →
        ((heap.alloc address .zero).write heap.allocated s').read m = heap.read m := by
      intro m hm
      rw [Blocks.read_write_of_ne hm, Blocks.read_alloc_of_ne hm]
    refine ⟨⟨Blocks.read_write_self Blocks.read_alloc_self, hnext, trivial⟩, by simp, ?_, rfl,
      rfl, ?_, by simp, by simp, (h.apart.alloc hroom).write, ?_⟩
    · intro m hm
      by_cases hne : m = heap.allocated
      · simp [hne]
      · rw [hread m hne] at hm
        cases h.live m hm
    · intro c hc
      obtain rfl := List.mem_singleton.mp hc
      rw [hindex, hcount]
      decide
    · rw [contents_singleton, hvalues]
      exact h.length_append val
  · rw [contents_singleton, hvalues]
    rfl

/-- The last segment, where the tail points. -/
theorem Holds.last (h : Holds q heap (init ++ [(n, s)])) : ∃ p, q.head = some p ∧
    q.tail = some n ∧ heap.read n = some s ∧ s.next = none := by
  have hhead : ∃ p, q.head = some p := by
    rw [h.head]
    cases init with
    | nil => exact ⟨n, rfl⟩
    | cons c init => exact ⟨c.1, rfl⟩
  obtain ⟨p, hp⟩ := hhead
  refine ⟨p, hp, ?_, h.linked.read_mem (n, s) (by simp), h.linked.last_next⟩
  rw [h.tail, List.getLast?_concat]
  rfl

/-- The chain after the last segment was rewritten and the new segments `rest` were put
behind it, with one more value in all. -/
theorem Holds.relast (h : Holds q heap (init ++ [(n, s)]))
    (hhead : q'.head = q.head) (hlength : q'.length = q.length + 1)
    (htail : q'.tail = ((n, s') :: rest).getLast?.map Prod.fst)
    (hread : ∀ m, m ≠ n → m ∉ rest.map Prod.fst → heap'.read m = heap.read m)
    (hlinked : Linked heap' ((n, s') :: rest)) (hnodup : (rest.map Prod.fst).Nodup)
    (hnew : ∀ m ∈ rest.map Prod.fst, heap.read m = none)
    (hwithin : ∀ c ∈ (n, s') :: rest, c.2.index ≤ c.2.count ∧
      c.2.index < fifoElementsPerSegment ∧ c.2.count ≤ fifoElementsPerSegment)
    (hfull : ∀ c ∈ ((n, s') :: rest).dropLast, c.2.count = fifoElementsPerSegment)
    (hindex : s'.index = s.index) (hfresh : ∀ c ∈ rest, c.2.index = 0)
    (hapart : heap'.Apart sizeofFifoSegment (2 ^ 64))
    (hvalues : contents ((n, s') :: rest) = s.values ++ [val]) :
    Holds q' heap' (init ++ (n, s') :: rest) ∧
      contents (init ++ (n, s') :: rest) = contents (init ++ [(n, s)]) ++ [val] := by
  have hcontents : contents (init ++ (n, s') :: rest) =
      contents (init ++ [(n, s)]) ++ [val] := by
    rw [contents_append, hvalues, contents_append, contents_singleton, List.append_assoc]
  have hmem := h.linked.read_mem
  have hold : ∀ c ∈ init ++ [(n, s)], c.1 ∉ rest.map Prod.fst := by
    intro c hc hm
    cases (hnew c.1 hm).symm.trans (hmem c hc)
  have hinit := h.nodup
  rw [List.map_append, List.nodup_append] at hinit
  have hne : ∀ c ∈ init, c.1 ≠ n := fun c hc =>
    hinit.2.2 c.1 (List.mem_map_of_mem hc) n (by simp)
  refine ⟨⟨?_, ?_, ?_, ?_, ?_, ?_, ?_, ?_, hapart, ?_⟩, hcontents⟩
  · refine h.linked.relast (fun c hc => ?_) hlinked
    exact hread c.1 (hne c hc) (hold c (by simp [hc]))
  · rw [List.map_append, List.map_cons, List.nodup_append, List.nodup_cons]
    refine ⟨hinit.1, ⟨hold (n, s) (by simp), hnodup⟩, ?_⟩
    intro a ha b hb
    obtain ⟨c, hc, rfl⟩ := List.mem_map.mp ha
    rcases List.mem_cons.mp hb with rfl | hb
    · exact hne c hc
    · rintro rfl
      exact hold c (by simp [hc]) hb
  · intro m hm
    by_cases hmn : m = n
    · simp [hmn]
    · by_cases hmr : m ∈ rest.map Prod.fst
      · rw [List.map_append, List.map_cons]
        exact List.mem_append_right _ (List.mem_cons_of_mem n hmr)
      · rw [hread m hmn hmr] at hm
        have hl := h.live m hm
        rw [List.map_append, List.mem_append, List.map_singleton, List.mem_singleton] at hl
        rw [List.map_append]
        exact List.mem_append_left _ (hl.resolve_right hmn)
  · rw [hhead, h.head]
    cases init <;> rfl
  · rw [htail, List.getLast?_append_of_ne_nil _ (by simp)]
  · intro c hc
    rcases List.mem_append.mp hc with hc | hc
    · exact h.within c (by simp [hc])
    · exact hwithin c hc
  · intro c hc
    rw [List.dropLast_append_of_ne_nil (by simp)] at hc
    rcases List.mem_append.mp hc with hc | hc
    · exact h.full c (by simpa using hc)
    · exact hfull c hc
  · intro c hc
    cases init with
    | nil => exact hfresh c hc
    | cons d init =>
      rw [List.cons_append, List.tail_cons] at hc
      rcases List.mem_append.mp hc with hc | hc
      · exact h.fresh c (by simp [hc])
      · rcases List.mem_cons.mp hc with rfl | hc
        · rw [hindex]
          exact h.fresh (n, s) (by simp)
        · exact hfresh c hc
  · rw [hcontents, hlength]
    exact h.length_append val

/-- A new segment behind a full last one. -/
theorem Holds.enqueue_full (h : Holds q heap (init ++ [(n, s)]))
    (hfull : s.count = fifoElementsPerSegment)
    (hroom : heap.Room sizeofFifoSegment (2 ^ 64) address) :
    ∃ q' heap' segs', fifoEnqueue q heap val address = some (q', heap') ∧
      Holds q' heap' segs' ∧ contents segs' = contents (init ++ [(n, s)]) ++ [val] := by
  obtain ⟨s', hs', hindex, hcount, hnext, hvalues⟩ := zero_store val
  obtain ⟨p, hhead, htail, hread, -⟩ := h.last
  let new := heap.allocated
  have hn : n ≠ new := Nat.ne_of_lt (Blocks.lt_allocated hread)
  let h₁ := heap.alloc address .zero
  let h₂ := h₁.write n { s with next := some new }
  let h₃ := h₂.write new s'
  have hread₁ : h₁.read n = some s := by rwa [Blocks.read_alloc_of_ne hn]
  have hread₂ : h₂.read n = some { s with next := some new } := Blocks.read_write_self hread₁
  have hzero : h₂.read new = some .zero := by
    rw [Blocks.read_write_of_ne hn.symm, Blocks.read_alloc_self]
  have hmod₂ : modify h₁ (some n) (fun s => some { s with next := some new }) = some h₂ :=
    modify_eq_some hread₁ rfl
  have hmod₃ : modify h₂ (some new)
      (fun s => FifoSegment.store { s with count := 1 } 0 val) = some h₃ :=
    modify_eq_some hzero hs'
  refine ⟨⟨q.length + 1, q.head, some new⟩, h₃,
    init ++ [(n, { s with next := some new }), (new, s')], ?_, ?_⟩
  · simp only [fifoEnqueue, hhead, htail, deref, Option.bind_some, hread, hfull, if_true,
      Option.bind_eq_bind, Option.pure_def]
    change (modify h₁ (some n) fun s => some { s with next := some new }).bind _ = _
    simp only [hmod₂, Option.bind_some, hread₂, hmod₃]
  · have hsame : ∀ m, m ≠ n → m ∉ [new] → h₃.read m = heap.read m := by
      intro m hm hmn
      have hmn' : m ≠ new := by simpa using hmn
      rw [Blocks.read_write_of_ne hmn', Blocks.read_write_of_ne hm,
        Blocks.read_alloc_of_ne hmn']
    have hwithin := h.within (n, s) (by simp)
    refine h.relast rfl rfl rfl hsame ⟨?_, rfl, Blocks.read_write_self hzero, hnext, trivial⟩
      (List.nodup_singleton new) ?_ ?_ ?_ rfl ?_ (h.apart.alloc hroom).write.write ?_
    · rw [Blocks.read_write_of_ne hn, hread₂]
    · intro m hm
      obtain rfl := List.mem_singleton.mp hm
      rw [Blocks.read, Blocks.cell_eq_none_of_le (Nat.le_refl _)]
      rfl
    · intro c hc
      rcases List.mem_pair.mp hc with rfl | rfl
      · exact hwithin
      · rw [hindex, hcount]
        decide
    · intro c hc
      obtain rfl : c = _ := List.mem_singleton.mp hc
      exact hfull
    · intro c hc
      obtain rfl : c = _ := List.mem_singleton.mp hc
      exact hindex
    · simp only [contents, List.flatMap_cons, hvalues, List.flatMap_nil, List.append_nil]
      rfl

/-- The last segment has room. -/
theorem Holds.enqueue_room (h : Holds q heap (init ++ [(n, s)]))
    (hfull : s.count ≠ fifoElementsPerSegment) :
    ∃ q' heap' segs', fifoEnqueue q heap val address = some (q', heap') ∧
      Holds q' heap' segs' ∧ contents segs' = contents (init ++ [(n, s)]) ++ [val] := by
  obtain ⟨p, hhead, htail, hread, hnext⟩ := h.last
  obtain ⟨hle, hlt, hcount⟩ := h.within (n, s) (by simp)
  have hlt' : s.count < fifoElementsPerSegment := Nat.lt_of_le_of_ne hcount hfull
  obtain ⟨s', hs', hindex', hcount', hnext', hvalues'⟩ := s.store_values hle hlt' val
  have hmod : modify heap (some n)
      (fun s => FifoSegment.store { s with count := s.count + 1 } s.count val) =
      some (heap.write n s') := modify_eq_some hread hs'
  refine ⟨⟨q.length + 1, q.head, some n⟩, heap.write n s', init ++ [(n, s')], ?_, ?_⟩
  · simp only [fifoEnqueue, hhead, htail, deref, Option.bind_some, hread, hfull, if_false,
      Option.bind_eq_bind, Option.pure_def, hmod]
  · refine h.relast rfl rfl rfl (fun m hm _ => Blocks.read_write_of_ne hm)
      ⟨Blocks.read_write_self hread, ?_, trivial⟩ .nil (by simp) ?_ (by simp) hindex'
      (by simp) h.apart.write ?_
    · rw [hnext', hnext]
      rfl
    · intro c hc
      obtain rfl : c = _ := List.mem_singleton.mp hc
      rw [hindex', hcount']
      exact ⟨Nat.le_succ_of_le hle, hlt, hlt'⟩
    · rw [contents_singleton, hvalues']

/-- Whatever chain the queue is, an enqueue appends to the contents. -/
theorem Holds.enqueue (h : Holds q heap segs) (val : ULong)
    (hroom : Grows q heap → heap.Room sizeofFifoSegment (2 ^ 64) address) :
    ∃ q' heap' segs', fifoEnqueue q heap val address = some (q', heap') ∧
      Holds q' heap' segs' ∧ contents segs' = Yarns.fifoEnqueue (contents segs) val := by
  rcases List.eq_nil_or_concat segs with rfl | ⟨init, ⟨n, s⟩, rfl⟩
  · exact h.enqueue_first (hroom (Or.inl h.head))
  · rw [List.concat_eq_append] at h ⊢
    obtain ⟨-, -, htail, hread, -⟩ := h.last
    by_cases hfull : s.count = fifoElementsPerSegment
    · refine h.enqueue_full hfull (hroom (Or.inr ?_))
      intro s' hs'
      rw [deref, htail, Option.bind_some, hread] at hs'
      obtain rfl := Option.some.inj hs'
      exact hfull
    · exact h.enqueue_room hfull

/-! ## Dequeueing -/

theorem Holds.dequeue_empty (h : Holds q heap segs) (hempty : contents segs = []) :
    fifoDequeue q heap = some (0, q, heap) := by
  rw [fifoDequeue, if_pos (h.length_eq_zero.mpr hempty)]

/-- The chain after its first segment was read from, while that segment has more to come. -/
theorem Holds.advance (h : Holds q heap ((n, s) :: rest)) (hlt : s.index < s.count)
    (hmore : s.index + 1 ≠ fifoElementsPerSegment) {vs : List ULong}
    (hvalues : contents ((n, { s with index := s.index + 1 }) :: rest) = vs)
    (hlength : q.length = BitVec.ofNat 64 vs.length + 1) :
    Holds { q with length := q.length - 1 } (heap.write n { s with index := s.index + 1 })
      ((n, { s with index := s.index + 1 }) :: rest) := by
  obtain ⟨hread, hnext, hrest⟩ := h.linked
  obtain ⟨_, hindex, hcount⟩ := h.within (n, s) List.mem_cons_self
  have hne := h.rest_ne
  refine ⟨⟨Blocks.read_write_self hread, hnext, hrest.congr fun c hc =>
    Blocks.read_write_of_ne (hne c hc)⟩, h.nodup, ?_, h.head, ?_, ?_, ?_, h.fresh,
    h.apart.write, ?_⟩
  · intro m hm
    by_cases hmn : m = n
    · simp [hmn]
    · exact h.live m (by rwa [Blocks.read_write_of_ne hmn] at hm)
  · rw [h.tail]
    cases rest <;> rfl
  · intro c hc
    rcases List.mem_cons.mp hc with rfl | hc
    · exact ⟨hlt, Nat.lt_of_le_of_ne hindex hmore, hcount⟩
    · exact h.within c (List.mem_cons_of_mem _ hc)
  · intro c hc
    cases rest with
    | nil => cases hc
    | cons d rest =>
      rcases List.mem_cons.mp hc with rfl | hc
      · exact h.full (n, s) (by simp)
      · exact h.full c (List.mem_cons_of_mem _ hc)
  · rw [hvalues, hlength]
    exact BitVec.add_sub_cancel _ _

/-- The chain after its first segment was drained and released. -/
theorem Holds.drop (h : Holds q heap ((n, s) :: rest)) (hheap : heap'.Apart sizeofFifoSegment
      (2 ^ 64)) (hread : ∀ m, heap'.read m = if m = n then none else heap.read m)
    (hlength : q.length = BitVec.ofNat 64 (contents rest).length + 1) :
    Holds ⟨q.length - 1, s.next, if s.next.isNone then none else q.tail⟩ heap' rest := by
  obtain ⟨_, hnext, hrest⟩ := h.linked
  have hne := h.rest_ne
  refine ⟨hrest.congr fun c hc => ?_, (List.nodup_cons.mp h.nodup).2, ?_, hnext, ?_, ?_, ?_, ?_,
    hheap, ?_⟩
  · rw [hread, if_neg (hne c hc)]
  · intro m hm
    rw [hread] at hm
    by_cases hmn : m = n
    · simp [hmn] at hm
    · rw [if_neg hmn] at hm
      exact (List.mem_cons.mp (h.live m hm)).resolve_left hmn
  · rw [hnext, h.tail]
    cases rest <;> simp
  · exact fun c hc => h.within c (List.mem_cons_of_mem _ hc)
  · intro c hc
    cases rest with
    | nil => cases hc
    | cons d rest => exact h.full c (List.mem_cons_of_mem _ hc)
  · exact fun c hc => h.fresh c (List.mem_of_mem_tail hc)
  · rw [hlength]
    exact BitVec.add_sub_cancel _ _

/-- What a dequeue does once the first segment and the value in it are known. -/
theorem fifoDequeue_eq (hne : q.length ≠ 0) (hhead : q.head = some n)
    (hread : heap.read n = some s) (hload : s.load s.index = some val) :
    fifoDequeue q heap =
      if s.index + 1 = fifoElementsPerSegment then
        ((heap.write n { s with index := s.index + 1 }).free n).map fun heap =>
          (val, ⟨q.length - 1, s.next, if s.next.isNone then none else q.tail⟩, heap)
      else some (val, { q with length := q.length - 1 },
        heap.write n { s with index := s.index + 1 }) := by
  have hmod : modify heap (some n) (fun s => some { s with index := s.index + 1 }) =
      some (heap.write n { s with index := s.index + 1 }) := modify_eq_some hread rfl
  have hread₁ := Blocks.read_write_self (b := { s with index := s.index + 1 }) hread
  rw [fifoDequeue, if_neg hne]
  simp only [hhead, deref, Option.bind_some, hread, hload, Option.bind_eq_bind,
    Option.pure_def, hmod, hread₁]
  by_cases hmore : s.index + 1 = fifoElementsPerSegment
  · rw [if_pos hmore, if_pos hmore]
    simp only [yfree, Option.bind_some]
    cases (heap.write n { s with index := s.index + 1 }).free n with
    | none => rfl
    | some heap₂ => cases hs : s.next <;> rfl
  · rw [if_neg hmore, if_neg hmore]

/-- A dequeue on a queue that is not empty takes the oldest value. -/
theorem Holds.dequeue (h : Holds q heap segs) {vs : List ULong}
    (hcontents : contents segs = val :: vs) :
    ∃ q' heap' segs', fifoDequeue q heap = some (val, q', heap') ∧
      Holds q' heap' segs' ∧ contents segs' = vs := by
  cases segs with
  | nil => cases hcontents
  | cons c rest =>
    obtain ⟨n, s⟩ := c
    have hlt := h.head_undrained (by rw [hcontents]; simp)
    obtain ⟨hread, -, -⟩ := h.linked
    obtain ⟨-, hindex, hcount⟩ := h.within (n, s) List.mem_cons_self
    have hlength : q.length = BitVec.ofNat 64 vs.length + 1 := by
      rw [h.length, hcontents, List.length_cons, BitVec.ofNat_add]
      rfl
    have hne : q.length ≠ 0 := by
      rw [Ne, h.length_eq_zero, hcontents]
      simp
    let s₁ := { s with index := s.index + 1 }
    have hcons : s.elements[s.index] :: contents ((n, s₁) :: rest) = val :: vs := by
      rw [← hcontents]
      simp only [contents, List.flatMap_cons, s.values_cons hlt hindex, List.cons_append, s₁]
    obtain ⟨hval, hvs⟩ := List.cons.inj hcons
    have hload : s.load s.index = some val := by
      rw [FifoSegment.load, Vector.getElem?_eq_getElem hindex, hval]
    rw [fifoDequeue_eq hne h.head hread hload]
    by_cases hmore : s.index + 1 = fifoElementsPerSegment
    · have hread₁ : (heap.write n s₁).read n = some s₁ := Blocks.read_write_self hread
      obtain ⟨heap₂, hfree, -, -, hcell⟩ := Blocks.free_eq_some hread₁
      have hread₂ : ∀ m, heap₂.read m = if m = n then none else heap.read m := by
        intro m
        rw [Blocks.read, hcell]
        split
        · rfl
        · rename_i hm
          exact Blocks.read_write_of_ne hm
      have hapart₁ : (heap.write n s₁).Apart sizeofFifoSegment (2 ^ 64) := h.apart.write
      have hapart : heap₂.Apart sizeofFifoSegment (2 ^ 64) := by
        refine hapart₁.of_address fun m a ha => ?_
        rw [Blocks.address, hcell] at ha
        split at ha
        · cases ha
        · exact ha
      have hdrained : s₁.values = [] := 
        FifoSegment.values_drained (Nat.le_trans hcount (Nat.le_of_eq hmore.symm))
      have hrest : contents rest = vs := by
        rw [← hvs]
        change contents rest = s₁.values ++ contents rest
        rw [hdrained, List.nil_append]
      refine ⟨_, heap₂, rest, ?_, h.drop hapart hread₂ (by rw [hrest]; exact hlength), hrest⟩
      rw [if_pos hmore, hfree, Option.map_some]
    · refine ⟨_, _, (n, s₁) :: rest, if_neg hmore, h.advance hlt hmore hvs hlength, hvs⟩

/-! ## Freeing the queue -/

/-- The loop of `fifo_free` releases the whole chain and nothing else. -/
theorem Linked.freeSegments (h : Linked heap segs) (hnodup : (segs.map Prod.fst).Nodup)
    {rounds : Nat} (hrounds : segs.length ≤ rounds) :
    ∃ heap', freeSegments heap rounds (segs.head?.map Prod.fst) = some heap' ∧
      heap'.allocated = heap.allocated ∧
      ∀ m, heap'.cell m = if m ∈ segs.map Prod.fst then none else heap.cell m := by
  induction segs generalizing heap rounds with
  | nil => exact ⟨heap, by cases rounds <;> rfl, rfl, fun m => by simp⟩
  | cons c rest ih =>
    obtain ⟨n, s⟩ := c
    obtain ⟨hread, hnext, hrest⟩ := h
    obtain ⟨hn, hnodup⟩ := List.nodup_cons.mp hnodup
    obtain ⟨rounds, rfl⟩ : ∃ r, rounds = r + 1 := Nat.exists_eq_succ_of_ne_zero (by
      rintro rfl
      simp at hrounds)
    obtain ⟨heap₁, hfree, -, halloc, hcell⟩ := Blocks.free_eq_some hread
    have hrest₁ : Linked heap₁ rest := hrest.congr fun c hc => by
      have hne : c.1 ≠ n := fun hcn => hn (List.mem_map.mpr ⟨c, hc, hcn⟩)
      rw [Blocks.read, hcell, if_neg hne, Blocks.read]
    obtain ⟨heap₂, hloop, halloc₂, hcell₂⟩ := ih hrest₁ hnodup (Nat.le_of_succ_le_succ hrounds)
    refine ⟨heap₂, ?_, halloc₂.trans halloc, fun m => ?_⟩
    · rw [List.head?_cons, Option.map_some, Segmented.freeSegments, hread, ← hloop, ← hnext]
      simp only [Option.bind_eq_bind, Option.bind_some, hfree]
    · rw [hcell₂, hcell, List.map_cons]
      by_cases hm : m ∈ rest.map Prod.fst
      · rw [if_pos hm, if_pos (List.mem_cons_of_mem n hm)]
      · rw [if_neg hm]
        by_cases hmn : m = n
        · rw [if_pos hmn, if_pos (List.mem_cons.mpr (Or.inl hmn))]
        · rw [if_neg hmn, if_neg (by rw [List.mem_cons]; exact not_or.mpr ⟨hmn, hm⟩)]

/-- `fifo_free` ends, and every segment handed out so far has then been released exactly
once. -/
theorem Holds.fifoFree (h : Holds q heap segs) : ∃ heap', fifoFree q heap = some heap' ∧
    heap'.freed.Perm (List.range heap.allocated) := by
  have hrounds : segs.length ≤ heap.allocated := by
    have hsub : segs.map Prod.fst ⊆ List.range heap.allocated := by
      intro n hn
      obtain ⟨c, hc, rfl⟩ := List.mem_map.mp hn
      exact List.mem_range.mpr (Blocks.lt_allocated (h.linked.read_mem c hc))
    have hlen := (h.nodup.subperm hsub).length_le
    rwa [List.length_map, List.length_range] at hlen
  obtain ⟨heap', hloop, halloc, hcell⟩ := h.linked.freeSegments h.nodup hrounds
  refine ⟨heap', by rw [Segmented.fifoFree, h.head, hloop], ?_⟩
  rw [← halloc]
  refine Blocks.freed_perm fun n => ?_
  rw [hcell]
  split
  · rfl
  · rename_i hn
    by_contra hcell'
    have hread : (heap.read n).isSome := by
      rw [Blocks.read, Option.isSome_map]
      exact Option.isSome_iff_ne_none.mpr hcell'
    exact hn (h.live n hread)

/-! ## Runs -/

inductive FifoOp
  /-- The value, and the address of the segment should `yalloc` be called. -/
  | enqueue (val : ULong) (address : Nat)
  | dequeue

structure Client where
  q : Fifo
  heap : Heap
  /-- What the dequeues have returned. -/
  out : List ULong

def start : Client := ⟨fifoNew, Blocks.empty, []⟩

def step (c : Client) : FifoOp → Option Client
  | .enqueue val address => (fifoEnqueue c.q c.heap val address).map fun r => ⟨r.1, r.2, c.out⟩
  | .dequeue => (fifoDequeue c.q c.heap).map fun r => ⟨r.2.1, r.2.2, c.out ++ [r.1]⟩

/-- The address handed out by `yalloc` is that of a free block. -/
def Supplied (c : Client) : FifoOp → Prop
  | .enqueue _ address =>
    Grows c.q c.heap → c.heap.Room sizeofFifoSegment (2 ^ 64) address
  | .dequeue => True

instance (c : Client) : ∀ op, Decidable (Supplied c op)
  | .enqueue _ _ => by unfold Supplied Grows; infer_instance
  | .dequeue => isTrue trivial

/-- The same operation on the list queue, with the same record of what was returned. -/
def listStep (p : Yarns.Fifo × List ULong) : FifoOp → Yarns.Fifo × List ULong
  | .enqueue val _ => (Yarns.fifoEnqueue p.1 val, p.2)
  | .dequeue => ((Yarns.fifoDequeue p.1).2, p.2 ++ [(Yarns.fifoDequeue p.1).1])

def listRun (ops : List FifoOp) : Yarns.Fifo × List ULong :=
  ops.foldl listStep (Yarns.fifoNew, [])

/-- The segmented queue is in the state of the list queue. -/
def Represents (c : Client) (p : Yarns.Fifo × List ULong) : Prop :=
  (∃ segs, Holds c.q c.heap segs ∧ contents segs = p.1) ∧ c.out = p.2

theorem represents_start : Represents start (Yarns.fifoNew, []) :=
  ⟨⟨[], holds_new, rfl⟩, rfl⟩

theorem represents_step {c : Client} {p : Yarns.Fifo × List ULong} {op : FifoOp}
    (h : Represents c p) (hop : Supplied c op) :
    ∃ c', step c op = some c' ∧ Represents c' (listStep p op) := by
  obtain ⟨⟨segs, hholds, hsegs⟩, hout⟩ := h
  cases op with
  | enqueue val address =>
    obtain ⟨q', heap', segs', heq, hholds', hsegs'⟩ := hholds.enqueue val hop
    refine ⟨⟨q', heap', c.out⟩, ?_, ⟨segs', hholds', ?_⟩, hout⟩
    · simp only [step, heq, Option.map_some]
    · rw [hsegs', hsegs]
      rfl
  | dequeue =>
    cases hp : p.1 with
    | nil =>
      have heq := hholds.dequeue_empty (hsegs.trans hp)
      refine ⟨⟨c.q, c.heap, c.out ++ [0]⟩, ?_, ⟨segs, hholds, ?_⟩, ?_⟩
      · simp only [step, heq, Option.map_some]
      · rw [hsegs, hp, listStep, hp]
        rfl
      · rw [hout, listStep, hp]
        rfl
    | cons val vs =>
      obtain ⟨q', heap', segs', heq, hholds', hsegs'⟩ := hholds.dequeue (hsegs.trans hp)
      refine ⟨⟨q', heap', c.out ++ [val]⟩, ?_, ⟨segs', hholds', ?_⟩, ?_⟩
      · simp only [step, heq, Option.map_some]
      · rw [hsegs', listStep, hp]
        rfl
      · rw [hout, listStep, hp]
        rfl

theorem represents_run {c : Client} {p : Yarns.Fifo × List ULong} {ops : List FifoOp}
    (h : Represents c p) (hops : Throughout step Supplied c ops) :
    ∃ c', run step c ops = some c' ∧ Represents c' (ops.foldl listStep p) := by
  induction ops generalizing c p with
  | nil => exact ⟨c, rfl, h⟩
  | cons op ops ih =>
    obtain ⟨hop, hrest⟩ := hops
    obtain ⟨c', hstep, hc'⟩ := represents_step h hop
    obtain ⟨c'', hrun, hc''⟩ := ih hc' (hrest c' hstep)
    exact ⟨c'', run_cons_iff.mpr ⟨c', hstep, hrun⟩, hc''⟩

/-- No run of operations on a new queue fails: it returns what the list queue returns, in
its end state `fifo_length` is the number of values still queued and a dequeue of none is
without effect, and `fifo_free` leaves every segment of the run released exactly once. -/
theorem segmented_refines_list (ops : List FifoOp) (hops : Throughout step Supplied start ops) :
    ∃ c, run step start ops = some c ∧ c.out = (listRun ops).2 ∧
      (fifoLength c.q).toNat = Yarns.fifoLength (listRun ops).1 ∧
      ((listRun ops).1 = [] → fifoDequeue c.q c.heap = some (0, c.q, c.heap)) ∧
      ∃ heap, fifoFree c.q c.heap = some heap ∧
        heap.freed.Perm (List.range c.heap.allocated) := by
  obtain ⟨c, hrun, ⟨segs, hholds, hsegs⟩, hout⟩ := represents_run represents_start hops
  refine ⟨c, hrun, hout, ?_, fun hempty => hholds.dequeue_empty (hsegs.trans hempty),
    hholds.fifoFree⟩
  rw [fifoLength, hholds.length_toNat, hsegs]
  rfl

/-- A segment that is drained, kept and written to again. -/
theorem segmented_refines_list_drained :
    ∃ c, run step start [.enqueue 7 4096, .dequeue, .dequeue, .enqueue 8 0] = some c ∧
      c.out = [7, 0] ∧ (fifoLength c.q).toNat = 1 ∧
      ∃ heap, fifoFree c.q c.heap = some heap ∧
        heap.freed.Perm (List.range c.heap.allocated) := by
  have hops : Throughout step Supplied start
      [.enqueue 7 4096, .dequeue, .dequeue, .enqueue 8 0] := by decide
  obtain ⟨c, hrun, hout, hlength, -, hfree⟩ := segmented_refines_list _ hops
  exact ⟨c, hrun, hout, hlength, hfree⟩

end Yarns.Segmented
