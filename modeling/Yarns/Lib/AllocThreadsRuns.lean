import Yarns.Base.Tally
import Yarns.Lib.AllocThreadsSteps

/-!
# Every interleaving of the allocator's callers

Any number of threads call `yalloc` and `yfree`. Each lock is held by one thread at most,
and the blocks of the callers, of the calls and of the book are apart in every state of
every interleaving (`Inv`). So no block is handed out twice, and what is handed out is
mapped and zero (`threads_heap_safe`). `big_lock` is taken before `little_lock` and never
after it: some call can always go on, and none that may go on fails
(`threads_progress`).
-/

namespace Yarns.AllocShared

open Base Alloc

variable {N : Nat}

abbrev Threads (N : Nat) := Parties AllocShared AllocPc (Fin N)

def start : Threads N := ⟨⟨yallocinit Alloc.init, fun _ => false, []⟩, fun _ => .idle⟩

def step : Threads N → Fin N × AllocAct → Option (Threads N) := Parties.step fun _ => act

/-- The blocks that the threads have. -/
def parts (f : AllocPc → List Block) (s : Threads N) : List Block :=
  contents fun i => f (s.locals i)

structure Inv (s : Threads N) : Prop where
  locked : Locked s.memory.locks fun i l => (s.locals i).holds l = true
  heap : Heap s.memory.alloc
    (parts AllocPc.little s ++ (smalls s.memory.live ++ chained s.memory.alloc.books))
    (parts AllocPc.big s ++ ranges s.memory.live)
  agrees : ∀ c ∈ parts AllocPc.big s ++ ranges s.memory.live, Agrees s.memory.alloc c
  listed : ∀ c ∈ ranges s.memory.live, Listed s.memory.alloc c
  ok : ∀ i, (s.locals i).Ok s.memory.alloc

variable {s t : Threads N} {m m' : AllocShared} {pc pc' : AllocPc} {i j : Fin N} {act : AllocAct}
  {page : ULong} {b c : Block}

/-! ## The locks -/

/-- What a step does to the locks. -/
inductive LockStep (m m' : AllocShared) (pc pc' : AllocPc) : Prop
  | keep : m'.locks = m.locks → (∀ l, pc'.holds l = pc.holds l) → LockStep m m' pc pc'
  | acquire (k : AllocLock) : m.locks k = false →
    m'.locks = Function.update m.locks k true →
    (∀ l, pc'.holds l = true ↔ pc.holds l = true ∨ l = k) → LockStep m m' pc pc'
  | release (k : AllocLock) : m'.locks = Function.update m.locks k false →
    (∀ l, pc.holds l = true ↔ l = k ∨ pc'.holds l = true) → pc'.holds k = false →
    LockStep m m' pc pc'

/-- A step of a call. -/
structure Effect (m m' : AllocShared) (pc pc' : AllocPc) : Prop where
  locks : LockStep m m' pc pc'
  live : m'.live = pc.returns ++ m.live
  work : pc'.work < pc.work

/-- A step inside a critical section, or outside. -/
theorem effect_keep (hlocks : m'.locks = m.locks) (hlive : m'.live = m.live)
    (hnone : pc.returns = []) (hbig : pc'.holds .big = pc.holds .big)
    (hlittle : pc'.holds .little = pc.holds .little) (hwork : pc'.work < pc.work) :
    Effect m m' pc pc' := by
  refine ⟨.keep hlocks fun l => ?_, by rw [hnone, hlive, List.nil_append], hwork⟩
  cases l
  · exact hbig
  · exact hlittle

theorem access_effect (ha : m.access page pc = some (m', pc')) : Effect m m' pc pc' := by
  cases pc with
  | idle => cases ha
  | insertLock b | eatLock b =>
    obtain ⟨hfree, rfl, rfl⟩ := lock_eq ha
    refine ⟨.acquire .big hfree rfl fun l => ?_, rfl, Nat.lt_succ_self _⟩
    cases l <;> simp [AllocPc.holds]
  | allocLock len k | freeLock c k =>
    obtain ⟨hfree, rfl, rfl⟩ := lock_eq ha
    refine ⟨.acquire .little hfree rfl fun l => ?_, rfl, Nat.lt_succ_self _⟩
    cases l <;> simp [AllocPc.holds]
  | insertHead b =>
    obtain ⟨rfl, rfl⟩ := Prod.mk.inj (Option.some.inj ha)
    split
    · exact effect_keep rfl rfl rfl rfl rfl (show 2 < 8 by omega)
    · exact effect_keep rfl rfl rfl rfl rfl (Nat.lt_succ_self _)
  | insertInline b | insertLink b n addr | eatUnlink b n r =>
    obtain ⟨rfl, rfl⟩ := Prod.mk.inj (Option.some.inj ha)
    exact effect_keep rfl rfl rfl rfl rfl (Nat.lt_succ_self _)
  | insertUnlock b | eatUnlock b len =>
    obtain ⟨rfl, rfl⟩ := Prod.mk.inj (Option.some.inj ha)
    refine ⟨.release .big rfl (fun l => ?_) rfl, rfl, Nat.lt_succ_self _⟩
    cases l <;> simp [AllocPc.holds]
  | allocPage len k =>
    obtain ⟨a, -, hret⟩ := Option.map_eq_some_iff.mp ha
    obtain ⟨rfl, rfl⟩ := Prod.mk.inj hret
    exact effect_keep rfl rfl rfl rfl rfl (Nat.lt_succ_self _)
  | allocRoom lpi len k =>
    obtain ⟨hd, -, ha⟩ := Option.bind_eq_some_iff.mp ha
    split at ha
    · obtain ⟨a, -, ha⟩ := Option.bind_eq_some_iff.mp ha
      obtain ⟨c, -, hret⟩ := Option.bind_eq_some_iff.mp ha
      obtain ⟨rfl, rfl⟩ := Prod.mk.inj (Option.some.inj hret)
      exact effect_keep rfl rfl rfl rfl rfl (Nat.lt_succ_self _)
    · obtain ⟨rfl, rfl⟩ := Prod.mk.inj (Option.some.inj ha)
      exact effect_keep rfl rfl rfl rfl rfl (Nat.lt_succ_self _)
  | allocCarve lpi len k =>
    obtain ⟨hd, -, hret⟩ := Option.map_eq_some_iff.mp ha
    obtain ⟨rfl, rfl⟩ := Prod.mk.inj hret
    exact effect_keep rfl rfl rfl rfl rfl (Nat.lt_succ_self _)
  | allocUnlock c k =>
    obtain ⟨rfl, rfl⟩ := Prod.mk.inj (Option.some.inj ha)
    cases k <;> refine ⟨.release .little rfl (fun l => ?_) rfl, rfl, Nat.lt_succ_self _⟩ <;>
      cases l <;> simp [AllocPc.holds, AllocCaller.holdsBig]
  | eatFind b =>
    simp only [access] at ha
    split at ha
    · obtain ⟨rfl, rfl⟩ := Prod.mk.inj (Option.some.inj ha)
      exact effect_keep rfl rfl rfl rfl rfl (show 2 < 8 by omega)
    · obtain ⟨r, -, hret⟩ := Option.map_eq_some_iff.mp ha
      obtain ⟨rfl, rfl⟩ := Prod.mk.inj hret
      exact effect_keep rfl rfl rfl rfl rfl (Nat.lt_succ_self _)
  | freeDrop c k =>
    obtain ⟨hd, -, hret⟩ := Option.map_eq_some_iff.mp ha
    obtain ⟨rfl, rfl⟩ := Prod.mk.inj hret
    split
    · exact effect_keep rfl rfl rfl rfl rfl (Nat.lt_succ_self _)
    · exact effect_keep rfl rfl rfl rfl rfl (Nat.lt_add_of_pos_right Nat.two_pos)
  | freeEmpty lpi k =>
    simp only [access] at ha
    split at ha
    · obtain ⟨rfl, rfl⟩ := Prod.mk.inj (Option.some.inj ha)
      exact effect_keep rfl rfl rfl rfl rfl (Nat.lt_succ_self _)
    · obtain ⟨a, -, hret⟩ := Option.map_eq_some_iff.mp ha
      obtain ⟨rfl, rfl⟩ := Prod.mk.inj hret
      exact effect_keep rfl rfl rfl rfl rfl (Nat.lt_succ_self _)
  | freeUnlock k =>
    obtain ⟨rfl, rfl⟩ := Prod.mk.inj (Option.some.inj ha)
    cases k <;> refine ⟨.release .little rfl (fun l => ?_) rfl, rfl, Nat.lt_succ_self _⟩ <;>
      cases l <;> simp [AllocPc.holds, FreeCaller.holdsBig, freeReturn]
  | unmap b len =>
    obtain ⟨a, -, hret⟩ := Option.map_eq_some_iff.mp ha
    obtain ⟨rfl, rfl⟩ := Prod.mk.inj hret
    exact effect_keep rfl rfl rfl rfl rfl Nat.zero_lt_one

/-- A thread that begins a call, or writes. -/
theorem call_effect (ha : m.act pc act = some (m', pc')) (hcall : ∀ page, act ≠ .go page) :
    LockStep m m' pc pc' ∧ m'.live.length ≤ m.live.length ∧
      pc'.work ≤ pc.work + if act.calls then 9 else 0 := by
  have hkeep : ∀ {pc₁ : AllocPc}, pc₁.holds .big = false → pc₁.holds .little = false →
      m'.locks = m.locks → LockStep m m' .idle pc₁ := by
    intro pc₁ hbig hlittle hlocks
    refine .keep hlocks fun l => ?_
    cases l
    · exact hbig
    · exact hlittle
  cases act with
  | go page => exact absurd rfl (hcall page)
  | yalloc len addr =>
    cases pc with
    | idle =>
      simp only [AllocShared.act] at ha
      split at ha
      · obtain ⟨a, -, hret⟩ := Option.map_eq_some_iff.mp ha
        obtain ⟨rfl, rfl⟩ := Prod.mk.inj hret
        exact ⟨hkeep rfl rfl rfl, Nat.le_refl _, Nat.le_refl 9⟩
      · obtain ⟨rfl, rfl⟩ := Prod.mk.inj (Option.some.inj ha)
        exact ⟨hkeep rfl rfl rfl, Nat.le_refl _, Nat.le_add_right 5 4⟩
    | _ => cases ha
  | yfree ptr =>
    cases pc with
    | idle =>
      obtain ⟨b, -, hret⟩ := Option.map_eq_some_iff.mp ha
      obtain ⟨rfl, rfl⟩ := Prod.mk.inj hret
      have hlen := List.length_eraseP_le (p := fun b : Block => b.ptr = ptr) (l := m.live)
      split
      · exact ⟨hkeep rfl rfl rfl, hlen, Nat.le_add_right 4 5⟩
      · exact ⟨hkeep rfl rfl rfl, hlen, Nat.le_refl 9⟩
    | _ => cases ha
  | write x v =>
    cases pc with
    | idle =>
      simp only [AllocShared.act] at ha
      split at ha
      · obtain ⟨rfl, rfl⟩ := Prod.mk.inj (Option.some.inj ha)
        exact ⟨hkeep rfl rfl rfl, Nat.le_refl _, Nat.zero_le _⟩
      · cases ha
    | _ => cases ha

theorem act_go (ha : m.act pc (.go page) = some (m', pc')) :
    m.access page pc = some (m', pc') := by
  cases pc <;> exact ha

theorem act_locks (ha : m.act pc act = some (m', pc')) : LockStep m m' pc pc' := by
  cases act with
  | go page => exact (access_effect (act_go ha)).locks
  | _ => exact (call_effect ha fun _ => AllocAct.noConfusion).1

theorem locked_step (h : Locked s.memory.locks fun i l => (s.locals i).holds l = true)
    (hl : LockStep s.memory m' (s.locals i) pc') :
    Locked m'.locks fun j l => (Function.update s.locals i pc' j).holds l = true := by
  have hother : ∀ c, c ≠ i → ∀ l, (Function.update s.locals i pc' c).holds l = true ↔
      (s.locals c).holds l = true := by
    intro c hc l
    rw [Function.update_of_ne hc]
  cases hl with
  | keep hlocks hholds =>
    rw [hlocks]
    refine h.congr fun c l => ?_
    by_cases hc : c = i
    · subst hc
      rw [Function.update_self, hholds]
    · exact hother c hc l
  | acquire k hfree hlocks hholds =>
    rw [hlocks]
    refine h.acquire (i := i) hfree hother fun l => ?_
    rw [Function.update_self]
    exact hholds l
  | release k hlocks hholds hnot =>
    rw [hlocks]
    refine h.release (i := i) hother (fun l => ?_) ?_
    · rw [Function.update_self]
      exact hholds l
    · rw [Function.update_self, hnot]
      exact Bool.false_ne_true

/-! ## One thread and the others -/

/-- What thread `i` has, and what the others have whatever it does. -/
theorem parts_update (f : AllocPc → List Block) (hidle : f .idle = []) (s : Threads N)
    (i : Fin N) : ∃ rest, (∀ m pc, (parts f ⟨m, Function.update s.locals i pc⟩).Perm
      (f pc ++ rest)) ∧ ∀ j, j ≠ i → ∀ c ∈ f (s.locals j), c ∈ rest := by
  obtain ⟨rest, hrest⟩ := contents_update (fun j => f (s.locals j)) i
  have hperm : ∀ m pc, (parts f ⟨m, Function.update s.locals i pc⟩).Perm (f pc ++ rest) := by
    intro m pc
    refine List.Perm.trans (List.Perm.of_eq (congrArg contents ?_)) (hrest (f pc))
    exact Function.comp_update f s.locals i pc
  refine ⟨rest, hperm, fun j hj c hc => ?_⟩
  have hmem := (hperm s.memory .idle).subset (mem_contents.mpr
    ⟨j, show c ∈ f (Function.update s.locals i .idle j) by rwa [Function.update_of_ne hj]⟩)
  rwa [hidle] at hmem

theorem contents_none {α : Type} : contents (fun _ : Fin N => ([] : List α)) = [] :=
  List.eq_nil_iff_forall_not_mem.mpr fun x hx => by
    obtain ⟨i, hi⟩ := mem_contents.mp hx
    cases hi

theorem start_inv : Inv (start : Threads N) where
  locked := by
    refine ⟨fun _ l h => ?_, fun _ h => (nomatch h), fun _ _ l h => ?_⟩ <;> cases l <;> cases h
  heap := by
    have hl : parts AllocPc.little (start : Threads N) = [] := contents_none
    have hb : parts AllocPc.big (start : Threads N) = [] := contents_none
    have hc : chained (start : Threads N).memory.alloc.books = [] := contents_none
    rw [hl, hb, hc]
    exact heap_init.setBooks _ _
  agrees := by
    have hb : parts AllocPc.big (start : Threads N) = [] := contents_none
    rw [hb]
    exact fun _ h => nomatch h
  listed := fun _ h => nomatch h
  ok := fun _ => trivial

theorem append_perm {x l o : List Block} (h : x.Perm (l ++ o)) (r : List Block) :
    (x ++ r).Perm (l ++ (o ++ r)) := by
  rw [← List.append_assoc]
  exact h.append_right r

theorem Inv.fits (h : Inv s) (i : Fin N) {L B : List Block}
    (hL : ∀ pc, (parts AllocPc.little ⟨s.memory, Function.update s.locals i pc⟩).Perm
      (pc.little ++ L))
    (hB : ∀ pc, (parts AllocPc.big ⟨s.memory, Function.update s.locals i pc⟩).Perm
      (pc.big ++ B)) : Fits s.memory (s.locals i) L B := by
  have hl := hL (s.locals i)
  have hb := hB (s.locals i)
  rw [Function.update_eq_self] at hl hb
  exact ⟨h.heap.perm (append_perm hl _) (append_perm hb _),
    fun c hc => h.agrees c ((append_perm hb _).mem_iff.mpr hc), h.listed, h.ok i⟩

/-- A step that callers may take keeps all blocks apart. -/
theorem step_inv {p : Fin N × AllocAct} (h : Inv s) (hreg : p.2.Regular s.memory.alloc)
    (hs : step s p = some t) : Inv t := by
  obtain ⟨i, act⟩ := p
  obtain ⟨m, pc, hact, rfl⟩ := Parties.step_cases hs
  obtain ⟨L, hL, hLmem⟩ := parts_update AllocPc.little rfl s i
  obtain ⟨B, hB, hBmem⟩ := parts_update AllocPc.big rfl s i
  have hfits := h.fits i (hL s.memory) (hB s.memory)
  obtain ⟨hfits', hframe⟩ := act_fits hfits hreg hact
  have hlocks := locked_step h.locked (act_locks hact)
  refine ⟨hlocks, ?_, fun c hc => ?_, hfits'.listed, fun j => ?_⟩
  · exact hfits'.heap.perm (append_perm (hL m pc) _).symm (append_perm (hB m pc) _).symm
  · exact hfits'.agrees c ((append_perm (hB m pc) _).subset hc)
  · by_cases hj : j = i
    · subst hj
      dsimp only
      rw [Function.update_self]
      exact hfits'.ok
    · dsimp only
      rw [Function.update_of_ne hj]
      -- the data of a lock that `j` holds are not touched
      have hfree : ∀ l, (s.locals j).holds l = true → (s.locals i).holds l = false := by
        intro l hl
        refine Bool.eq_false_iff.mpr fun hi => hj (h.locked.unique j i l hl hi)
      refine (h.ok j).frame (fun hl => hframe.pages (hfree .little hl))
        (fun hl => hframe.books (hfree .big hl)) (fun c hc => hframe.listed c (hBmem j hj c hc))
        fun c hc => hframe.zero c ?_
      exact (List.mem_append.mp hc).elim (fun hc => List.mem_append_left _ (hLmem j hj c hc))
        fun hc => List.mem_append_right _ (hBmem j hj c hc)

/-! ## What is handed out -/

/-- A block that a step hands out is zero. -/
theorem zero_handed_out (hok : pc.Ok m.alloc) (ha : m.act pc act = some (m', pc'))
    (hlive : m'.live = b :: m.live) : Zero m'.alloc b := by
  cases act with
  | go page =>
    have hgo := act_go ha
    have hret : pc.returns = [b] := by
      have hcons := (access_effect hgo).live.symm.trans hlive
      rw [← List.singleton_append] at hcons
      exact List.append_cancel_right hcons
    cases pc with
    | insertUnlock c =>
      obtain rfl := List.singleton_inj.mp hret
      obtain ⟨rfl, -⟩ := Prod.mk.inj (Option.some.inj hgo)
      exact hok.1
    | allocUnlock c k =>
      cases k with
      | yalloc =>
        obtain rfl := List.singleton_inj.mp hret
        obtain ⟨rfl, -⟩ := Prod.mk.inj (Option.some.inj hgo)
        exact hok.2
      | insert c n => cases hret
    | _ => cases hret
  | _ =>
    have hlen := (call_effect ha fun _ => AllocAct.noConfusion).2.1
    rw [hlive, List.length_cons] at hlen
    omega

/-- The callers keep to their part in every step. -/
def Regular (s : Threads N) (p : Fin N × AllocAct) (_ : Threads N) : Prop :=
  p.2.Regular s.memory.alloc

/-- The blocks of the callers are apart and mapped, and one that was handed out just now is
zero. -/
structure Safe (s t : Threads N) : Prop where
  apart : t.memory.live.Pairwise Block.Apart
  mapped : ∀ b ∈ t.memory.live, ∀ x, b.Mem x →
    t.memory.alloc.mapped (x.toNat / 4096) = true
  zero : ∀ b, t.memory.live = b :: s.memory.live → ∀ x, b.Mem x → t.memory.alloc.bytes x = 0

theorem live_perm (live : List Block) : (smalls live ++ ranges live).Perm live := by
  have hsame : live.filter (fun b => !decide (b.len.toNat ≤ 2048)) = ranges live :=
    List.filter_congr fun b _ => by simp [← decide_not]
  rw [← hsame]
  exact List.filter_append_perm _ live

theorem Inv.live_apart (h : Inv s) : s.memory.live.Pairwise Block.Apart := by
  refine List.Pairwise.perm ?_ (live_perm s.memory.live) Block.Apart.symm
  refine h.heap.all_apart.sublist (List.Sublist.append ?_ (List.sublist_append_right _ _))
  exact (List.sublist_append_left _ _).trans (List.sublist_append_right _ _)

theorem Inv.live_mapped (h : Inv s) (hb : b ∈ s.memory.live) {x : ULong} (hx : b.Mem x) :
    s.memory.alloc.mapped (x.toNat / 4096) = true := by
  refine h.heap.all_mapped (List.mem_append.mpr ?_) hx
  refine (mem_parts hb).imp (fun hb => ?_) fun hb => List.mem_append_right _ hb
  exact List.mem_append_right _ (List.mem_append_left _ hb)

theorem step_safe {p : Fin N × AllocAct} (h : Inv s) (hreg : p.2.Regular s.memory.alloc)
    (hs : step s p = some t) : Safe s t := by
  have ht := step_inv h hreg hs
  refine ⟨ht.live_apart, fun b hb x hx => ht.live_mapped hb hx, fun b hlive x hx => ?_⟩
  obtain ⟨m, pc, hact, rfl⟩ := Parties.step_cases hs
  exact zero_handed_out (h.ok p.1) hact hlive x hx

/-- In every interleaving of any number of threads the allocator keeps the blocks of the
callers apart and mapped, and hands out zeroed blocks. -/
theorem threads_heap_safe (N : Nat) (as : List (Fin N × AllocAct))
    (hreg : Along step Regular start as) : Along step (fun s _ t => Safe s t) start as :=
  along_of_invariant start_inv
    (fun _ _ _ h hr hs => ⟨step_inv h hr hs, step_safe h hr hs⟩) hreg

/-! ## Calls go on -/

theorem getLittlePage_isSome {a : Alloc} {little big : List Block} (h : Heap a little big)
    (hf : a.Fresh page littlePagesSize) : (getLittlePage page a).isSome := by
  rcases h.getLittlePage_cases page with ⟨-, hget⟩ | hget
  · rw [hget]
    rfl
  · rw [hget, littlePageAllocate, pageAllocate, if_pos ⟨by decide, hf⟩]
    rfl

/-- A thread that does not wait for a lock goes on, if the system has a page. -/
theorem access_isSome {L B : List Block} (h : Fits m pc L B) (hne : pc ≠ .idle)
    (hfree : ∀ l, pc.waits = some l → m.locks l = false)
    (hf : m.alloc.Fresh page littlePagesSize) : (m.access page pc).isSome := by
  have hlock : ∀ l pc₁, m.locks l = false → (m.lock l pc₁).isSome := by
    intro l pc₁ hl
    rw [AllocShared.lock, hl]
    rfl
  cases pc with
  | idle => exact absurd rfl hne
  | insertLock b | eatLock b | allocLock len k | freeLock c k => exact hlock _ _ (hfree _ rfl)
  | insertHead b | insertInline b | insertLink b n addr | insertUnlock b | allocUnlock c k
  | eatUnlink b n r | eatUnlock b len | freeUnlock k => rfl
  | allocPage len k =>
    rw [access, Option.isSome_map]
    exact getLittlePage_isSome h.heap hf
  | allocRoom lpi len k =>
    obtain ⟨hk, rfl, hsome⟩ := h.ok
    obtain ⟨hd, hhd⟩ := Option.isSome_iff_exists.mp hsome
    rw [access, hhd]
    show Option.isSome (if hd.remainingLen < len then _ else _)
    split
    · obtain ⟨a, ha⟩ : ∃ a, littlePageAllocate page m.alloc = some a := by
        rw [littlePageAllocate, pageAllocate, if_pos ⟨by decide, hf⟩]
        exact ⟨_, rfl⟩
      obtain ⟨hready, -⟩ := littlePageAllocate_ready h.heap ha hk.bound.2
      rw [ha]
      show ((getLittlePage page a).bind _).isSome
      rw [hready]
      rfl
    · rfl
  | allocCarve lpi len k =>
    obtain ⟨-, rfl, hd, hhd, -⟩ := h.ok
    rw [access, hhd]
    rfl
  | eatFind b =>
    rw [access]
    dsimp only
    split
    · rfl
    next hin =>
      have hmem := (List.mem_append.mp h.ok).resolve_left fun hinline => by
        split at hinline
        · cases hinline
        · exact hin (congrArg Block.ptr (List.mem_singleton.mp hinline)).symm
      obtain ⟨r, hr, hrb⟩ := List.mem_map.mp hmem
      have hlt := List.findIdx_lt_length_of_exists (p := fun r : BigallocBook => r.lptr = b.ptr)
        ⟨r, hr, by simpa using congrArg Block.ptr hrb⟩
      rw [Option.isSome_map, List.getElem?_eq_getElem hlt]
      rfl
  | freeDrop c k =>
    rw [access, Option.isSome_map]
    exact h.heap.home c List.mem_cons_self
  | freeEmpty lpi k =>
    obtain ⟨-, hd, hhd, -⟩ := h.ok
    rw [access]
    split
    · rfl
    · rw [Option.isSome_map, pageDeallocate, if_pos ⟨(h.heap.page lpi hd hhd).ne_zero, rfl⟩]
      rfl
  | unmap b len =>
    obtain rfl : len = b.len := h.ok
    obtain ⟨a, ha, -⟩ := h.heap.pageDeallocate
    rw [access, ha]
    rfl

/-- A call that does not wait for a taken lock goes on. -/
theorem Inv.goes_on (h : Inv s) (hf : s.memory.alloc.Fresh page littlePagesSize)
    (hne : s.locals i ≠ .idle)
    (hfree : ∀ l, (s.locals i).waits = some l → s.memory.locks l = false) :
    (step s (i, .go page)).isSome := by
  obtain ⟨L, hL, -⟩ := parts_update AllocPc.little rfl s i
  obtain ⟨B, hB, -⟩ := parts_update AllocPc.big rfl s i
  have hsome := access_isSome (h.fits i (hL s.memory) (hB s.memory)) hne hfree hf
  rw [step, Parties.step, Option.isSome_map]
  cases hpc : s.locals i with
  | idle => exact absurd hpc hne
  | _ =>
    rw [hpc] at hsome
    exact hsome

theorem waits_of_holds_little (h : pc.holds .little = true) : pc ≠ .idle ∧ pc.waits = none := by
  cases pc with
  | allocPage | allocRoom | allocCarve | allocUnlock | freeDrop | freeEmpty | freeUnlock =>
    exact ⟨AllocPc.noConfusion, rfl⟩
  | _ => cases h

/-- Who holds `big_lock` waits for `little_lock` only. -/
theorem waits_of_holds_big (h : pc.holds .big = true) :
    pc ≠ .idle ∧ ∀ l, pc.waits = some l → l = .little := by
  cases pc with
  | idle | insertLock | eatLock | unmap => cases h
  | _ => exact ⟨AllocPc.noConfusion, fun l hl => by cases hl; try rfl⟩

/-- Of the calls that are being made, one can go on. -/
theorem Inv.some_goes_on (h : Inv s) (hf : s.memory.alloc.Fresh page littlePagesSize)
    (hne : s.locals i ≠ .idle) : ∃ j, s.locals j ≠ .idle ∧ (step s (j, .go page)).isSome := by
  cases hlittle : s.memory.locks .little with
  | true =>
    obtain ⟨j, hj⟩ := h.locked.held .little hlittle
    obtain ⟨hbusy, hw⟩ := waits_of_holds_little hj
    refine ⟨j, hbusy, h.goes_on hf hbusy fun l hl => ?_⟩
    rw [hw] at hl
    cases hl
  | false =>
    cases hbig : s.memory.locks .big with
    | true =>
      obtain ⟨j, hj⟩ := h.locked.held .big hbig
      obtain ⟨hbusy, hw⟩ := waits_of_holds_big hj
      exact ⟨j, hbusy, h.goes_on hf hbusy fun l hl => hw l hl ▸ hlittle⟩
    | false =>
      refine ⟨i, hne, h.goes_on hf hne fun l _ => ?_⟩
      cases l
      · exact hbig
      · exact hlittle

/-- The steps that the calls still have to make. -/
def work (s : Threads N) : Nat := ∑ i, (s.locals i).work

theorem step_work {p : Fin N × AllocAct} (hs : step s p = some t) :
    work t + (if p.2.goes then 1 else 0) ≤ work s + if p.2.calls then 9 else 0 := by
  obtain ⟨i, act⟩ := p
  obtain ⟨m, pc, hact, rfl⟩ := Parties.step_cases hs
  have hsum := sum_update s.locals i pc AllocPc.work
  have hwork : pc.work + (if act.goes then 1 else 0) ≤
      (s.locals i).work + if act.calls then 9 else 0 := by
    cases act with
    | go page => exact (access_effect (act_go hact)).work
    | _ => exact (call_effect hact fun _ => AllocAct.noConfusion).2.2
  rw [work, work]
  dsimp only
  omega

/-- In every interleaving no call fails, and there is no deadlock: a call that does not
wait for a taken lock can go on if the system has a page, and of the calls that are being
made one can. No call goes on forever: it makes nine more steps at most. -/
theorem threads_progress (N : Nat) (as : List (Fin N × AllocAct)) (s : Threads N)
    (hreg : Along step Regular start as) (hs : run step start as = some s) :
    (∀ page, s.memory.alloc.Fresh page littlePagesSize → ∀ i, s.locals i ≠ .idle →
      ((∀ l, (s.locals i).waits = some l → s.memory.locks l = false) →
        (step s (i, .go page)).isSome) ∧
      ∃ j, s.locals j ≠ .idle ∧ (step s (j, .go page)).isSome) ∧
    as.countP (·.2.goes) ≤ 9 * as.countP (·.2.calls) := by
  have h : Inv s := by
    refine run_invariant start_inv ?_ hreg hs
    exact fun _ _ _ h hr hs => step_inv h hr hs
  refine ⟨fun page hf i hne => ⟨h.goes_on hf hne, h.some_goes_on hf hne⟩, ?_⟩
  have hle := run_work_le (fun _ _ _ hs => step_work hs) hs
  have hzero : work (start : Threads N) = 0 := Finset.sum_eq_zero fun _ _ => rfl
  omega

/-- The second thread asks for a big block and gives it back while the first is inside the
little allocator; the third waits for `little_lock`. -/
def threeThreads : List (Fin 4 × AllocAct) :=
  [(0, .yalloc 100 0), (0, .go 4096), (1, .yalloc 5000 8192), (0, .go 4096),
    (2, .yalloc 16 0), (1, .go 0), (0, .go 0), (1, .go 0), (0, .go 0), (1, .go 0),
    (1, .go 0), (1, .yfree 8192)]

theorem threeThreads_regular : Along step Regular start threeThreads := by
  refine along_cons rfl ⟨by decide, fun h => absurd h (by decide)⟩ ?_
  refine along_cons rfl trivial ?_
  refine along_cons rfl ⟨by decide, fun _ e he => ?_⟩ ?_
  · -- the book is empty
    have hnone : e ∈ ([] : List Block) := he
    cases hnone
  refine along_of_forall_mem ?_
  simp only [List.forall_mem_cons]
  exact ⟨fun _ _ => trivial, fun _ _ => ⟨by decide, fun h => absurd h (by decide)⟩,
    fun _ _ => trivial, fun _ _ => trivial, fun _ _ => trivial, fun _ _ => trivial,
    fun _ _ => trivial, fun _ _ => trivial, fun _ _ => trivial, nofun⟩

/-- The block of the first thread is carved and not yet handed out. -/
theorem threads_heap_safe_threeThreads :
    Along step (fun s _ t => Safe s t) start threeThreads ∧
      (run step start threeThreads).map (fun s => s.locals 0) =
        some (.allocUnlock ⟨4120, 100⟩ .yalloc) :=
  ⟨threads_heap_safe 4 threeThreads threeThreads_regular, by decide +kernel⟩

/-- The second thread is about to take `big_lock`, and can. -/
theorem threads_progress_threeThreads :
    ∃ s, run step start threeThreads = some s ∧ s.locals 1 = .eatLock ⟨8192, 8192⟩ ∧
      ∃ j, s.locals j ≠ .idle ∧ (step s (j, .go 16384)).isSome := by
  have hrun : (run step start threeThreads).map (fun s =>
      (s.locals 1, decide (s.memory.alloc.Fresh 16384 littlePagesSize))) =
      some (.eatLock ⟨8192, 8192⟩, true) := by decide +kernel
  obtain ⟨s, hs, hobs⟩ := Option.map_eq_some_iff.mp hrun
  obtain ⟨hpc, hfresh⟩ := Prod.mk.inj hobs
  obtain ⟨hgo, -⟩ := threads_progress 4 threeThreads s threeThreads_regular hs
  exact ⟨s, hs, hpc, (hgo 16384 (of_decide_eq_true hfresh) 1 (by rw [hpc]; decide)).2⟩

end Yarns.AllocShared
