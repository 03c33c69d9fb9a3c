import Mathlib.Data.Fintype.Basic
import Yarns.Sys.Coroutines

/-!
# Runs of coroutines

In every run of the machine in which the routines are used as they should be, a coroutine
that is switched to goes on behind its last `gctx`, on whatever core, with the stack it left
(`switch_back`), and one that was made by `yarn_context_make` calls its routine with its
argument on an aligned stack (`first_switch`).
-/

namespace Yarns

open Base

namespace Context

variable {κ ι : Type} {lay : Layout ι} {w w' : World κ ι} {c : Coroutines κ ι} {i : ι} {k : κ}

/-- The step stores a frame in the context of `i`. -/
def Switch.Fills (i : ι) : Switch κ ι → Prop
  | .gctx _ j => j = i
  | .make _ j _ _ => j = i
  | _ => False

/-- The step switches to `i`. -/
def Switch.Enters (i : ι) : Switch κ ι → Prop
  | .sctx _ j => j = i
  | _ => False

/-- Core `k` switches. -/
def Switch.Leaves (k : κ) : Switch κ ι → Prop
  | .sctx d _ => d = k
  | _ => False

variable [DecidableEq ι]

theorem Coroutines.writes_stacks (c : Coroutines κ ι) (writes : List (Word32 × BitVec 8))
    (hi : c.control.current k ≠ i) :
    (writes.foldl (Coroutines.writeByte lay k) c).stackBytes i = c.stackBytes i := by
  induction writes generalizing c with
  | nil => rfl
  | cons p writes ih =>
    have hcontrol : (c.writeByte lay k p).control = c.control := writeByte_control c p
    rw [List.foldl_cons, ih _ (by rw [hcontrol]; exact hi), Coroutines.writeByte]
    split
    · exact Function.update_of_ne hi.symm ..
    · rfl

variable [DecidableEq κ]

def RegularRun (lay : Layout ι) : World κ ι → List (Switch κ ι) → Prop :=
  Along (World.step lay) fun w op _ => w.Regular lay op

instance [Fintype κ] [Fintype ι] : DecidablePred (RegularRun lay w) :=
  fun ops => decidableAlong (World.step lay) (fun w op _ => w.Regular lay op) w ops

/-- The coroutines after some steps. -/
def Coroutines.follow (lay : Layout ι) (c : Coroutines κ ι) (ops : List (Switch κ ι)) :
    Coroutines κ ι := ops.foldl (Coroutines.step lay) c

/-- The coroutines follow every run of the machine. -/
theorem run_refines {ops : List (Switch κ ι)} (h : Refines lay w c) (hinv : c.Inv lay)
    (hgood : RegularRun lay w ops) (hrun : run (World.step lay) w ops = some w') :
    Refines lay w' (c.follow lay ops) ∧ (c.follow lay ops).Inv lay := by
  have hsim : ∃ c', run (fun c op => some (Coroutines.step lay c op)) c ops = some c' ∧
      (Refines lay w' c' ∧ c'.Inv lay) := by
    refine run_simulation (R := fun w c => Refines lay w c ∧ c.Inv lay) ⟨h, hinv⟩
      (fun w c op w' hR hgood hs => ?_) hgood hrun
    exact ⟨_, rfl, step_refines hR.1 hR.2 hgood hs, step_inv hR.1 hR.2 hgood⟩
  obtain ⟨c', hc', hR⟩ := hsim
  rw [run_total] at hc'
  obtain rfl := Option.some.inj hc'
  exact hR

namespace Coroutines

/-- A frame stays until the next one is stored. -/
theorem step_frames {op : Switch κ ι} (hop : ¬ op.Fills i) :
    (c.step lay op).frames i = c.frames i := by
  cases op with
  | work k t writes => exact congrFun (writes_frames c writes) i
  | gctx k j => exact Function.update_of_ne (Ne.symm hop) ..
  | sctx k j => rfl
  | start k => rfl
  | make k j routine udata => exact Function.update_of_ne (Ne.symm hop) ..

/-- The stack of a coroutine that is on no core stays as it is. -/
theorem step_stacks {op : Switch κ ι} (hi : ∀ d, c.control.current d ≠ i)
    (hfills : ¬ op.Fills i) (henters : ¬ op.Enters i) :
    (c.step lay op).stackBytes i = c.stackBytes i ∧ ∀ d, (c.step lay op).control.current d ≠ i := by
  cases op with
  | work k t writes =>
    refine ⟨writes_stacks c writes (hi k), fun d => ?_⟩
    dsimp only [step]
    rw [writes_control]
    exact hi d
  | gctx k j => exact ⟨rfl, hi⟩
  | sctx k j =>
    refine ⟨Function.update_of_ne (Ne.symm henters) .., fun d => ?_⟩
    dsimp only [step, resume, Control.setCurrent]
    by_cases hd : d = k
    · rw [hd, Function.update_self]
      exact henters
    · rw [Function.update_of_ne hd]
      exact hi d
  | start k => exact ⟨Function.update_of_ne (hi k).symm .., hi⟩
  | make k j routine udata => exact ⟨Function.update_of_ne (Ne.symm hfills) .., hi⟩

/-- Core `k` goes on with its coroutine. -/
theorem step_current {op : Switch κ ι} (hop : ¬ op.Leaves k) :
    (c.step lay op).control.current k = c.control.current k := by
  cases op with
  | work d t writes =>
    dsimp only [step]
    rw [writes_control]
    rfl
  | gctx d j => rfl
  | sctx d j => exact Function.update_of_ne (Ne.symm hop) ..
  | start d => rfl
  | make d j routine udata => rfl

theorem follow_frames {ops : List (Switch κ ι)} (hops : ∀ op ∈ ops, ¬ op.Fills i) :
    (c.follow lay ops).frames i = c.frames i := by
  induction ops generalizing c with
  | nil => rfl
  | cons op ops ih =>
    obtain ⟨hop, hops⟩ := List.forall_mem_cons.mp hops
    exact (ih hops).trans (step_frames hop)

theorem follow_stacks {ops : List (Switch κ ι)} (hi : ∀ d, c.control.current d ≠ i)
    (hops : ∀ op ∈ ops, ¬ op.Fills i ∧ ¬ op.Enters i) :
    (c.follow lay ops).stackBytes i = c.stackBytes i := by
  induction ops generalizing c with
  | nil => rfl
  | cons op ops ih =>
    obtain ⟨hop, hops⟩ := List.forall_mem_cons.mp hops
    obtain ⟨hfills, henters⟩ := hop
    exact (ih (step_stacks hi hfills henters).2 hops).trans (step_stacks hi hfills henters).1

theorem follow_current {ops : List (Switch κ ι)} (hops : ∀ op ∈ ops, ¬ op.Leaves k) :
    (c.follow lay ops).control.current k = c.control.current k := by
  induction ops generalizing c with
  | nil => rfl
  | cons op ops ih =>
    obtain ⟨hop, hops⟩ := List.forall_mem_cons.mp hops
    exact (ih hops).trans (step_current hop)

theorem follow_append (ops ops' : List (Switch κ ι)) :
    c.follow lay (ops ++ ops') = (c.follow lay ops).follow lay ops' := List.foldl_append

/-- A coroutine that is on no core goes on with its frame and its stack, on any core. -/
theorem follow_back {others : List (Switch κ ι)} (hi : ∀ d, c.control.current d ≠ i)
    (hothers : ∀ op ∈ others, ¬ op.Fills i ∧ ¬ op.Enters i) :
    (∃ regs, (c.follow lay (others ++ [.sctx k i])).control.threads k =
      ⟨(c.frames i).address, restored regs (lay.ctx i) (c.frames i)⟩) ∧
    (c.follow lay (others ++ [.sctx k i])).control.current k = i ∧
    (c.follow lay (others ++ [.sctx k i])).stackBytes i =
      store32 (c.stackBytes i) ((c.frames i).esp - 4#32) (c.frames i).address := by
  have hframe : (c.follow lay others).frames i = c.frames i :=
    follow_frames fun op hop => (hothers op hop).1
  have hstack : (c.follow lay others).stackBytes i = c.stackBytes i := follow_stacks hi hothers
  have hlast : c.follow lay (others ++ [.sctx k i]) = (c.follow lay others).resume lay k i := by
    rw [follow_append]
    rfl
  rw [hlast, ← hframe, ← hstack]
  exact ⟨⟨_, Function.update_self ..⟩, Function.update_self .., Function.update_self ..⟩

/-- A coroutine that stores its frame and later switches to another one is on no core then,
and its context has that frame. -/
theorem follow_left {j : ι} {mine : List (Switch κ ι)} (hcur : c.control.current k = i)
    (hj : j ≠ i) (hmine : ∀ op ∈ mine, ¬ op.Fills i ∧ ¬ op.Leaves k)
    (halone : Function.Injective (c.follow lay (.gctx k i :: mine)).control.current) :
    (c.follow lay (.gctx k i :: mine ++ [.sctx k j])).frames i = callerFrame (c.machine k) ∧
    ∀ d, (c.follow lay (.gctx k i :: mine ++ [.sctx k j])).control.current d ≠ i := by
  have hlast : c.follow lay (.gctx k i :: mine ++ [.sctx k j]) =
      (c.follow lay (.gctx k i :: mine)).resume lay k j := by
    rw [follow_append]
    rfl
  have hframe : (c.follow lay (.gctx k i :: mine)).frames i = callerFrame (c.machine k) :=
    (follow_frames fun op hop => (hmine op hop).1).trans (Function.update_self ..)
  have hmid : (c.follow lay (.gctx k i :: mine)).control.current k = i :=
    (follow_current fun op hop => (hmine op hop).2).trans hcur
  rw [hlast]
  refine ⟨hframe, fun d => ?_⟩
  dsimp only [resume, Control.setCurrent]
  by_cases hd : d = k
  · rw [hd, Function.update_self]
    exact hj
  · rw [Function.update_of_ne hd]
    exact fun heq => hd (halone (heq.trans hmid.symm))

end Coroutines

section

/-- Two coroutines, each with a page for its stack. -/
def twoPages : Layout Bool where
  ctx := fun i => if i then 4160#32 else 4096#32
  stack := fun i => if i then 12288#32 else 8192#32
  size := fun _ => 4096#32
  gctxEntry := 256#32
  sctxEntry := 512#32
  startEntry := 768#32
  trap := 772#32
  contexts_apart := by
    intro i j hij
    cases i <;> cases j <;>
      first | exact absurd rfl hij | exact blocksApart_of_le (by decide) (by decide) (by decide)
  stacks_apart := by
    intro i j hij
    cases i <;> cases j <;>
      first | exact absurd rfl hij | exact blocksApart_of_le (by decide) (by decide) (by decide)
  stack_context := by
    intro i j
    cases i <;> cases j <;> exact blocksApart_of_le (by decide) (by decide) (by decide)

/-- A core that has called `gctx` on the context of the first coroutine. The other context is
ready, to go on at 2048. -/
def calledGctx : World Unit Bool where
  control := ⟨fun _ => ⟨256#32, fun _ => 9000#32⟩, fun _ => false, id⟩
  mem := store32 (store32 (store32 (store32 (fun _ => 0#8) 9000#32 1024#32) 9004#32 4096#32)
    4160#32 2048#32) 4180#32 12400#32

/-- A core that is to make the second coroutine. -/
def aboutToMake : World Unit Bool where
  control := ⟨fun _ => ⟨1024#32, fun _ => 9000#32⟩, fun _ => false, fun _ => false⟩
  mem := store32 (fun _ => 0#8) 9004#32 4160#32

/-- The code calls `sctx` with the argument on its stack at `esp`, of which it writes some
bytes. -/
def callSctx (esp : Word32) (writes : List (Word32 × BitVec 8)) : Switch Unit Bool :=
  .work () ⟨512#32, fun _ => esp⟩ writes

end

/-- A coroutine that switches to another one goes on behind its `gctx`, with 1 as the result,
with the registers it had there, and with the stack it left, whatever has run since and
wherever it is resumed. Only the word with the return address of that `gctx` is written. -/
theorem switch_back {j : ι} {k' : κ} {mine others : List (Switch κ ι)} {left back : World κ ι}
    (hinv : (w.coroutines lay).Inv lay) (hcur : w.control.current k = i) (hj : j ≠ i)
    (hmine : ∀ op ∈ mine, ¬ op.Fills i ∧ ¬ op.Leaves k)
    (hothers : ∀ op ∈ others, ¬ op.Fills i ∧ ¬ op.Enters i)
    (hgood : RegularRun lay w (.gctx k i :: mine ++ [.sctx k j]))
    (hgood' : RegularRun lay left (others ++ [.sctx k' i]))
    (hleft : run (World.step lay) w (.gctx k i :: mine ++ [.sctx k j]) = some left)
    (hback : run (World.step lay) left (others ++ [.sctx k' i]) = some back) :
    (back.control.threads k').pc = (w.machine k).top ∧
    (back.control.threads k').regs .eax = 1#32 ∧
    (back.control.threads k').regs .ebx = (w.control.threads k).regs .ebx ∧
    (back.control.threads k').regs .esi = (w.control.threads k).regs .esi ∧
    (back.control.threads k').regs .edi = (w.control.threads k).regs .edi ∧
    (back.control.threads k').regs .ebp = (w.control.threads k).regs .ebp ∧
    (back.control.threads k').regs .esp = (w.control.threads k).regs .esp + 4#32 ∧
    back.control.current k' = i ∧
    ∀ x, InBlock (lay.stack i) (lay.size i).toNat x →
      ¬ InWord ((w.control.threads k).regs .esp) x → back.mem x = left.mem x := by
  have hR := refines_coroutines lay w
  obtain ⟨mid, hmid, -⟩ := Option.bind_eq_some_iff.mp (run_append.symm.trans hleft)
  obtain ⟨-, hinvm⟩ := run_refines hR hinv hgood.take hmid
  obtain ⟨hRl, hinvl⟩ := run_refines hR hinv hgood hleft
  obtain ⟨hRb, -⟩ := run_refines hRl hinvl hgood' hback
  obtain ⟨hframe, hnone⟩ := Coroutines.follow_left hcur hj hmine hinvm.alone
  obtain ⟨hthread, hcurrent, hstack⟩ := Coroutines.follow_back hnone hothers (k := k')
  obtain ⟨regs, hthread⟩ := hthread
  rw [hframe] at hthread hstack
  rw [hRb.control, hthread]
  refine ⟨rfl, rfl, rfl, rfl, rfl, rfl, rfl, hcurrent, fun x hx hword => ?_⟩
  rw [hRb.splits.stackBytes i x hx, hRl.splits.stackBytes i x hx, hstack]
  refine store32_of_not_inWord fun hin => hword ?_
  rw [callerFrame, BitVec.add_sub_cancel] at hin
  exact hin

/-- To the second coroutine and back. -/
theorem switch_back_twoPages : ∃ left back : World Unit Bool,
    run (World.step twoPages) calledGctx
      [.gctx () false, callSctx 9000#32 [(9004#32, 64#8)], .sctx () true] = some left ∧
    run (World.step twoPages) left
      [callSctx 12400#32 [(12405#32, 16#8)], .sctx () false] = some back ∧
    (back.control.threads ()).pc = 1024#32 ∧ (back.control.threads ()).regs .eax = 1#32 := by
  have hsome : (run (World.step twoPages) calledGctx
      ((.gctx () false :: [callSctx 9000#32 [(9004#32, 64#8)]] ++ [.sctx () true]) ++
        ([callSctx 12400#32 [(12405#32, 16#8)]] ++ [.sctx () false]))).isSome := by
    decide +kernel
  have hgood : RegularRun twoPages calledGctx
      ((.gctx () false :: [callSctx 9000#32 [(9004#32, 64#8)]] ++ [.sctx () true]) ++
        ([callSctx 12400#32 [(12405#32, 16#8)]] ++ [.sctx () false])) := by
    decide +kernel
  obtain ⟨back, hrun⟩ := Option.isSome_iff_exists.mp hsome
  obtain ⟨left, hleft, hback⟩ := Option.bind_eq_some_iff.mp (run_append.symm.trans hrun)
  obtain ⟨hpc, heax, -⟩ := switch_back ⟨fun _ _ _ => rfl, by decide +kernel⟩ rfl (by decide)
    (by simp [callSctx, Switch.Fills, Switch.Leaves])
    (by simp [callSctx, Switch.Fills, Switch.Enters]) hgood.take (hgood.drop hleft) hleft hback
  exact ⟨left, back, hleft, hback, hpc.trans (by decide +kernel), heax⟩

/-- The words on a new stack, when `sctx` has pushed the entry of `start` once more. -/
theorem started_stack (entry ctx routine udata top : Word32) (mem : ByteMemory) :
    load32 (store32 (storeStack entry ctx routine udata top mem) (top + 0#32) entry)
      (top + 4#32) = routine ∧
    load32 (store32 (storeStack entry ctx routine udata top mem) (top + 0#32) entry)
      (top + 8#32) = udata := by
  constructor
  · simp (disch := decide) only [storeStack, field_apart, load32_store32]
  · simp (disch := decide) only [storeStack, field_apart, load32_store32]

/-- What `start` does, where its entry has been reached. -/
theorem step_start_spec (hpc : (w.control.threads k).pc = lay.startEntry) :
    ∃ w', w.step lay (.start k) = some w' ∧
      w'.control.threads k =
        ⟨(w.machine k).top, Function.update (w.machine k).regs .eax (w.machine k).top⟩ ∧
      w'.control.current = w.control.current ∧
      w'.mem = store32 w.mem ((w.machine k).regs .esp) lay.trap := by
  rw [World.step, World.runRoutine, if_pos hpc, exec_start]
  exact ⟨_, rfl, Function.update_self .., rfl, rfl⟩

/-- Core `k` has entered the routine of `i`: the return address on its stack is that of the
trap, the argument above it lies at a multiple of 16, and both are on the stack of `i`. -/
structure Started (lay : Layout ι) (w : World κ ι) (k : κ) (i : ι) (routine udata : Word32) :
    Prop where
  pc : (w.control.threads k).pc = routine
  current : w.control.current k = i
  own : Spans (lay.stack i) (lay.size i).toNat ((w.control.threads k).regs .esp) 8
  aligned : (((w.control.threads k).regs .esp).toNat + 4) % 16 = 0
  returnAddress : (w.machine k).top = lay.trap
  argument : (w.machine k).read (.mem 4#32 .esp) = udata

theorem started_of_words {routine udata : Word32} (hsize : 35 ≤ (lay.size i).toNat)
    (hpc : (w.control.threads k).pc = lay.startEntry) (hcur : w.control.current k = i)
    (hesp : (w.control.threads k).regs .esp = stackTop (lay.stack i) (lay.size i) + 4#32)
    (hroutine : load32 w.mem (stackTop (lay.stack i) (lay.size i) + 4#32) = routine)
    (hudata : load32 w.mem (stackTop (lay.stack i) (lay.size i) + 8#32) = udata) :
    ∃ w', w.step lay (.start k) = some w' ∧ Started lay w' k i routine udata := by
  obtain ⟨hspan, halign⟩ := stackTop_spec (lay.stack i) hsize
  obtain ⟨w', hw', hthread, hcurrent, hmem⟩ := step_start_spec hpc
  have htop : (w.machine k).top = routine := by
    rw [Machine.top, World.machine]
    dsimp only
    rw [hesp, hroutine]
  have hregs : (w'.control.threads k).regs .esp =
      stackTop (lay.stack i) (lay.size i) + 4#32 := by
    rw [hthread]
    exact hesp
  have hpushed : w'.mem =
      store32 w.mem (stackTop (lay.stack i) (lay.size i) + 4#32) lay.trap := by
    rw [hmem, ← hesp]
    rfl
  have hadd : stackTop (lay.stack i) (lay.size i) + 4#32 + 4#32 =
      stackTop (lay.stack i) (lay.size i) + 8#32 := by bv_omega
  refine ⟨w', hw', ?_, ?_, ?_, ?_, ?_, ?_⟩
  · rw [hthread]
    exact htop
  · rw [hcurrent, hcur]
  · rw [hregs]
    exact hspan.add (by decide)
  · rw [hregs]
    bv_omega
  · rw [Machine.top, World.machine]
    dsimp only
    rw [hregs, hpushed, load32_store32]
  · rw [Machine.read, World.machine]
    dsimp only
    rw [hregs, hpushed, hadd, field_apart (by decide), hudata]

/-- A coroutine that has been made, and that is switched to for the first time, calls its
routine with its argument, whatever has run since. -/
theorem first_switch {k' : κ} {routine udata : Word32} {others : List (Switch κ ι)}
    {made switched : World κ ι} (hinv : (w.coroutines lay).Inv lay)
    (hothers : ∀ op ∈ others, ¬ op.Fills i ∧ ¬ op.Enters i)
    (hgood : RegularRun lay w [.make k i routine udata])
    (hgood' : RegularRun lay made (others ++ [.sctx k' i]))
    (hmade : run (World.step lay) w [.make k i routine udata] = some made)
    (hswitched : run (World.step lay) made (others ++ [.sctx k' i]) = some switched) :
    ∃ started, switched.step lay (.start k') = some started ∧
      Started lay started k' i routine udata := by
  have hR := refines_coroutines lay w
  obtain ⟨hRm, hinvm⟩ := run_refines hR hinv hgood hmade
  obtain ⟨hRs, -⟩ := run_refines hRm hinvm hgood' hswitched
  obtain ⟨u, hu, -⟩ := run_cons_iff.mp hmade
  obtain ⟨⟨hsize, hnone⟩, -⟩ := hgood u hu
  obtain ⟨hspan, -⟩ := stackTop_spec (lay.stack i) hsize
  have hframe : ((w.coroutines lay).follow lay [.make k i routine udata]).frames i =
      (frameAt w.mem (lay.ctx i)).made lay.startEntry (stackTop (lay.stack i) (lay.size i)) :=
    Function.update_self ..
  have hstack : ((w.coroutines lay).follow lay [.make k i routine udata]).stackBytes i =
      storeStack lay.startEntry (lay.ctx i) routine udata (stackTop (lay.stack i) (lay.size i))
        w.mem := Function.update_self ..
  have hbegun : ∀ d, ((w.coroutines lay).follow lay
      [.make k i routine udata]).control.current d ≠ i := hnone
  obtain ⟨⟨regs, hthread⟩, hcurrent, hstacks⟩ := Coroutines.follow_back hbegun hothers (k := k')
  rw [hframe] at hthread hstacks
  rw [hstack] at hstacks
  have hword (d : Word32) (hd : d.toNat + 4 ≤ 16) := hRs.splits.load (hspan.add hd)
  have hpushed : stackTop (lay.stack i) (lay.size i) + 4#32 - 4#32 =
      stackTop (lay.stack i) (lay.size i) + 0#32 := by bv_omega
  obtain ⟨hroutine, hudata⟩ := started_stack lay.startEntry (lay.ctx i) routine udata
    (stackTop (lay.stack i) (lay.size i)) w.mem
  refine started_of_words hsize ?_ ?_ ?_ ?_ ?_
  · rw [hRs.control, hthread]
    rfl
  · rw [hRs.control]
    exact hcurrent
  · rw [hRs.control, hthread]
    rfl
  · rw [hword 4#32 (by decide), hstacks]
    dsimp only [Frame.made]
    rw [hpushed, hroutine]
  · rw [hword 8#32 (by decide), hstacks]
    dsimp only [Frame.made]
    rw [hpushed, hudata]

theorem first_switch_twoPages : ∃ made switched started : World Unit Bool,
    run (World.step twoPages) aboutToMake [.make () true 2048#32 7#32] = some made ∧
    run (World.step twoPages) made [callSctx 9000#32 [], .sctx () true] = some switched ∧
    switched.step twoPages (.start ()) = some started ∧
    Started twoPages started () true 2048#32 7#32 := by
  have hsome : (run (World.step twoPages) aboutToMake ([.make () true 2048#32 7#32] ++
      ([callSctx 9000#32 []] ++ [.sctx () true]))).isSome := by decide +kernel
  have hgood : RegularRun twoPages aboutToMake ([.make () true 2048#32 7#32] ++
      ([callSctx 9000#32 []] ++ [.sctx () true])) := by decide +kernel
  obtain ⟨switched, hrun⟩ := Option.isSome_iff_exists.mp hsome
  obtain ⟨made, hmade, hswitched⟩ := Option.bind_eq_some_iff.mp (run_append.symm.trans hrun)
  obtain ⟨started, hstarted, h⟩ := first_switch ⟨fun _ _ _ => rfl, by decide +kernel⟩
    (by simp [callSctx, Switch.Fills, Switch.Enters]) hgood.take (hgood.drop hmade) hmade hswitched
  exact ⟨made, switched, started, hmade, hswitched, hstarted, h⟩

end Context

end Yarns
