import Mathlib.Data.Fintype.Defs
import Yarns.Base.Run
import Yarns.Sys.Context

/-!
# Switching between coroutines

Any number of cores run the code of `src/context/i386` on one memory. `World` is what the
machine has: a program counter and registers for each core, and bytes. A core whose program
counter is at the entry of `gctx`, `sctx` or `start` runs that routine; elsewhere it runs
code of the program, which may do anything to the registers, its own stack and the memory
that is not a context or a stack.

`Coroutines` is what contexts are for: every coroutine has a saved frame and a stack of its
own, and a switch loads the one and leaves all others alone. The machine refines it
(`step_refines`).
-/

namespace Yarns

open Base

namespace Context

/-- Where contexts and stacks lie, and the addresses of the routines. -/
structure Layout (ι : Type) where
  ctx : ι → Word32
  stack : ι → Word32
  size : ι → Word32
  gctxEntry : Word32
  sctxEntry : Word32
  startEntry : Word32
  trap : Word32
  contexts_apart : ∀ i j, i ≠ j →
    BlocksApart (ctx i) contextSize (ctx j) contextSize
  stacks_apart : ∀ i j, i ≠ j → BlocksApart (stack i) (size i).toNat (stack j) (size j).toNat
  stack_context : ∀ i j, BlocksApart (stack i) (size i).toNat (ctx j) contextSize

structure Thread where
  pc : Word32
  regs : Reg → Word32

/-- What the cores run: `current` is the coroutine on a core, `ready` says which contexts
may be switched to. -/
structure Control (κ ι : Type) where
  threads : κ → Thread
  current : κ → ι
  ready : ι → Bool

/-- A step of core `k`. `work` is a piece of the program: what it leaves in the registers
and the bytes it writes. `make` is `yarn_context_set_stack` and `yarn_context_make`. -/
inductive Switch (κ ι : Type)
  | work (k : κ) (t : Thread) (writes : List (Word32 × BitVec 8))
  | gctx (k : κ) (i : ι)
  | sctx (k : κ) (i : ι)
  | start (k : κ)
  | make (k : κ) (i : ι) (routine udata : Word32)

variable {κ ι : Type}

section

variable [DecidableEq κ] [DecidableEq ι]

namespace Control

def setThread (c : Control κ ι) (k : κ) (t : Thread) : Control κ ι :=
  { c with threads := Function.update c.threads k t }

def setReady (c : Control κ ι) (i : ι) (b : Bool) : Control κ ι :=
  { c with ready := Function.update c.ready i b }

def setCurrent (c : Control κ ι) (k : κ) (i : ι) : Control κ ι :=
  { c with current := Function.update c.current k i }

end Control

/-! ## The machine -/

structure World (κ ι : Type) where
  control : Control κ ι
  mem : ByteMemory

/-- Core `k` as the processor sees it. -/
def World.machine (w : World κ ι) (k : κ) : Machine := ⟨(w.control.threads k).regs, w.mem⟩

def writeAll (writes : List (Word32 × BitVec 8)) (mem : ByteMemory) : ByteMemory :=
  writes.foldl (fun mem p => Function.update mem p.1 p.2) mem

/-- The program counter is not at the entry of a routine. -/
def Layout.Outside (lay : Layout ι) (pc : Word32) : Prop :=
  pc ≠ lay.gctxEntry ∧ pc ≠ lay.sctxEntry ∧ pc ≠ lay.startEntry

instance (lay : Layout ι) (pc : Word32) : Decidable (lay.Outside pc) :=
  inferInstanceAs (Decidable (_ ∧ _))

/-- Core `k` runs the routine at `entry`. -/
def World.runRoutine (w : World κ ι) (k : κ) (entry : Word32) (code : List Instr) :
    Option (World κ ι) :=
  if (w.control.threads k).pc = entry then
    ((w.machine k).exec code).map fun r =>
      ⟨w.control.setThread k ⟨r.1, r.2.regs⟩, r.2.mem⟩
  else
    none

def World.step (lay : Layout ι) (w : World κ ι) : Switch κ ι → Option (World κ ι)
  | .work k t writes =>
    if lay.Outside (w.control.threads k).pc then
      some ⟨w.control.setThread k t, writeAll writes w.mem⟩
    else
      none
  | .gctx k i => (w.runRoutine k lay.gctxEntry gctx).map fun t =>
      { t with control := t.control.setReady i (decide (w.control.current k = i)) }
  | .sctx k i => (w.runRoutine k lay.sctxEntry sctx).map fun t =>
      { t with control := t.control.setCurrent k i }
  | .start k => w.runRoutine k lay.startEntry (start lay.trap)
  | .make k i routine udata =>
    if lay.Outside (w.control.threads k).pc then
      some ⟨w.control.setReady i true,
        yarnContextMake lay.startEntry (lay.ctx i) routine udata
          (yarnContextSetStack (lay.ctx i) (lay.stack i) (lay.size i) w.mem)⟩
    else
      none

/-- How the program may use the routines. It writes to no context and to no stack but its
own, calls `gctx` and `sctx` on its own stack, and leaves alone the context of a coroutine
that runs on another core. -/
def World.Regular (lay : Layout ι) (w : World κ ι) : Switch κ ι → Prop
  | .work k _ writes => ∀ p ∈ writes,
      (∀ j, ¬ InBlock (lay.ctx j) contextSize p.1) ∧
        ∀ j, j ≠ w.control.current k → ¬ InBlock (lay.stack j) (lay.size j).toNat p.1
  | .gctx k i => (w.machine k).read (.mem 4#32 .esp) = lay.ctx i ∧
      Spans (lay.stack (w.control.current k)) (lay.size (w.control.current k)).toNat
        ((w.control.threads k).regs .esp) 8 ∧
      (w.control.current k ≠ i → ∀ c, w.control.current c ≠ i)
  | .sctx k i => (w.machine k).read (.mem 4#32 .esp) = lay.ctx i ∧
      Spans (lay.stack (w.control.current k)) (lay.size (w.control.current k)).toNat
        ((w.control.threads k).regs .esp) 8 ∧
      w.control.ready i = true ∧ ∀ c, w.control.current c ≠ i
  | .start k =>
      Spans (lay.stack (w.control.current k)) (lay.size (w.control.current k)).toNat
        ((w.control.threads k).regs .esp) 4
  | .make _ i _ _ => 35 ≤ (lay.size i).toNat ∧ ∀ c, w.control.current c ≠ i

instance [Fintype κ] [Fintype ι] (lay : Layout ι) (w : World κ ι) :
    DecidablePred (w.Regular lay)
  -- the addresses of the writes, not all addresses
  | .work k _ writes => List.decidableBAll (fun p : Word32 × BitVec 8 =>
      (∀ j, ¬ InBlock (lay.ctx j) contextSize p.1) ∧
        ∀ j, j ≠ w.control.current k → ¬ InBlock (lay.stack j) (lay.size j).toNat p.1) writes
  | .gctx .. => inferInstanceAs (Decidable (_ = _ ∧ Spans .. ∧ (_ → _)))
  | .sctx .. => inferInstanceAs (Decidable (_ = _ ∧ Spans .. ∧ _ = _ ∧ _))
  | .start .. => inferInstanceAs (Decidable (Spans ..))
  | .make .. => inferInstanceAs (Decidable (_ ∧ _))

/-! ## Coroutines -/

/-- Coroutines with frames and stacks of their own, and the rest of the memory. -/
structure Coroutines (κ ι : Type) where
  control : Control κ ι
  frames : ι → Frame
  stackBytes : ι → ByteMemory
  shared : ByteMemory

namespace Coroutines

/-- One byte that core `k` writes. -/
def writeByte (lay : Layout ι) (k : κ) (c : Coroutines κ ι) (p : Word32 × BitVec 8) :
    Coroutines κ ι :=
  let i := c.control.current k
  if InBlock (lay.stack i) (lay.size i).toNat p.1 then
    { c with
      stackBytes := Function.update c.stackBytes i (Function.update (c.stackBytes i) p.1 p.2) }
  else
    { c with shared := Function.update c.shared p.1 p.2 }

def storeOwn (c : Coroutines κ ι) (i : ι) (a v : Word32) : Coroutines κ ι :=
  { c with stackBytes := Function.update c.stackBytes i (store32 (c.stackBytes i) a v) }

/-- Core `k` with the stack of its coroutine. -/
def machine (c : Coroutines κ ι) (k : κ) : Machine :=
  ⟨(c.control.threads k).regs, c.stackBytes (c.control.current k)⟩

def save (lay : Layout ι) (c : Coroutines κ ι) (k : κ) (i : ι) : Coroutines κ ι :=
  let m := c.machine k
  { c with
    control := (c.control.setThread k ⟨m.top, saved m.regs (lay.ctx i) m.top⟩).setReady i
      (decide (c.control.current k = i))
    frames := Function.update c.frames i (callerFrame m) }

/-- Core `k` goes on where coroutine `i` was. -/
def resume (lay : Layout ι) (c : Coroutines κ ι) (k : κ) (i : ι) : Coroutines κ ι :=
  let f := c.frames i
  let c := c.storeOwn i (f.esp - 4#32) f.address
  { c with
    control := (c.control.setThread k
      ⟨f.address, restored (c.control.threads k).regs (lay.ctx i) f⟩).setCurrent k i }

def enter (lay : Layout ι) (c : Coroutines κ ι) (k : κ) : Coroutines κ ι :=
  let m := c.machine k
  let c := c.storeOwn (c.control.current k) (m.regs .esp) lay.trap
  { c with control := c.control.setThread k ⟨m.top, Function.update m.regs .eax m.top⟩ }

def prepare (lay : Layout ι) (c : Coroutines κ ι) (i : ι) (routine udata : Word32) :
    Coroutines κ ι :=
  let top := stackTop (lay.stack i) (lay.size i)
  { c with
    control := c.control.setReady i true
    frames := Function.update c.frames i ((c.frames i).made lay.startEntry top)
    stackBytes := Function.update c.stackBytes i
      (storeStack lay.startEntry (lay.ctx i) routine udata top (c.stackBytes i)) }

def step (lay : Layout ι) (c : Coroutines κ ι) : Switch κ ι → Coroutines κ ι
  | .work k t writes =>
    let c := writes.foldl (writeByte lay k) c
    { c with control := c.control.setThread k t }
  | .gctx k i => c.save lay k i
  | .sctx k i => c.resume lay k i
  | .start k => c.enter lay k
  | .make _ i routine udata => c.prepare lay i routine udata

end Coroutines

end

/-! ## The memory of the machine is that of the coroutines -/

/-- The contexts hold the frames, and the stacks and the rest lie where they should. -/
structure Splits (lay : Layout ι) (mem : ByteMemory) (c : Coroutines κ ι) : Prop where
  frames : ∀ i, frameAt mem (lay.ctx i) = c.frames i
  stackBytes : ∀ i x, InBlock (lay.stack i) (lay.size i).toNat x → mem x = c.stackBytes i x
  shared : ∀ x, (∀ i, ¬ InBlock (lay.stack i) (lay.size i).toNat x) →
    (∀ i, ¬ InBlock (lay.ctx i) contextSize x) → mem x = c.shared x

variable {lay : Layout ι} {w w' : World κ ι} {c : Coroutines κ ι} {mem mem' : ByteMemory}
  {i j : ι} {k : κ} {a v x : Word32}

theorem inBlock_context (h : InBlock a frameSize x) : InBlock a contextSize x :=
  Nat.lt_trans h (by decide)

namespace Splits

/-- Only what the control says has changed. -/
theorem control (h : Splits lay mem c) (control : Control κ ι) :
    Splits lay mem { c with control := control } := ⟨h.frames, h.stackBytes, h.shared⟩

/-- A word of a stack. -/
theorem load (h : Splits lay mem c) (ha : Spans (lay.stack i) (lay.size i).toNat a 4) :
    load32 mem a = load32 (c.stackBytes i) a :=
  load32_congr fun x hx => h.stackBytes i x (ha.inBlock_word hx)

variable [DecidableEq ι]

/-- Bytes of one stack have changed. -/
theorem stack {own : ByteMemory} (h : Splits lay mem c)
    (hout : ∀ x, ¬ InBlock (lay.stack i) (lay.size i).toNat x → mem' x = mem x)
    (hin : ∀ x, InBlock (lay.stack i) (lay.size i).toNat x → mem' x = own x) :
    Splits lay mem' { c with stackBytes := Function.update c.stackBytes i own } := by
  refine ⟨fun j => ?_, fun j x hx => ?_, fun x hstack hctx => ?_⟩
  · rw [← h.frames j]
    refine frameAt_congr fun x hx => hout x fun hin => ?_
    exact lay.stack_context i j x hin (inBlock_context hx)
  · dsimp only
    by_cases hj : j = i
    · subst hj
      rw [Function.update_self]
      exact hin x hx
    · rw [Function.update_of_ne hj, hout x (lay.stacks_apart j i hj x hx)]
      exact h.stackBytes j x hx
  · rw [hout x (hstack i)]
    exact h.shared x hstack hctx

theorem storeOwn (h : Splits lay mem c) (ha : Spans (lay.stack i) (lay.size i).toNat a 4) :
    Splits lay (store32 mem a v) (c.storeOwn i a v) := by
  refine h.stack (fun x hx => ?_) fun x hx => ?_
  · exact store32_of_not_inWord fun hin => hx (ha.inBlock_word hin)
  · rw [store32, store32, h.stackBytes i x hx]

/-- Bytes of one context have changed. -/
theorem context (h : Splits lay mem c)
    (hout : ∀ x, ¬ InBlock (lay.ctx i) contextSize x → mem' x = mem x) :
    Splits lay mem' { c with
      frames := Function.update c.frames i (frameAt mem' (lay.ctx i)) } := by
  refine ⟨fun j => ?_, fun j x hx => ?_, fun x hstack hctx => ?_⟩
  · dsimp only
    by_cases hj : j = i
    · subst hj
      rw [Function.update_self]
    · rw [Function.update_of_ne hj, ← h.frames j]
      refine frameAt_congr fun x hx => hout x ?_
      exact lay.contexts_apart j i hj x (inBlock_context hx)
  · rw [hout x (lay.stack_context j i x hx)]
    exact h.stackBytes j x hx
  · rw [hout x (hctx i)]
    exact h.shared x hstack hctx

theorem setStack (h : Splits lay mem c) :
    Splits lay (yarnContextSetStack (lay.ctx i) a v mem) c := by
  have hout (x : Word32) (hx : ¬ InBlock (lay.ctx i) contextSize x) :
      yarnContextSetStack (lay.ctx i) a v mem x = mem x := yarnContextSetStack_of_not_inBlock hx
  have hsplit := h.context hout
  rwa [frameAt_yarnContextSetStack, h.frames, Function.update_eq_self] at hsplit

theorem writeByte {p : Word32 × BitVec 8} (h : Splits lay mem c)
    (hctx : ∀ j, ¬ InBlock (lay.ctx j) contextSize p.1)
    (hstack : ∀ j, j ≠ c.control.current k → ¬ InBlock (lay.stack j) (lay.size j).toNat p.1) :
    Splits lay (Function.update mem p.1 p.2) (c.writeByte lay k p) := by
  rw [Coroutines.writeByte]
  split
  next hin =>
    refine h.stack (fun x hx => ?_) fun x hx => ?_
    · exact Function.update_of_ne (fun heq : x = p.1 => hx (heq ▸ hin)) ..
    · rw [Function.update_apply, Function.update_apply, h.stackBytes _ x hx]
  next hout =>
    have hnone : ∀ j, ¬ InBlock (lay.stack j) (lay.size j).toNat p.1 := by
      intro j
      by_cases hj : j = c.control.current k
      · rw [hj]
        exact hout
      · exact hstack j hj
    refine ⟨fun j => ?_, fun j x hx => ?_, fun x hs hc => ?_⟩
    · rw [← h.frames j]
      refine frameAt_congr fun x hx => ?_
      exact Function.update_of_ne (fun heq : x = p.1 => hctx j (heq ▸ inBlock_context hx)) ..
    · rw [Function.update_of_ne fun heq : x = p.1 => hnone j (heq ▸ hx)]
      exact h.stackBytes j x hx
    · dsimp only
      rw [Function.update_apply, Function.update_apply, h.shared x hs hc]

end Splits

section

variable [DecidableEq ι]

theorem writeByte_control (c : Coroutines κ ι) (p : Word32 × BitVec 8) :
    (c.writeByte lay k p).control = c.control := by
  rw [Coroutines.writeByte]
  split <;> rfl

theorem writes_control (c : Coroutines κ ι) (writes : List (Word32 × BitVec 8)) :
    (writes.foldl (Coroutines.writeByte lay k) c).control = c.control := by
  induction writes generalizing c with
  | nil => rfl
  | cons p writes ih => rw [List.foldl_cons, ih, writeByte_control]

theorem Splits.writes {writes : List (Word32 × BitVec 8)} (h : Splits lay mem c)
    (hallowed : ∀ p ∈ writes, (∀ j, ¬ InBlock (lay.ctx j) contextSize p.1) ∧
      ∀ j, j ≠ c.control.current k → ¬ InBlock (lay.stack j) (lay.size j).toNat p.1) :
    Splits lay (writeAll writes mem) (writes.foldl (Coroutines.writeByte lay k) c) := by
  induction writes generalizing c mem with
  | nil => exact h
  | cons p writes ih =>
    obtain ⟨hctx, hstack⟩ := hallowed p List.mem_cons_self
    refine ih (h.writeByte hctx hstack) fun q hq => ?_
    rw [writeByte_control]
    exact hallowed q (List.mem_cons_of_mem p hq)

theorem writes_frames (c : Coroutines κ ι) (writes : List (Word32 × BitVec 8)) :
    (writes.foldl (Coroutines.writeByte lay k) c).frames = c.frames := by
  induction writes generalizing c with
  | nil => rfl
  | cons p writes ih =>
    rw [List.foldl_cons, ih, Coroutines.writeByte]
    split <;> rfl

theorem Splits.make {routine udata : Word32} (h : Splits lay mem c)
    (hsize : 35 ≤ (lay.size i).toNat) :
    Splits lay (yarnContextMake lay.startEntry (lay.ctx i) routine udata
      (yarnContextSetStack (lay.ctx i) (lay.stack i) (lay.size i) mem))
      { c.prepare lay i routine udata with control := c.control } := by
  obtain ⟨hspan, -⟩ := stackTop_spec (lay.stack i) hsize
  obtain ⟨mem₁, hmem⟩ :
    ∃ mem₁, mem₁ = yarnContextSetStack (lay.ctx i) (lay.stack i) (lay.size i) mem := ⟨_, rfl⟩
  have hset : Splits lay mem₁ c := hmem ▸ h.setStack
  have hpointer : load32 mem₁ (lay.ctx i + 24#32) = lay.stack i :=
    hmem ▸ yarnContextSetStack_stackPointer
  have hstackSize : load32 mem₁ (lay.ctx i + 28#32) = lay.size i :=
    hmem ▸ yarnContextSetStack_stackSize
  rw [← hmem]
  have hstack : Splits lay (storeStack lay.startEntry (lay.ctx i) routine udata
      (stackTop (lay.stack i) (lay.size i)) mem₁) { c with
        stackBytes := Function.update c.stackBytes i
          (storeStack lay.startEntry (lay.ctx i) routine udata
            (stackTop (lay.stack i) (lay.size i)) (c.stackBytes i)) } := by
    refine hset.stack (fun x hx => ?_) fun x hx => storeStack_congr (hset.stackBytes i x hx)
    exact storeStack_of_not_inBlock fun hin => hx (hspan.inBlock hin)
  have hout (x : Word32) (hx : ¬ InBlock (lay.ctx i) frameSize x) :
      yarnContextMake lay.startEntry (lay.ctx i) routine udata mem₁ x =
        storeStack lay.startEntry (lay.ctx i) routine udata
          (stackTop (lay.stack i) (lay.size i)) mem₁ x := by
    rw [yarnContextMake_of_not_inBlock hx, hpointer, hstackSize]
  have hframe : frameAt (yarnContextMake lay.startEntry (lay.ctx i) routine udata mem₁)
      (lay.ctx i) = (c.frames i).made lay.startEntry (stackTop (lay.stack i) (lay.size i)) := by
    rw [frameAt_yarnContextMake, hpointer, hstackSize, hset.frames]
    rw [hpointer, hstackSize]
    intro x hx hin
    exact lay.stack_context i i x (hspan.inBlock hin) (inBlock_context hx)
  have hmade := hstack.context fun x hx => hout x fun hin => hx (inBlock_context hin)
  rw [hframe] at hmade
  exact hmade

end

/-! ## Refinement -/

structure Refines (lay : Layout ι) (w : World κ ι) (c : Coroutines κ ι) : Prop where
  control : w.control = c.control
  splits : Splits lay w.mem c

/-- No coroutine is on two cores, and what may be switched to has room on its stack for the
word that `sctx` pushes. -/
structure Coroutines.Inv (lay : Layout ι) (c : Coroutines κ ι) : Prop where
  alone : Function.Injective c.control.current
  room : ∀ i, c.control.ready i = true →
    Spans (lay.stack i) (lay.size i).toNat ((c.frames i).esp - 4#32) 4

/-- The same coroutines on the cores, and the same frames. -/
theorem Coroutines.Inv.congr {c' : Coroutines κ ι} (h : c.Inv lay)
    (hcurrent : c'.control.current = c.control.current)
    (hready : c'.control.ready = c.control.ready) (hframes : c'.frames = c.frames) :
    c'.Inv lay := by
  refine ⟨?_, fun i hi => ?_⟩
  · rw [hcurrent]
    exact h.alone
  · rw [hready] at hi
    rw [hframes]
    exact h.room i hi

/-- A world as coroutines. -/
def World.coroutines (lay : Layout ι) (w : World κ ι) : Coroutines κ ι where
  control := w.control
  frames := fun i => frameAt w.mem (lay.ctx i)
  stackBytes := fun _ => w.mem
  shared := w.mem

theorem refines_coroutines (lay : Layout ι) (w : World κ ι) :
    Refines lay w (w.coroutines lay) where
  control := rfl
  splits := ⟨fun _ => rfl, fun _ _ _ => rfl, fun _ _ _ => rfl⟩

theorem Refines.regs (h : Refines lay w c) (k : κ) :
    (w.machine k).regs = (c.machine k).regs :=
  congrArg (fun control => (control.threads k).regs) h.control

/-- The top of the stack of the coroutine that a core runs. -/
theorem Refines.top (h : Refines lay w c)
    (ha : Spans (lay.stack (w.control.current k)) (lay.size (w.control.current k)).toNat
      ((w.control.threads k).regs .esp) 4) :
    (w.machine k).top = (c.machine k).top := by
  have hload := h.splits.load ha
  rw [Machine.top, Machine.top, ← h.regs k, Coroutines.machine]
  dsimp only
  rw [← h.control]
  exact hload

theorem Refines.callerFrame (h : Refines lay w c)
    (htop : (w.machine k).top = (c.machine k).top) :
    callerFrame (w.machine k) = callerFrame (c.machine k) := by
  rw [Context.callerFrame, Context.callerFrame, htop, h.regs k]

section

variable [DecidableEq κ]

theorem runRoutine_cases {entry : Word32} {code : List Instr}
    (h : w.runRoutine k entry code = some w') :
    (w.control.threads k).pc = entry ∧ ∃ r, (w.machine k).exec code = some r ∧
      w' = ⟨w.control.setThread k ⟨r.1, r.2.regs⟩, r.2.mem⟩ := by
  rw [World.runRoutine] at h
  split at h
  next hpc =>
    obtain ⟨r, hr, hw⟩ := Option.map_eq_some_iff.mp h
    exact ⟨hpc, r, hr, hw.symm⟩
  next => cases h

end

variable [DecidableEq ι]

theorem Coroutines.Inv.prepare {routine udata : Word32} (h : c.Inv lay)
    (hsize : 35 ≤ (lay.size i).toNat) : (c.prepare lay i routine udata).Inv lay := by
  refine ⟨h.alone, fun j hj => ?_⟩
  dsimp only [Coroutines.prepare, Control.setReady] at hj ⊢
  by_cases hji : j = i
  · subst hji
    obtain ⟨hspan, -⟩ := stackTop_spec (lay.stack j) hsize
    rw [Function.update_self, Frame.made]
    dsimp only
    rw [BitVec.add_sub_cancel]
    exact hspan.mono (by decide)
  · rw [Function.update_of_ne hji] at hj ⊢
    exact h.room j hj

variable [DecidableEq κ]

theorem step_gctx (h : Refines lay w c) (hgood : w.Regular lay (.gctx k i))
    (hs : w.step lay (.gctx k i) = some w') : Refines lay w' (c.save lay k i) := by
  obtain ⟨harg, hspan, -⟩ := hgood
  obtain ⟨w₀, hrun, rfl⟩ := Option.map_eq_some_iff.mp hs
  obtain ⟨-, r, hexec, rfl⟩ := runRoutine_cases hrun
  have hword : Spans (lay.stack (w.control.current k)) (lay.size (w.control.current k)).toNat
      ((w.control.threads k).regs .esp) 4 := hspan.mono (by decide)
  have hcode := exec_gctx harg fun x hx hin =>
    lay.stack_context _ i x (hword.inBlock_word hx) (inBlock_context hin)
  obtain rfl := Option.some.inj (hcode.symm.trans hexec)
  have htop := h.top hword
  have hout (x : Word32) (hx : ¬ InBlock (lay.ctx i) contextSize x) :
      storeFrame (w.machine k) (lay.ctx i) x = w.mem x :=
    storeFrame_of_not_inBlock fun hin => hx (inBlock_context hin)
  have hsplit := h.splits.context hout
  rw [frameAt_storeFrame, h.callerFrame htop] at hsplit
  refine ⟨?_, hsplit.control _⟩
  dsimp only [Coroutines.save]
  rw [h.control, htop, h.regs k]

theorem step_sctx (h : Refines lay w c) (hinv : c.Inv lay)
    (hgood : w.Regular lay (.sctx k i)) (hs : w.step lay (.sctx k i) = some w') :
    Refines lay w' (c.resume lay k i) := by
  obtain ⟨harg, -, hready, -⟩ := hgood
  obtain ⟨w₀, hrun, rfl⟩ := Option.map_eq_some_iff.mp hs
  obtain ⟨-, r, hexec, rfl⟩ := runRoutine_cases hrun
  obtain rfl := Option.some.inj ((exec_sctx harg).symm.trans hexec)
  have hframe : frameAt (w.machine k).mem (lay.ctx i) = c.frames i := h.splits.frames i
  rw [h.control] at hready
  dsimp only
  rw [hframe, h.regs k]
  refine ⟨?_, (h.splits.storeOwn (hinv.room i hready)).control _⟩
  dsimp only [Coroutines.resume]
  rw [h.control]
  rfl

theorem step_start (h : Refines lay w c) (hgood : w.Regular lay (.start k))
    (hs : w.step lay (.start k) = some w') : Refines lay w' (c.enter lay k) := by
  have hspan : Spans (lay.stack (w.control.current k)) (lay.size (w.control.current k)).toNat
    ((w.control.threads k).regs .esp) 4 := hgood
  obtain ⟨-, r, hexec, rfl⟩ := runRoutine_cases hs
  obtain rfl := Option.some.inj (exec_start.symm.trans hexec)
  have htop := h.top hspan
  have hsplit := h.splits.storeOwn hspan (v := lay.trap)
  rw [h.control] at hsplit
  dsimp only
  rw [htop, h.regs k, h.control]
  exact ⟨rfl, hsplit.control _⟩

theorem step_make {routine udata : Word32} (h : Refines lay w c)
    (hgood : w.Regular lay (.make k i routine udata))
    (hs : w.step lay (.make k i routine udata) = some w') :
    Refines lay w' (c.prepare lay i routine udata) := by
  obtain ⟨hsize, -⟩ := hgood
  simp only [World.step] at hs
  split at hs
  next =>
    obtain rfl := Option.some.inj hs
    refine ⟨?_, (h.splits.make hsize).control (c.control.setReady i true)⟩
    rw [h.control]
    rfl
  next => cases hs

theorem step_work {t : Thread} {writes : List (Word32 × BitVec 8)} (h : Refines lay w c)
    (hgood : w.Regular lay (.work k t writes)) (hs : w.step lay (.work k t writes) = some w') :
    Refines lay w' (c.step lay (.work k t writes)) := by
  simp only [World.step] at hs
  split at hs
  next =>
    obtain rfl := Option.some.inj hs
    have hallowed : ∀ p ∈ writes, (∀ j, ¬ InBlock (lay.ctx j) contextSize p.1) ∧
        ∀ j, j ≠ c.control.current k → ¬ InBlock (lay.stack j) (lay.size j).toNat p.1 := by
      rw [← h.control]
      exact hgood
    have hwrites := h.splits.writes hallowed
    refine ⟨?_, hwrites.control _⟩
    dsimp only [Coroutines.step]
    rw [writes_control, h.control]
  next => cases hs

/-- Every regular step of the machine is the step of the coroutines. -/
theorem step_refines {op : Switch κ ι} (h : Refines lay w c) (hinv : c.Inv lay)
    (hgood : w.Regular lay op) (hs : w.step lay op = some w') :
    Refines lay w' (c.step lay op) := by
  cases op with
  | work k t writes => exact step_work h hgood hs
  | gctx k i => exact step_gctx h hgood hs
  | sctx k i => exact step_sctx h hinv hgood hs
  | start k => exact step_start h hgood hs
  | make k i routine udata => exact step_make h hgood hs

namespace Coroutines.Inv

theorem save (h : c.Inv lay)
    (hspan : Spans (lay.stack (c.control.current k)) (lay.size (c.control.current k)).toNat
      ((c.control.threads k).regs .esp) 8) : (c.save lay k i).Inv lay := by
  refine ⟨h.alone, fun j hj => ?_⟩
  dsimp only [Coroutines.save, Control.setReady, Control.setThread] at hj ⊢
  by_cases hji : j = i
  · subst hji
    rw [Function.update_self] at hj ⊢
    have hcur : c.control.current k = j := of_decide_eq_true hj
    rw [← hcur, callerFrame]
    dsimp only [machine]
    rw [BitVec.add_sub_cancel]
    exact hspan.mono (by decide)
  · rw [Function.update_of_ne hji] at hj ⊢
    exact h.room j hj

theorem resume (h : c.Inv lay) (hi : ∀ d, c.control.current d ≠ i) :
    (c.resume lay k i).Inv lay := by
  refine ⟨fun d e hde => ?_, h.room⟩
  dsimp only [Coroutines.resume, Control.setCurrent, Control.setThread, storeOwn] at hde
  by_cases hd : d = k
  · by_cases he : e = k
    · rw [hd, he]
    · rw [hd, Function.update_self, Function.update_of_ne he] at hde
      exact absurd hde.symm (hi e)
  · by_cases he : e = k
    · rw [he, Function.update_self, Function.update_of_ne hd] at hde
      exact absurd hde (hi d)
    · rw [Function.update_of_ne hd, Function.update_of_ne he] at hde
      exact h.alone hde

end Coroutines.Inv

/-- A regular step keeps the invariant. -/
theorem step_inv {op : Switch κ ι} (h : Refines lay w c) (hinv : c.Inv lay)
    (hgood : w.Regular lay op) : (c.step lay op).Inv lay := by
  cases op with
  | work k t writes =>
    have hcontrol : (writes.foldl (Coroutines.writeByte lay k) c).control = c.control :=
      writes_control c writes
    refine hinv.congr ?_ ?_ (writes_frames c writes)
    · dsimp only [Coroutines.step]
      rw [hcontrol]
      rfl
    · dsimp only [Coroutines.step]
      rw [hcontrol]
      rfl
  | gctx k i =>
    obtain ⟨-, hspan, -⟩ := hgood
    rw [h.control] at hspan
    exact hinv.save hspan
  | sctx k i =>
    obtain ⟨-, -, -, hi⟩ := hgood
    rw [h.control] at hi
    exact hinv.resume hi
  | start k => exact hinv.congr rfl rfl rfl
  | make k i routine udata =>
    obtain ⟨hsize, -⟩ := hgood
    exact hinv.prepare hsize

end Context

end Yarns
