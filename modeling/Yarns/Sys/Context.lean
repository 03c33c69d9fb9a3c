import Yarns.Base.I386

/-!
# Contexts on the i386

`src/context/i386`: the routines of `context.s`, and the functions of `context.c` that
prepare a context. A `yarn_context_t` has eight words, in this order: `address`, `ebx`,
`ebp`, `esi`, `edi`, `esp`, `stackPointer`, `stackSize`. The first six are the frame that
`gctx` stores and `sctx` goes back to.

The addresses of the routines, and of what stands behind the call in `start`, are where
the linker puts them.
-/

namespace Yarns

open Base

namespace Context

/-- What a context keeps of the processor. -/
structure Frame where
  address : Word32
  ebx : Word32
  ebp : Word32
  esi : Word32
  edi : Word32
  esp : Word32
  deriving DecidableEq

/-- The frame in the context at `ctx`. -/
def frameAt (mem : ByteMemory) (ctx : Word32) : Frame where
  address := load32 mem (ctx + 0#32)
  ebx := load32 mem (ctx + 4#32)
  ebp := load32 mem (ctx + 8#32)
  esi := load32 mem (ctx + 12#32)
  edi := load32 mem (ctx + 16#32)
  esp := load32 mem (ctx + 20#32)

/-- The bytes of a frame. -/
def frameSize : Nat := 24

/-- `sizeof(yarn_context_t)`. -/
def contextSize : Nat := 32

/-! ## `context.s` -/

/-- `___ctx_gctx`. -/
def gctx : List Instr :=
  [.xorl (.reg .eax) (.reg .eax),
    .movl (.mem 4#32 .esp) (.reg .ecx),
    .movl (.reg .ebx) (.mem 4#32 .ecx),
    .movl (.reg .ebp) (.mem 8#32 .ecx),
    .movl (.reg .esi) (.mem 12#32 .ecx),
    .movl (.reg .edi) (.mem 16#32 .ecx),
    .movl (.reg .esp) (.mem 20#32 .ecx),
    .addl (.imm 4#32) (.mem 20#32 .ecx),
    .movl (.mem 0#32 .esp) (.reg .edx),
    .movl (.reg .edx) (.mem 0#32 .ecx),
    .ret]

/-- `___ctx_sctx`. -/
def sctx : List Instr :=
  [.movl (.imm 1#32) (.reg .eax),
    .movl (.mem 4#32 .esp) (.reg .ecx),
    .movl (.mem 4#32 .ecx) (.reg .ebx),
    .movl (.mem 8#32 .ecx) (.reg .ebp),
    .movl (.mem 12#32 .ecx) (.reg .esi),
    .movl (.mem 16#32 .ecx) (.reg .edi),
    .movl (.mem 20#32 .ecx) (.reg .esp),
    .pushl (.mem 0#32 .ecx),
    .ret]

/-- `___ctx_start`; `trap` is the address of the `ud2`. -/
def start (trap : Word32) : List Instr :=
  [.popl (.reg .eax),
    .call (.reg .eax) trap,
    .ud2]

/-! ## `context.c` -/

def yarnContextSetStack (ctx stack size : Word32) (mem : ByteMemory) : ByteMemory :=
  store32 (store32 mem (ctx + 24#32) stack) (ctx + 28#32) size

/-- The four words that a new stack begins with are stored from here on. -/
def stackTop (stackPointer stackSize : Word32) : Word32 :=
  ((stackPointer + stackSize - 4#32 - 8#32) &&& ~~~15#32) - 8#32

/-- The four words: where `sctx` jumps to, the routine, and what it finds as arguments. -/
def storeStack (entry ctx routine udata stackTop : Word32) (mem : ByteMemory) : ByteMemory :=
  let mem := store32 mem (stackTop + 0#32) entry
  let mem := store32 mem (stackTop + 4#32) routine
  let mem := store32 mem (stackTop + 8#32) udata
  store32 mem (stackTop + 12#32) ctx

/-- `entry` is the address of `start`. -/
def yarnContextMake (entry ctx routine udata : Word32) (mem : ByteMemory) : ByteMemory :=
  let stackTop := stackTop (load32 mem (ctx + 24#32)) (load32 mem (ctx + 28#32))
  let mem := storeStack entry ctx routine udata stackTop mem
  let mem := store32 mem (ctx + 12#32) (stackTop + 16#32)
  let mem := store32 mem (ctx + 8#32) 0#32
  let mem := store32 mem (ctx + 20#32) (stackTop + 4#32)
  store32 mem (ctx + 0#32) entry

/-! ## What the routines do -/

variable {m : Machine} {mem mem' : ByteMemory} {ctx trap x : Word32}

/-- The registers when `gctx` has returned. -/
def saved (regs : Reg → Word32) (ctx ra : Word32) : Reg → Word32
  | .eax => 0#32
  | .ecx => ctx
  | .edx => ra
  | .esp => regs .esp + 4#32
  | r => regs r

/-- The registers when `sctx` has gone back to a frame. -/
def restored (regs : Reg → Word32) (ctx : Word32) (f : Frame) : Reg → Word32
  | .eax => 1#32
  | .ebx => f.ebx
  | .ecx => ctx
  | .edx => regs .edx
  | .esi => f.esi
  | .edi => f.edi
  | .ebp => f.ebp
  | .esp => f.esp

/-- The frame `gctx` stores: to go on behind its call. -/
def callerFrame (m : Machine) : Frame where
  address := m.top
  ebx := m.regs .ebx
  ebp := m.regs .ebp
  esi := m.regs .esi
  edi := m.regs .edi
  esp := m.regs .esp + 4#32

/-- A store outside the frame. -/
theorem frameAt_congr (h : ∀ x, InBlock ctx frameSize x → mem x = mem' x) :
    frameAt mem ctx = frameAt mem' ctx := by
  have hload (d : Word32) (hd : d.toNat + 4 ≤ frameSize) :
      load32 mem (ctx + d) = load32 mem' (ctx + d) :=
    load32_congr fun x hx => h x ((spans_add hd).inBlock_word hx)
  rw [frameAt, frameAt, hload 0#32 (by decide), hload 4#32 (by decide), hload 8#32 (by decide),
    hload 12#32 (by decide), hload 16#32 (by decide), hload 20#32 (by decide)]

/-- The registers stored, with the stack pointer as it is behind the call. -/
def storeRegisters (m : Machine) (ctx : Word32) : ByteMemory :=
  let mem := store32 m.mem (ctx + 4#32) (m.regs .ebx)
  let mem := store32 mem (ctx + 8#32) (m.regs .ebp)
  let mem := store32 mem (ctx + 12#32) (m.regs .esi)
  let mem := store32 mem (ctx + 16#32) (m.regs .edi)
  let mem := store32 mem (ctx + 20#32) (m.regs .esp)
  store32 mem (ctx + 20#32) (m.regs .esp + 4#32)

/-- The stores of `gctx`. -/
def storeFrame (m : Machine) (ctx : Word32) : ByteMemory :=
  store32 (storeRegisters m ctx) (ctx + 0#32) m.top

/-- Words of one context are apart. -/
theorem field_apart {d e v : Word32} (h : WordsApart d e) :
    load32 (store32 mem (ctx + d) v) (ctx + e) = load32 mem (ctx + e) :=
  load32_store32_of_apart (wordsApart_add h)

theorem frameAt_storeFrame : frameAt (storeFrame m ctx) ctx = callerFrame m := by
  simp (disch := decide) only [frameAt, storeFrame, storeRegisters, callerFrame, load32_store32,
    field_apart]

theorem not_inWord_of_not_inBlock {d : Word32} (hx : ¬ InBlock ctx frameSize x)
    (hd : d.toNat + 4 ≤ frameSize) : ¬ InWord (ctx + d) x :=
  fun hin => hx ((spans_add hd).inBlock_word hin)

theorem storeRegisters_of_not_inBlock (hx : ¬ InBlock ctx frameSize x) :
    storeRegisters m ctx x = m.mem x := by
  have hword (d : Word32) (hd : d.toNat + 4 ≤ frameSize) := not_inWord_of_not_inBlock hx hd
  simp only [storeRegisters]
  rw [store32_of_not_inWord (hword 20#32 (by decide)),
    store32_of_not_inWord (hword 20#32 (by decide)),
    store32_of_not_inWord (hword 16#32 (by decide)),
    store32_of_not_inWord (hword 12#32 (by decide)),
    store32_of_not_inWord (hword 8#32 (by decide)), store32_of_not_inWord (hword 4#32 (by decide))]

theorem storeFrame_of_not_inBlock (hx : ¬ InBlock ctx frameSize x) :
    storeFrame m ctx x = m.mem x := by
  rw [storeFrame, store32_of_not_inWord (not_inWord_of_not_inBlock hx (by decide))]
  exact storeRegisters_of_not_inBlock hx

/-- `gctx` stores the frame of its caller and returns 0, if the context does not lie over
the return address. -/
theorem exec_gctx (harg : m.read (.mem 4#32 .esp) = ctx)
    (hstack : ∀ x, InWord (m.regs .esp) x → ¬ InBlock ctx frameSize x) :
    m.exec gctx = some (m.top, ⟨saved m.regs ctx m.top, storeFrame m ctx⟩) := by
  have hra : load32 (storeRegisters m ctx) (m.regs .esp + 0#32) = m.top := by
    rw [BitVec.add_zero]
    exact load32_congr fun x hx => storeRegisters_of_not_inBlock (hstack x hx)
  have htop : load32 (storeFrame m ctx) (m.regs .esp) = m.top :=
    load32_congr fun x hx => storeFrame_of_not_inBlock (hstack x hx)
  have hexec : m.exec gctx = some
      (load32 (store32 (storeRegisters m ctx) (ctx + 0#32)
        (load32 (storeRegisters m ctx) (m.regs .esp + 0#32))) (m.regs .esp),
      ⟨saved m.regs ctx (load32 (storeRegisters m ctx) (m.regs .esp + 0#32)),
        store32 (storeRegisters m ctx) (ctx + 0#32)
          (load32 (storeRegisters m ctx) (m.regs .esp + 0#32))⟩) := by
    rw [Machine.read] at harg
    simp only [gctx, Machine.exec, Machine.write, Machine.read, Machine.set, Machine.pop,
      Machine.top, harg, Function.update_self, Function.update_of_ne, ne_eq, reduceCtorEq,
      not_false_eq_true, load32_store32, BitVec.xor_self, storeRegisters]
    congr 3
    funext r
    cases r <;> rfl
  rw [hexec, hra]
  rw [← storeFrame, htop]

/-- `sctx` goes back to the frame of its argument, with 1 as the result. The word below the
stack of the frame is lost. -/
theorem exec_sctx (harg : m.read (.mem 4#32 .esp) = ctx) :
    m.exec sctx = some ((frameAt m.mem ctx).address,
      ⟨restored m.regs ctx (frameAt m.mem ctx),
        store32 m.mem ((frameAt m.mem ctx).esp - 4#32) (frameAt m.mem ctx).address⟩) := by
  rw [Machine.read] at harg
  simp only [sctx, Machine.exec, Machine.write, Machine.read, Machine.set, Machine.pop,
    Machine.top, Machine.push, harg, Function.update_self, Function.update_of_ne, ne_eq,
    reduceCtorEq, not_false_eq_true, frameAt, load32_store32, BitVec.sub_add_cancel]
  congr 3
  funext r
  cases r <;> rfl

/-- `start` calls the routine on top of the stack. -/
theorem exec_start : m.exec (start trap) = some (m.top,
    ⟨Function.update m.regs .eax m.top, store32 m.mem (m.regs .esp) trap⟩) := by
  simp only [start, Machine.exec, Machine.write, Machine.read, Machine.set, Machine.pop,
    Machine.push, Function.update_self, Function.update_of_ne, ne_eq, reduceCtorEq,
    not_false_eq_true, BitVec.add_sub_cancel]
  congr 3
  funext r
  cases r <;> rfl

/-! ## A new stack -/

variable {entry routine udata top stack size v : Word32}

/-- The stack pointer with which `start` is entered: the four words are on the stack, and
the third of them, which is the argument of the routine, is aligned. -/
theorem stackTop_spec (stack : Word32) (hsize : 35 ≤ size.toNat) :
    Spans stack size.toNat (stackTop stack size) 16 ∧
      ((stackTop stack size).toNat + 8) % 16 = 0 := by
  have hmask : (15#32 : Word32) = BitVec.ofNat 32 (2 ^ 4 - 1) := rfl
  have hround := and_not_low_toNat (k := 4) (stack + size - 4#32 - 8#32)
  rw [← hmask] at hround
  rw [Spans, stackTop]
  constructor
  · bv_omega
  · bv_omega

theorem storeStack_of_not_inBlock (hx : ¬ InBlock top 16 x) :
    storeStack entry ctx routine udata top mem x = mem x := by
  have hword (d : Word32) (hd : d.toNat + 4 ≤ 16) : ¬ InWord (top + d) x :=
    fun hin => hx ((spans_add hd).inBlock_word hin)
  simp only [storeStack]
  rw [store32_of_not_inWord (hword 12#32 (by decide)),
    store32_of_not_inWord (hword 8#32 (by decide)), store32_of_not_inWord (hword 4#32 (by decide)),
    store32_of_not_inWord (hword 0#32 (by decide))]

/-- Each byte depends on the same byte before. -/
theorem storeStack_congr (h : mem x = mem' x) :
    storeStack entry ctx routine udata top mem x =
      storeStack entry ctx routine udata top mem' x := by
  simp only [storeStack, store32, h]

/-- The stores of `yarn_context_make` outside the frame are those on the new stack. -/
theorem yarnContextMake_of_not_inBlock (hx : ¬ InBlock ctx frameSize x) :
    yarnContextMake entry ctx routine udata mem x =
      storeStack entry ctx routine udata
        (stackTop (load32 mem (ctx + 24#32)) (load32 mem (ctx + 28#32))) mem x := by
  have hword (d : Word32) (hd : d.toNat + 4 ≤ frameSize) := not_inWord_of_not_inBlock hx hd
  simp only [yarnContextMake]
  rw [store32_of_not_inWord (hword 0#32 (by decide)),
    store32_of_not_inWord (hword 20#32 (by decide)),
    store32_of_not_inWord (hword 8#32 (by decide)), store32_of_not_inWord (hword 12#32 (by decide))]

/-- The frame of a context that is to begin with `start` on the stack from `top` on. -/
def Frame.made (f : Frame) (entry top : Word32) : Frame :=
  { f with address := entry, ebp := 0#32, esi := top + 16#32, esp := top + 4#32 }

theorem frameAt_yarnContextMake
    (hstack : ∀ x, InBlock ctx frameSize x →
      ¬ InBlock (stackTop (load32 mem (ctx + 24#32)) (load32 mem (ctx + 28#32))) 16 x) :
    frameAt (yarnContextMake entry ctx routine udata mem) ctx =
      (frameAt mem ctx).made entry
        (stackTop (load32 mem (ctx + 24#32)) (load32 mem (ctx + 28#32))) := by
  have hframe : frameAt (storeStack entry ctx routine udata
      (stackTop (load32 mem (ctx + 24#32)) (load32 mem (ctx + 28#32))) mem) ctx =
      frameAt mem ctx :=
    frameAt_congr fun x hx => storeStack_of_not_inBlock (hstack x hx)
  have hebx := congrArg Frame.ebx hframe
  have hedi := congrArg Frame.edi hframe
  simp only [frameAt] at hebx hedi
  simp (disch := decide) only [frameAt, yarnContextMake, Frame.made, load32_store32, field_apart]
  rw [hebx, hedi]

theorem yarnContextSetStack_stackPointer :
    load32 (yarnContextSetStack ctx stack size mem) (ctx + 24#32) = stack := by
  simp (disch := decide) only [yarnContextSetStack, field_apart, load32_store32]

theorem yarnContextSetStack_stackSize :
    load32 (yarnContextSetStack ctx stack size mem) (ctx + 28#32) = size := by
  simp only [yarnContextSetStack, load32_store32]

theorem frameAt_yarnContextSetStack :
    frameAt (yarnContextSetStack ctx stack size mem) ctx = frameAt mem ctx := by
  simp (disch := decide) only [frameAt, yarnContextSetStack, field_apart]

theorem yarnContextSetStack_of_not_inBlock (hx : ¬ InBlock ctx contextSize x) :
    yarnContextSetStack ctx stack size mem x = mem x := by
  have hword (d : Word32) (hd : d.toNat + 4 ≤ contextSize) : ¬ InWord (ctx + d) x :=
    fun hin => hx ((spans_add hd).inBlock_word hin)
  rw [yarnContextSetStack, store32_of_not_inWord (hword 28#32 (by decide)),
    store32_of_not_inWord (hword 24#32 (by decide))]

end Context

end Yarns
