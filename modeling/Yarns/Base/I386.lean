import Yarns.Base.ByteMemory

/-!
# Straight-line code of a 32-bit processor

The general registers, a memory of bytes, and `movl`, `addl`, `xorl`, `pushl`, `popl`,
`call`, `ret` and `ud2`, with the operands in the order of the GNU assembler (source before
destination). `exec` runs a routine from its first instruction until control leaves it: the
result is the address control goes to and the machine it finds there. A routine that traps
or runs off its end has none. The flags are left out, as no instruction here reads them.
-/

namespace Yarns.Base

inductive Reg
  | eax | ebx | ecx | edx | esi | edi | ebp | esp
  deriving DecidableEq

structure Machine where
  regs : Reg → Word32
  mem : ByteMemory

/-- `mem disp base` is `disp(base)`. -/
inductive Operand
  | imm (v : Word32)
  | reg (r : Reg)
  | mem (disp : Word32) (base : Reg)

/-- `next` is the address behind a call. -/
inductive Instr
  | movl (src dst : Operand)
  | addl (src dst : Operand)
  | xorl (src dst : Operand)
  | pushl (src : Operand)
  | popl (dst : Operand)
  | call (target : Operand) (next : Word32)
  | ret
  | ud2

namespace Machine

def set (m : Machine) (r : Reg) (v : Word32) : Machine :=
  { m with regs := Function.update m.regs r v }

def read (m : Machine) : Operand → Word32
  | .imm v => v
  | .reg r => m.regs r
  | .mem disp base => load32 m.mem (m.regs base + disp)

/-- An immediate value is no destination. -/
def write (m : Machine) (v : Word32) : Operand → Machine
  | .imm _ => m
  | .reg r => m.set r v
  | .mem disp base => { m with mem := store32 m.mem (m.regs base + disp) v }

/-- The word on the top of the stack. -/
def top (m : Machine) : Word32 := load32 m.mem (m.regs .esp)

def push (m : Machine) (v : Word32) : Machine :=
  { regs := Function.update m.regs .esp (m.regs .esp - 4#32)
    mem := store32 m.mem (m.regs .esp - 4#32) v }

def pop (m : Machine) : Machine := m.set .esp (m.regs .esp + 4#32)

def exec : List Instr → Machine → Option (Word32 × Machine)
  | [], _ => none
  | .movl src dst :: is, m => exec is (m.write (m.read src) dst)
  | .addl src dst :: is, m => exec is (m.write (m.read dst + m.read src) dst)
  | .xorl src dst :: is, m => exec is (m.write (m.read dst ^^^ m.read src) dst)
  | .pushl src :: is, m => exec is (m.push (m.read src))
  | .popl dst :: is, m => exec is (m.pop.write m.top dst)
  | .call target next :: _, m => some (m.read target, m.push next)
  | .ret :: _, m => some (m.top, m.pop)
  | .ud2 :: _, _ => none

variable {m : Machine} {r : Reg} {v : Word32}

@[simp] theorem set_regs : (m.set r v).regs = Function.update m.regs r v := rfl

@[simp] theorem set_mem : (m.set r v).mem = m.mem := rfl

@[simp] theorem write_reg : m.write v (.reg r) = m.set r v := rfl

@[simp] theorem read_imm : m.read (.imm v) = v := rfl

@[simp] theorem read_reg : m.read (.reg r) = m.regs r := rfl

/-- A word that was pushed is on top. -/
@[simp] theorem push_top : (m.push v).top = v := by
  rw [top, push]
  dsimp only
  rw [Function.update_self, load32_store32]

end Machine

end Yarns.Base
