import AncoreOS.Library.WordStack
import Mathlib.Logic.Function.Basic

/-!
# The processor at an interrupt

As much of the x86-64 processor as the interrupt stubs use: the fifteen
general-purpose registers, the stack pointer, the words an interrupt pushes, and
the instructions of `isr_stubs.asm`.  The bit `1` of `RFLAGS` always reads as
one, and the state carries that as a field.

An interrupt pushes `SS`, the old `RSP`, `RFLAGS`, `CS` and `RIP` on the stack
the processor chose, and for some causes an error code.
-/

namespace AncoreOS.Arch

open ByteMemory

inductive Reg
  | rax | rbx | rcx | rdx | rsi | rdi | rbp
  | r8 | r9 | r10 | r11 | r12 | r13 | r14 | r15
  deriving DecidableEq, Repr

structure Cpu where
  regs : Reg → Word
  rsp : Word
  rip : Word
  rflags : Word
  cs : Word
  ss : Word
  mem : Mem
  rflagsFixed : rflags.getLsbD 1 = true

namespace Cpu

def push (c : Cpu) (v : Word) : Cpu :=
  { c with
    rsp := c.rsp - 8
    mem := store64 c.mem (c.rsp - 8) v }

/-- The interrupt flag is bit `9` of `RFLAGS`. -/
def cli (c : Cpu) : Cpu :=
  { c with
    rflags := c.rflags &&& ~~~0x200
    rflagsFixed := by
      rw [BitVec.getLsbD_and, c.rflagsFixed]
      decide }

/-- The words `ws` are on the stack, the top one first. -/
def Stack (c : Cpu) (ws : List Word) : Prop := Holds c.mem c.rsp ws

@[simp] theorem push_regs (c : Cpu) (v : Word) : (c.push v).regs = c.regs := rfl

theorem Stack.push {c : Cpu} {ws : List Word} (h : c.Stack ws) (hlen : ws.length < 2 ^ 60)
    (v : Word) : (c.push v).Stack (v :: ws) := Holds.push h hlen v

end Cpu

/-! ### Instructions -/

inductive Insn
  | cli
  | pushImm (v : Word)
  | push (r : Reg)
  | movRsp (r : Reg)
  | call (next : Word)
  deriving Repr

/-- `call` is left in the called function, with the address of the next
instruction on the stack. -/
def Insn.exec (c : Cpu) : Insn → Cpu
  | .cli => c.cli
  | .pushImm v => c.push v
  | .push r => c.push (c.regs r)
  | .movRsp r => { c with regs := Function.update c.regs r c.rsp }
  | .call next => c.push next

def run (c : Cpu) (is : List Insn) : Cpu := is.foldl Insn.exec c

theorem run_append (c : Cpu) (is js : List Insn) : run c (is ++ js) = run (run c is) js :=
  List.foldl_append

/-- Pushing registers one after the other leaves them on the stack in reverse. -/
theorem run_push {ws : List Word} :
    ∀ (rs : List Reg) (c : Cpu), c.Stack ws → ws.length + rs.length < 2 ^ 60 →
      (run c (rs.map .push)).Stack ((rs.map c.regs).reverse ++ ws) ∧
        (run c (rs.map .push)).regs = c.regs := by
  intro rs
  induction rs generalizing ws with
  | nil => exact fun c h _ => ⟨h, rfl⟩
  | cons r rs ih =>
    intro c h hlen
    rw [List.length_cons] at hlen
    obtain ⟨hstack, hregs⟩ := ih (c.push (c.regs r)) (h.push (by omega) _)
      (by rw [List.length_cons]; omega)
    rw [Cpu.push_regs] at hstack hregs
    refine ⟨?_, hregs⟩
    have hlist : ((r :: rs).map c.regs).reverse ++ ws = (rs.map c.regs).reverse ++ c.regs r :: ws := by
      simp
    rw [hlist]
    exact hstack

/-! ### Delivery -/

/-- An interrupt: its vector, the error code if the processor pushes one, and the
stack it pushes to. -/
structure Interrupt where
  vector : BitVec 8
  error : Option Word
  sp : Word

def Cpu.deliver (c : Cpu) (irq : Interrupt) : Cpu :=
  let c' := { c with rsp := irq.sp }
  let c' := ((((c'.push c.ss).push c.rsp).push c.rflags).push c.cs).push c.rip
  match irq.error with
  | none => c'
  | some e => c'.push e

theorem deliver_stack (c : Cpu) (irq : Interrupt) :
    (c.deliver irq).Stack (irq.error.toList ++ [c.rip, c.cs, c.rflags, c.rsp, c.ss]) ∧
      (c.deliver irq).regs = c.regs := by
  have h0 : ({ c with rsp := irq.sp } : Cpu).Stack [] := holds_nil _ _
  have h5 := ((((h0.push (by simp) c.ss).push (by simp) c.rsp).push (by simp)
    c.rflags).push (by simp) c.cs).push (by simp) c.rip
  unfold Cpu.deliver
  cases irq.error with
  | none => exact ⟨h5, rfl⟩
  | some e => exact ⟨h5.push (by simp) e, rfl⟩

end AncoreOS.Arch
