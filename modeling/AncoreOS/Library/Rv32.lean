import Mathlib.Logic.Function.Basic
import Mathlib.Logic.Relation
import Mathlib.Tactic

/-!
# RV32IM

The instructions of a 32-bit RISC-V hart: the base integer set and the multiplications and divisions.
`decode` reads a word, and `exec` says what an instruction does to the registers, the program counter
and whatever lies behind the bus.  `x0` is zero by construction.

An environment call and a fault of the bus end the step, and leave what happens then to the
environment.
-/

namespace Rv32

abbrev Reg := BitVec 5

abbrev XWord := BitVec 32

/-! ### The fields of a word -/

def opcode (w : XWord) : BitVec 7 := w.extractLsb' 0 7

def rd (w : XWord) : Reg := w.extractLsb' 7 5

def funct3 (w : XWord) : BitVec 3 := w.extractLsb' 12 3

def rs1 (w : XWord) : Reg := w.extractLsb' 15 5

def rs2 (w : XWord) : Reg := w.extractLsb' 20 5

def funct7 (w : XWord) : BitVec 7 := w.extractLsb' 25 7

def immI (w : XWord) : XWord := (w.extractLsb' 20 12).signExtend 32

def immS (w : XWord) : XWord := (w.extractLsb' 25 7 ++ w.extractLsb' 7 5).signExtend 32

def immB (w : XWord) : XWord :=
  (w.extractLsb' 31 1 ++ w.extractLsb' 7 1 ++ w.extractLsb' 25 6 ++ w.extractLsb' 8 4 ++ 0#1).signExtend 32

def immU (w : XWord) : XWord := w.extractLsb' 12 20 ++ 0#12

def immJ (w : XWord) : XWord :=
  (w.extractLsb' 31 1 ++ w.extractLsb' 12 8 ++ w.extractLsb' 20 1 ++ w.extractLsb' 21 10 ++ 0#1).signExtend 32

/-! ### Instructions -/

inductive Alu
  | add | sub | sll | slt | sltu | xor | srl | sra | or | and
  | mul | mulh | mulhsu | mulhu | div | divu | rem | remu
  deriving DecidableEq

inductive Width
  | byte | half | word
  deriving DecidableEq

inductive Cond
  | eq | ne | lt | ge | ltu | geu
  deriving DecidableEq

inductive Instr
  | opImm (op : Alu) (rd rs1 : Reg) (imm : XWord)
  | op (op : Alu) (rd rs1 rs2 : Reg)
  | load (width : Width) (unsigned : Bool) (rd rs1 : Reg) (imm : XWord)
  | store (width : Width) (rs1 rs2 : Reg) (imm : XWord)
  | lui (rd : Reg) (imm : XWord)
  | auipc (rd : Reg) (imm : XWord)
  | branch (cond : Cond) (rs1 rs2 : Reg) (imm : XWord)
  | jal (rd : Reg) (imm : XWord)
  | jalr (rd rs1 : Reg) (imm : XWord)
  | fence
  | ecall
  | ebreak
  deriving DecidableEq

/-- The operation of a register with an immediate.  A shift has no other bits than its amount. -/
def aluImm (f3 : BitVec 3) (f7 : BitVec 7) : Option Alu :=
  match f3 with
  | 0#3 => some .add
  | 1#3 => if f7 = 0 then some .sll else none
  | 2#3 => some .slt
  | 3#3 => some .sltu
  | 4#3 => some .xor
  | 5#3 => if f7 = 0 then some .srl else if f7 = 0x20 then some .sra else none
  | 6#3 => some .or
  | _ => some .and

def aluBase (f3 : BitVec 3) : Alu :=
  match f3 with
  | 0#3 => .add
  | 1#3 => .sll
  | 2#3 => .slt
  | 3#3 => .sltu
  | 4#3 => .xor
  | 5#3 => .srl
  | 6#3 => .or
  | _ => .and

def aluMul (f3 : BitVec 3) : Alu :=
  match f3 with
  | 0#3 => .mul
  | 1#3 => .mulh
  | 2#3 => .mulhsu
  | 3#3 => .mulhu
  | 4#3 => .div
  | 5#3 => .divu
  | 6#3 => .rem
  | _ => .remu

def aluReg (f3 : BitVec 3) (f7 : BitVec 7) : Option Alu :=
  if f7 = 0 then some (aluBase f3)
  else if f7 = 1 then some (aluMul f3)
  else if f7 = 0x20 then
    if f3 = 0 then some .sub else if f3 = 5 then some .sra else none
  else none

def loadKind (f3 : BitVec 3) : Option (Width × Bool) :=
  match f3 with
  | 0#3 => some (.byte, false)
  | 1#3 => some (.half, false)
  | 2#3 => some (.word, false)
  | 4#3 => some (.byte, true)
  | 5#3 => some (.half, true)
  | _ => none

def storeKind (f3 : BitVec 3) : Option Width :=
  match f3 with
  | 0#3 => some .byte
  | 1#3 => some .half
  | 2#3 => some .word
  | _ => none

def branchKind (f3 : BitVec 3) : Option Cond :=
  match f3 with
  | 0#3 => some .eq
  | 1#3 => some .ne
  | 4#3 => some .lt
  | 5#3 => some .ge
  | 6#3 => some .ltu
  | 7#3 => some .geu
  | _ => none

def decode (w : XWord) : Option Instr :=
  match opcode w with
  | 0x13#7 => (aluImm (funct3 w) (funct7 w)).map fun op => .opImm op (rd w) (rs1 w) (immI w)
  | 0x33#7 => (aluReg (funct3 w) (funct7 w)).map fun op => .op op (rd w) (rs1 w) (rs2 w)
  | 0x03#7 => (loadKind (funct3 w)).map fun kind => .load kind.1 kind.2 (rd w) (rs1 w) (immI w)
  | 0x23#7 => (storeKind (funct3 w)).map fun width => .store width (rs1 w) (rs2 w) (immS w)
  | 0x37#7 => some (.lui (rd w) (immU w))
  | 0x17#7 => some (.auipc (rd w) (immU w))
  | 0x63#7 => (branchKind (funct3 w)).map fun cond => .branch cond (rs1 w) (rs2 w) (immB w)
  | 0x6f#7 => some (.jal (rd w) (immJ w))
  | 0x67#7 => if funct3 w = 0 then some (.jalr (rd w) (rs1 w) (immI w)) else none
  | 0x0f#7 => if funct3 w = 0 then some .fence else none
  | 0x73#7 => if w = 0x00000073 then some .ecall else if w = 0x00100073 then some .ebreak else none
  | _ => none

/-! ### The hart -/

/-- What lies behind the bus.  A negative answer is a fault, and a read gives the bytes in the low
end. -/
structure HartBus (σ : Type*) where
  read : σ → XWord → Nat → Int × XWord × σ
  write : σ → XWord → XWord → Nat → Int × σ

@[ext]
structure Hart (σ : Type*) where
  x : Reg → XWord
  pc : XWord
  mem : σ
  zero : x 0 = 0

variable {σ : Type*}

def Hart.set (h : Hart σ) (r : Reg) (v : XWord) : Hart σ where
  x := Function.update (Function.update h.x r v) 0 0
  pc := h.pc
  mem := h.mem
  zero := Function.update_self 0 0 _

def Hart.jump (h : Hart σ) (pc : XWord) : Hart σ := { h with pc := pc }

def Hart.withMem (h : Hart σ) (mem : σ) : Hart σ := { h with mem := mem }

theorem Hart.jump_eq_jump_iff (h : Hart σ) {pc pc' : XWord} : h.jump pc = h.jump pc' ↔ pc = pc' := by
  constructor
  · intro heq
    exact congrArg Hart.pc heq
  · rintro rfl
    rfl

theorem Hart.set_of_ne (h : Hart σ) {r q : Reg} (v : XWord) (hq : q ≠ r) : (h.set r v).x q = h.x q := by
  by_cases hz : q = 0
  · rw [hz, Hart.zero, Hart.zero]
  · exact (Function.update_of_ne hz _ _).trans (Function.update_of_ne hq _ _)

theorem Hart.set_self (h : Hart σ) {r : Reg} (v : XWord) (hr : r ≠ 0) : (h.set r v).x r = v :=
  (Function.update_of_ne hr _ _).trans (Function.update_self ..)

/-- Nothing is written to `x0`. -/
theorem Hart.set_zero (h : Hart σ) (v : XWord) : h.set 0 v = h := by
  refine Hart.ext (funext fun q => ?_) rfl rfl
  by_cases hq : q = 0
  · rw [hq, Hart.zero, Hart.zero]
  · exact h.set_of_ne v hq

theorem Hart.set_eq_set_iff (h : Hart σ) {r : Reg} {v v' : XWord} : h.set r v = h.set r v' ↔ r = 0 ∨ v = v' := by
  constructor
  · intro heq
    by_cases hr : r = 0
    · exact Or.inl hr
    · have hx := congrArg (fun h => Hart.x h r) heq
      exact Or.inr ((h.set_self v hr).symm.trans (hx.trans (h.set_self v' hr)))
  · rintro (rfl | rfl)
    · rw [Hart.set_zero, Hart.set_zero]
    · rfl

/-! ### Arithmetic -/

def alu (op : Alu) (a b : XWord) : XWord :=
  match op with
  | .add => a + b
  | .sub => a - b
  | .sll => a <<< (b.toNat % 32)
  | .slt => if a.slt b then 1 else 0
  | .sltu => if a.ult b then 1 else 0
  | .xor => a ^^^ b
  | .srl => a >>> (b.toNat % 32)
  | .sra => a.sshiftRight (b.toNat % 32)
  | .or => a ||| b
  | .and => a &&& b
  | .mul => a * b
  | .mulh => (a.signExtend 64 * b.signExtend 64).extractLsb' 32 32
  | .mulhsu => (a.signExtend 64 * b.setWidth 64).extractLsb' 32 32
  | .mulhu => (a.setWidth 64 * b.setWidth 64).extractLsb' 32 32
  | .div => if b = 0 then -1 else a.sdiv b
  | .divu => if b = 0 then -1 else a / b
  | .rem => if b = 0 then a else a.srem b
  | .remu => if b = 0 then a else a % b

def Cond.holds (cond : Cond) (a b : XWord) : Bool :=
  match cond with
  | .eq => a = b
  | .ne => a ≠ b
  | .lt => a.slt b
  | .ge => !a.slt b
  | .ltu => a.ult b
  | .geu => !a.ult b

def Width.bytes : Width → Nat
  | .byte => 1
  | .half => 2
  | .word => 4

/-- What a load makes of the bytes. -/
def Width.extend (width : Width) (unsigned : Bool) (v : XWord) : XWord :=
  match width with
  | .byte => if unsigned then (v.setWidth 8).setWidth 32 else (v.setWidth 8).signExtend 32
  | .half => if unsigned then (v.setWidth 16).setWidth 32 else (v.setWidth 16).signExtend 32
  | .word => v

/-- The bytes that a store writes. -/
def Width.truncate (width : Width) (v : XWord) : XWord :=
  match width with
  | .byte => (v.setWidth 8).setWidth 32
  | .half => (v.setWidth 16).setWidth 32
  | .word => v

theorem signExtend_eq_iff {k : Nat} (hk : 0 < k) (hlt : k < 32) (v : BitVec k) :
    v.setWidth 32 = v.signExtend 32 ↔ v.getLsbD (k - 1) = false := by
  rw [← BitVec.msb_eq_getLsbD_last]
  constructor
  · intro heq
    have hbit := congrArg (BitVec.getLsbD · 31) heq
    simp only [BitVec.getLsbD_setWidth, BitVec.getLsbD_signExtend, BitVec.getLsbD_of_ge v 31 (by omega),
      Bool.and_false, if_neg (show ¬31 < k by omega), show decide (31 < 32) = true from rfl,
      Bool.true_and] at hbit
    exact hbit.symm
  · intro hmsb
    exact (BitVec.signExtend_eq_setWidth_of_msb_false hmsb).symm

/-- The sign of the bytes of a load. -/
def Width.sign (width : Width) (v : XWord) : Bool :=
  match width with
  | .byte => v.getLsbD 7
  | .half => v.getLsbD 15
  | .word => false

/-- The signed load differs from the unsigned one by the sign only. -/
theorem Width.extend_eq_iff (width : Width) (unsigned : Bool) (v : XWord) :
    width.extend true v = width.extend unsigned v ↔ unsigned = true ∨ width.sign v = false := by
  cases unsigned with
  | true => exact iff_of_true rfl (Or.inl rfl)
  | false =>
    cases width with
    | byte => simpa [extend, sign] using signExtend_eq_iff (by decide) (by decide) (v.setWidth 8)
    | half => simpa [extend, sign] using signExtend_eq_iff (by decide) (by decide) (v.setWidth 16)
    | word => exact iff_of_true rfl (Or.inr rfl)

/-! ### Execution -/

inductive Outcome (σ : Type*)
  | next (h : Hart σ)
  | fault (e : Int) (h : Hart σ)
  | call (breakpoint : Bool) (h : Hart σ)
  | illegal (h : Hart σ)

def exec (bus : HartBus σ) (i : Instr) (h : Hart σ) : Outcome σ :=
  match i with
  | .opImm op rd rs1 imm => .next ((h.set rd (alu op (h.x rs1) imm)).jump (h.pc + 4))
  | .op op rd rs1 rs2 => .next ((h.set rd (alu op (h.x rs1) (h.x rs2))).jump (h.pc + 4))
  | .load width unsigned rd rs1 imm =>
      let (e, v, mem) := bus.read h.mem (h.x rs1 + imm) width.bytes
      if e < 0 then .fault e (h.withMem mem)
      else .next (((h.withMem mem).set rd (width.extend unsigned v)).jump (h.pc + 4))
  | .store width rs1 rs2 imm =>
      let (e, mem) := bus.write h.mem (h.x rs1 + imm) (width.truncate (h.x rs2)) width.bytes
      if e < 0 then .fault e (h.withMem mem) else .next ((h.withMem mem).jump (h.pc + 4))
  | .lui rd imm => .next ((h.set rd imm).jump (h.pc + 4))
  | .auipc rd imm => .next ((h.set rd (h.pc + imm)).jump (h.pc + 4))
  | .branch cond rs1 rs2 imm =>
      .next (h.jump (if cond.holds (h.x rs1) (h.x rs2) then h.pc + imm else h.pc + 4))
  | .jal rd imm => .next ((h.set rd (h.pc + 4)).jump (h.pc + imm))
  | .jalr rd rs1 imm => .next ((h.set rd (h.pc + 4)).jump ((h.x rs1 + imm) &&& ~~~1))
  | .fence => .next (h.jump (h.pc + 4))
  | .ecall => .call false (h.jump (h.pc + 4))
  | .ebreak => .call true (h.jump (h.pc + 4))

theorem exec_ne_illegal (bus : HartBus σ) (i : Instr) (h h' : Hart σ) : exec bus i h ≠ .illegal h' := by
  cases i with
  | load width unsigned rd rs1 imm =>
    simp only [exec]
    split <;> exact fun heq => by cases heq
  | store width rs1 rs2 imm =>
    simp only [exec]
    split <;> exact fun heq => by cases heq
  | _ => exact fun heq => by cases heq

/-- Fetch, decode and execute. -/
def step (bus : HartBus σ) (h : Hart σ) : Outcome σ :=
  let (e, w, mem) := bus.read h.mem h.pc 4
  if e < 0 then .fault e (h.withMem mem)
  else
    match decode w with
    | some i => exec bus i (h.withMem mem)
    | none => .illegal (h.withMem mem)

/-! ### Runs -/

/-- What follows a step when the environment serves the calls.  The number is zero as long as the hart
goes on. -/
def resume (env : Bool → Hart σ → Int × Hart σ) : Outcome σ → Option (Int × Hart σ)
  | .next h => some (0, h)
  | .fault e h => some (e, h)
  | .call breakpoint h => some (env breakpoint h)
  | .illegal _ => none

def Steps (bus : HartBus σ) (env : Bool → Hart σ → Int × Hart σ) (h h' : Hart σ) : Prop :=
  resume env (step bus h) = some (0, h')

abbrev Runs (bus : HartBus σ) (env : Bool → Hart σ → Int × Hart σ) : Hart σ → Hart σ → Prop :=
  Relation.ReflTransGen (Steps bus env)

theorem step_of_read {bus : HartBus σ} {h : Hart σ} {e : Int} {w : XWord} {mem : σ} {i : Instr}
    (hread : bus.read h.mem h.pc 4 = (e, w, mem)) (he : ¬e < 0) (hw : decode w = some i) :
    step bus h = exec bus i (h.withMem mem) := by
  rw [step, hread]
  dsimp only
  rw [if_neg he, hw]

theorem step_of_fault {bus : HartBus σ} {h : Hart σ} {e : Int} {w : XWord} {mem : σ}
    (hread : bus.read h.mem h.pc 4 = (e, w, mem)) (he : e < 0) : step bus h = .fault e (h.withMem mem) := by
  rw [step, hread]
  exact if_pos he

end Rv32
