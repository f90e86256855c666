import AncoreOS.Library.Rv32

/-!
# The RISC-V emulator

`drivers/emul/rv_vm.h` is an interpreter for RV32 programs.  `rv_vm_step` fetches a word with the
`read` of its host, takes its fields apart and does what the instruction says; an error of the host or
an instruction that it does not know ends the step with a negative number.

The fields are masked and shifted out of the word as in the macros.  An `int32_t` wraps, and is a word
of 32 bits here; what C leaves undefined is `Stop.undefined`: a shift by 32 bits or more, a division
by zero, and an index or a read beyond an object.
-/

namespace AncoreOS.Drivers

open Rv32 (Reg XWord)

/-- The host's callbacks.  A read puts its bytes into a word that was zero. -/
structure RvHost (σ : Type) where
  read : σ → XWord → Nat → Int × XWord × σ
  write32 : σ → XWord → XWord → Nat → Int × σ

/-- The machine, and the state of its host. -/
structure RvVm (σ : Type) where
  regs : Reg → XWord
  ip : XWord
  host : σ

/-- `on_syscall` and `on_breakpoint`. -/
abbrev OnEnviron (σ : Type) := Bool → RvVm σ → Int × RvVm σ

/-- A step that does not return. -/
inductive Stop
  | panic
  | undefined
  deriving DecidableEq

def rvVmErrNon32Bit : Int := 1

def rvVmErrUnsupOpcode : Int := 2

/-! ### The fields of an instruction -/

def rvGetInstLen16 (tag : XWord) : XWord :=
  if tag &&& 0x3 ≠ 0x3 then 1
  else if tag >>> 2 &&& 0x7 ≠ 0x7 then 2
  else if tag >>> 5 &&& 0x1 ≠ 0x1 then 4
  else 0

def rvR32Op (dword : XWord) : XWord := dword &&& 0x7f

def rvR32Rd (dword : XWord) : XWord := dword >>> 7 &&& 0x1f

def rvR32R1 (dword : XWord) : XWord := dword >>> 15 &&& 0x1f

def rvR32R2 (dword : XWord) : XWord := dword >>> 20 &&& 0x1f

def rvR32ImmU (dword : XWord) : XWord := dword.sshiftRight 12

def rvR32ImmI (dword : XWord) : XWord := dword.sshiftRight 20

def rvR32ImmS (dword : XWord) : XWord :=
  (dword.sshiftRight 7 &&& 0b11111) ||| dword.sshiftRight 25 <<< 5

def rvR32ImmB (dword : XWord) : XWord :=
  (((dword.sshiftRight 7 &&& 0b011110) |||
    (dword.sshiftRight 25 &&& 0b111111) <<< 5 |||
    (dword.sshiftRight 7 &&& 0b000001) <<< 11 |||
    (dword.sshiftRight 30 &&& 0b000001) <<< 12) <<< 20).sshiftRight 20

def rvR32ImmJ (dword : XWord) : XWord :=
  let imm := dword.sshiftRight 12
  let a := imm.sshiftRight 9 &&& 0x3ff
  let b := imm.sshiftRight 8 &&& 0x1
  let c := imm.sshiftRight 0 &&& 0xff
  let d := imm.sshiftRight 19
  d <<< 20 ||| c <<< 12 ||| b <<< 11 ||| a <<< 1

def rvR32Funct3 (dword : XWord) : XWord := dword >>> 12 &&& 0x7

def rvR32Funct7 (dword : XWord) : XWord := dword >>> 25 &&& 0x7f

/-! ### The registers -/

variable {σ : Type}

/-- An element of `regs[32]`. -/
def RvVm.reg (vm : RvVm σ) (i : XWord) : XWord := vm.regs (i.setWidth 5)

def RvVm.setReg (vm : RvVm σ) (i c : XWord) : RvVm σ :=
  { vm with regs := Function.update vm.regs (i.setWidth 5) c }

/-- `vm->ip += n`. -/
def RvVm.addIp (vm : RvVm σ) (n : XWord) : RvVm σ := { vm with ip := vm.ip + n }

/-! ### Arithmetic -/

def rvImmIntMath (funct3 a b : XWord) : XWord :=
  match funct3 with
  | 0x0#32 => a + b
  | 0x1#32 => a <<< (b &&& 0x1f).toNat
  | 0x2#32 => if a.slt b then 1 else 0
  | 0x3#32 => if a.ult b then 1 else 0
  | 0x4#32 => a ^^^ b
  | 0x5#32 =>
      if b.sshiftRight 5 = 0x20 then a.sshiftRight (b &&& 0x1f).toNat
      else a >>> (b &&& 0x1f).toNat
  | 0x6#32 => a ||| b
  | _ => a &&& b

/-- The amount of a shift. -/
def shiftCount (b : XWord) : Except Stop Nat :=
  if b.toNat < 32 then .ok b.toNat else .error .undefined

/-- `b` as a divisor. -/
def divisor (b : XWord) : Except Stop XWord := if b ≠ 0 then .ok b else .error .undefined

def rvRegIntMath (key a b : XWord) : Except Stop XWord :=
  match key with
  | 0x000#32 => return a + b
  | 0x001#32 => return a <<< (← shiftCount b)
  | 0x002#32 => return if a.slt b then 1 else 0
  | 0x003#32 => return if a.ult b then 1 else 0
  | 0x004#32 => return a ^^^ b
  | 0x005#32 => return a >>> (← shiftCount b)
  | 0x006#32 => return a ||| b
  | 0x007#32 => return a &&& b
  | 0x010#32 => return a * b
  | 0x015#32 => return a / (← divisor b)
  | 0x017#32 => return a % (← divisor b)
  | 0x200#32 => return a - b
  | 0x205#32 => return a.sshiftRight (← shiftCount b)
  | _ => .error .panic

/-! ### The instructions -/

def rvStore (host : RvHost σ) (vm : RvVm σ) (inst : XWord) : Except Stop (Int × RvVm σ) := do
  let shift := rvR32Funct3 inst % 4
  let byteSize := 1 <<< shift.toNat
  let mask ← match shift with
    | 0#32 => .ok 0xff#32
    | 1#32 => .ok 0xffff#32
    | 2#32 => .ok 0xffffffff#32
    | _ => .error Stop.undefined
  let (e, state) := host.write32 vm.host (vm.reg (rvR32R1 inst) + rvR32ImmS inst)
    (vm.reg (rvR32R2 inst) &&& mask) byteSize
  let vm := { vm with host := state }
  if e < 0 then return (e, vm) else return (0, vm.addIp 4)

/-- The expression is of unsigned type, so that the bit of `LBU` and `LHU` is not spread. -/
def rvSignExtend (funct3 byteSize : XWord) : XWord :=
  ((4 - byteSize) * 8) &&& ((funct3 &&& 0x4) >>> 2 <<< 31) >>> 31

def rvLoad (host : RvHost σ) (vm : RvVm σ) (inst : XWord) : Except Stop (Int × RvVm σ) := do
  let shift := rvR32Funct3 inst % 4
  let byteSize : XWord := 1 <<< shift.toNat
  let signExtend := rvSignExtend (rvR32Funct3 inst) byteSize
  let (e, data, state) := host.read vm.host (vm.reg (rvR32R1 inst) + rvR32ImmI inst) byteSize.toNat
  let vm := { vm with host := state }
  if e < 0 then return (e, vm)
  else if 4 < byteSize.toNat then .error .undefined
  else
    let data := (data.setWidth (8 * byteSize.toNat)).setWidth 32
    let data := (data <<< (signExtend * 8).toNat).sshiftRight (signExtend * 8).toNat
    return (0, (vm.setReg (rvR32Rd inst) data).addIp 4)

def rvBranchTaken (funct3 rs1 rs2 : XWord) : Bool :=
  let res := match funct3 / 2 with
    | 0x00#32 => decide (rs1 = rs2)
    | 0x01#32 => false
    | 0x02#32 => rs1.slt rs2
    | _ => rs1.ult rs2
  if funct3 &&& 0x1 ≠ 0 then !res else res

/-- The `switch` of `rv_vm_step`, and what is behind it. -/
def rvExecute (host : RvHost σ) (onEnviron : OnEnviron σ) (vm : RvVm σ) (inst : XWord) :
    Except Stop (Int × RvVm σ) :=
  match rvR32Op inst with
  | 0x13#32 =>
      let c := rvImmIntMath (rvR32Funct3 inst) (vm.reg (rvR32R1 inst)) (rvR32ImmI inst)
      .ok (0, (vm.setReg (rvR32Rd inst) c).addIp 4)
  | 0x33#32 => do
      let c ← rvRegIntMath (rvR32Funct7 inst <<< 4 ||| rvR32Funct3 inst) (vm.reg (rvR32R1 inst))
        (vm.reg (rvR32R2 inst))
      return (0, (vm.setReg (rvR32Rd inst) c).addIp 4)
  | 0x23#32 => rvStore host vm inst
  | 0x03#32 => rvLoad host vm inst
  | 0x37#32 => .ok (0, (vm.setReg (rvR32Rd inst) (rvR32ImmU inst <<< 12)).addIp 4)
  | 0x17#32 => .ok (0, (vm.setReg (rvR32Rd inst) (vm.ip + rvR32ImmU inst <<< 12)).addIp 4)
  | 0x63#32 =>
      if rvBranchTaken (rvR32Funct3 inst) (vm.reg (rvR32R1 inst)) (vm.reg (rvR32R2 inst)) then
        .ok (0, (vm.addIp (rvR32ImmB inst - 4)).addIp 4)
      else
        .ok (0, vm.addIp 4)
  | 0x6f#32 =>
      let vm := vm.setReg (rvR32Rd inst) (vm.ip + 4)
      .ok (0, (vm.addIp (rvR32ImmJ inst - 4)).addIp 4)
  | 0x67#32 =>
      let vm := vm.setReg (rvR32Rd inst) (vm.ip + 4)
      -- The register is read after `rd` was written.
      let vm := { vm with ip := vm.reg (rvR32R1 inst) + rvR32ImmI inst - 4 }
      .ok (0, vm.addIp 4)
  | 0x73#32 =>
      if rvR32Funct3 inst = 0x0 ∧ rvR32ImmI inst < 2 then
        .ok (onEnviron (rvR32ImmI inst = 1) (vm.addIp 4))
      else
        .ok (-rvVmErrUnsupOpcode, vm)
  | _ => .ok (-rvVmErrUnsupOpcode, vm)

def rvVmStep (host : RvHost σ) (onEnviron : OnEnviron σ) (vm : RvVm σ) : Except Stop (Int × RvVm σ) :=
  let vm := vm.setReg 0 0
  let (e, inst, state) := host.read vm.host vm.ip 4
  let vm := { vm with host := state }
  if e < 0 then .ok (e, vm)
  else if rvGetInstLen16 inst ≠ 2 then .ok (-rvVmErrNon32Bit, vm)
  else rvExecute host onEnviron vm inst

end AncoreOS.Drivers
