import AncoreOS.Drivers.RvVm

/-!
# The emulator and the architecture

A machine of the emulator is a hart of `Rv32` once `x0` reads zero (`RvVm.hart`), and its host is the
bus.  `Matches` says that a step of the emulator is what the architecture says, and `Meets` is the
exact condition for an instruction: the emulator has no sign extension in a load, no remainder and no
quotient of signed words, and drops the top bit of a branch offset (`execute_matches_iff`).

A run all of whose instructions meet the condition is a run of the hart (`vm_run_is_hart_run`).
-/

namespace AncoreOS.Drivers

open Rv32

variable {σ : Type}

/-! ### Fields -/

theorem shift_and_mask (w : XWord) (n k : Nat) :
    w >>> n &&& BitVec.ofNat 32 (2 ^ k - 1) = (w.extractLsb' n k).setWidth 32 := by
  refine BitVec.eq_of_getLsbD_eq fun i hi => ?_
  simp only [BitVec.getLsbD_and, BitVec.getLsbD_ushiftRight, BitVec.getLsbD_ofNat,
    Nat.testBit_two_pow_sub_one, BitVec.getLsbD_setWidth, BitVec.getLsbD_extractLsb', hi, decide_true,
    Bool.true_and]
  exact Bool.and_comm _ _

theorem rvR32Op_eq (w : XWord) : rvR32Op w = (opcode w).setWidth 32 := by
  have h := shift_and_mask w 0 7
  simpa [rvR32Op, opcode] using h

theorem rvR32Rd_eq (w : XWord) : rvR32Rd w = (rd w).setWidth 32 := shift_and_mask w 7 5

theorem rvR32R1_eq (w : XWord) : rvR32R1 w = (rs1 w).setWidth 32 := shift_and_mask w 15 5

theorem rvR32R2_eq (w : XWord) : rvR32R2 w = (rs2 w).setWidth 32 := shift_and_mask w 20 5

theorem rvR32Funct3_eq (w : XWord) : rvR32Funct3 w = (funct3 w).setWidth 32 := shift_and_mask w 12 3

theorem rvR32Funct7_eq (w : XWord) : rvR32Funct7 w = (funct7 w).setWidth 32 := shift_and_mask w 25 7

theorem rvR32ImmI_eq (w : XWord) : rvR32ImmI w = immI w := by
  refine BitVec.eq_of_getLsbD_eq fun i hi => ?_
  simp only [rvR32ImmI, immI, BitVec.getLsbD_sshiftRight, BitVec.getLsbD_signExtend,
    BitVec.msb_eq_getLsbD_last, BitVec.getLsbD_extractLsb']
  interval_cases i <;> simp

theorem rvR32ImmS_eq (w : XWord) : rvR32ImmS w = immS w := by
  refine BitVec.eq_of_getLsbD_eq fun i hi => ?_
  simp only [rvR32ImmS, immS, BitVec.getLsbD_or, BitVec.getLsbD_and, BitVec.getLsbD_shiftLeft,
    BitVec.getLsbD_sshiftRight, BitVec.getLsbD_signExtend, BitVec.msb_eq_getLsbD_last,
    BitVec.getLsbD_append, BitVec.getLsbD_extractLsb']
  interval_cases i <;> simp

theorem rvR32ImmU_eq (w : XWord) : rvR32ImmU w <<< 12 = immU w := by
  refine BitVec.eq_of_getLsbD_eq fun i hi => ?_
  simp only [rvR32ImmU, immU, BitVec.getLsbD_shiftLeft, BitVec.getLsbD_sshiftRight,
    BitVec.getLsbD_append, BitVec.getLsbD_extractLsb']
  interval_cases i <;> simp

theorem rvR32ImmJ_eq (w : XWord) : rvR32ImmJ w = immJ w := by
  refine BitVec.eq_of_getLsbD_eq fun i hi => ?_
  simp only [rvR32ImmJ, immJ, BitVec.getLsbD_or, BitVec.getLsbD_and, BitVec.getLsbD_shiftLeft,
    BitVec.getLsbD_sshiftRight, BitVec.getLsbD_signExtend, BitVec.msb_eq_getLsbD_last,
    BitVec.getLsbD_append, BitVec.getLsbD_extractLsb']
  interval_cases i <;> simp

/-- **The offset of a branch is cut to its low twelve bits.** -/
theorem rvR32ImmB_eq (w : XWord) : rvR32ImmB w = ((immB w).setWidth 12).signExtend 32 := by
  refine BitVec.eq_of_getLsbD_eq fun i hi => ?_
  simp only [rvR32ImmB, immB, BitVec.getLsbD_or, BitVec.getLsbD_and, BitVec.getLsbD_shiftLeft,
    BitVec.getLsbD_sshiftRight, BitVec.getLsbD_signExtend, BitVec.msb_eq_getLsbD_last,
    BitVec.getLsbD_append, BitVec.getLsbD_extractLsb', BitVec.getLsbD_setWidth]
  interval_cases i <;> simp

/-- The length of an instruction is in the two ends of its opcode. -/
theorem rvGetInstLen16_eq_two_iff (w : XWord) :
    rvGetInstLen16 w = 2 ↔ (opcode w).extractLsb' 0 2 = 3 ∧ (opcode w).extractLsb' 2 3 ≠ 7 := by
  have hlow : w &&& 0x3 = ((opcode w).extractLsb' 0 2).setWidth 32 := by
    have h := shift_and_mask w 0 2
    simpa [opcode] using h
  have hmid : w >>> 2 &&& 0x7 = ((opcode w).extractLsb' 2 3).setWidth 32 := by
    have h := shift_and_mask w 2 3
    simpa [opcode] using h
  rw [rvGetInstLen16, hlow, hmid]
  generalize (opcode w).extractLsb' 0 2 = low
  generalize (opcode w).extractLsb' 2 3 = mid
  have hlow3 : low.setWidth 32 = (0x3 : XWord) ↔ low = 3 := by
    revert low
    decide
  have hmid7 : mid.setWidth 32 = (0x7 : XWord) ↔ mid = 7 := by
    revert mid
    decide
  simp only [ne_eq, hlow3, hmid7]
  by_cases h3 : low = 3
  · rw [if_neg (not_not.mpr h3)]
    by_cases h7 : mid = 7
    · rw [if_neg (not_not.mpr h7)]
      refine iff_of_false ?_ fun h => h.2 h7
      split <;> decide
    · rw [if_pos h7]
      exact iff_of_true rfl ⟨h3, h7⟩
  · rw [if_pos h3]
    exact iff_of_false (by decide) fun h => h3 h.1

/-! ### Arithmetic -/

theorem funct3_cases : ∀ f : BitVec 3, f = 0 ∨ f = 1 ∨ f = 2 ∨ f = 3 ∨ f = 4 ∨ f = 5 ∨ f = 6 ∨ f = 7 := by
  decide

theorem and_31_toNat (b : XWord) : (b &&& 0x1f).toNat = b.toNat % 32 := by
  rw [BitVec.toNat_and]
  exact Nat.and_two_pow_sub_one_eq_mod b.toNat 5

theorem immI_funct7 (w : XWord) : (immI w).sshiftRight 5 = (funct7 w).signExtend 32 := by
  refine BitVec.eq_of_getLsbD_eq fun i hi => ?_
  simp only [immI, funct7, BitVec.getLsbD_sshiftRight, BitVec.getLsbD_signExtend,
    BitVec.msb_eq_getLsbD_last, BitVec.getLsbD_extractLsb']
  interval_cases i <;> simp

theorem rvImmIntMath_eq {f3 : BitVec 3} {f7 : BitVec 7} {op : Alu} {a b : XWord}
    (hop : aluImm f3 f7 = some op) (hb : b.sshiftRight 5 = f7.signExtend 32) :
    rvImmIntMath (f3.setWidth 32) a b = alu op a b := by
  rcases funct3_cases f3 with rfl | rfl | rfl | rfl | rfl | rfl | rfl | rfl
  · obtain rfl := Option.some.inj hop
    rfl
  · change (if f7 = 0 then some Alu.sll else none) = some op at hop
    split at hop
    · obtain rfl := Option.some.inj hop
      exact congrArg (a <<< ·) (and_31_toNat b)
    · cases hop
  · obtain rfl := Option.some.inj hop
    rfl
  · obtain rfl := Option.some.inj hop
    rfl
  · obtain rfl := Option.some.inj hop
    rfl
  · change (if f7 = 0 then some Alu.srl else if f7 = 0x20 then some Alu.sra else none) = some op at hop
    change (if b.sshiftRight 5 = 0x20 then a.sshiftRight (b &&& 0x1f).toNat
      else a >>> (b &&& 0x1f).toNat) = alu op a b
    rw [hb, and_31_toNat]
    split at hop
    · rename_i h0
      obtain rfl := Option.some.inj hop
      rw [h0]
      exact if_neg (by decide)
    · split at hop
      · rename_i h20
        obtain rfl := Option.some.inj hop
        rw [h20]
        exact if_pos (by decide)
      · cases hop
  · obtain rfl := Option.some.inj hop
    rfl
  · obtain rfl := Option.some.inj hop
    rfl

/-- When the emulator has the operation. -/
def RegMeets (op : Alu) (b : XWord) : Prop :=
  match op with
  | .sll | .srl | .sra => b.toNat < 32
  | .divu | .remu => b ≠ 0
  | .mulh | .mulhsu | .mulhu | .div | .rem => False
  | _ => True

theorem shiftCount_cases (b : XWord) :
    b.toNat < 32 ∧ shiftCount b = .ok (b.toNat % 32) ∨ ¬b.toNat < 32 ∧ shiftCount b = .error .undefined := by
  by_cases hb : b.toNat < 32
  · left
    rw [shiftCount, if_pos hb, Nat.mod_eq_of_lt hb]
    exact ⟨hb, rfl⟩
  · right
    rw [shiftCount, if_neg hb]
    exact ⟨hb, rfl⟩

/-- **An operation of two registers is that of the architecture, or the step does not return.** -/
theorem rvRegIntMath_cases {f3 : BitVec 3} {f7 : BitVec 7} {op : Alu} (a b : XWord)
    (hop : aluReg f3 f7 = some op) :
    RegMeets op b ∧ rvRegIntMath (f7.setWidth 32 <<< 4 ||| f3.setWidth 32) a b = .ok (alu op a b) ∨
      ¬RegMeets op b ∧ ∃ stop, rvRegIntMath (f7.setWidth 32 <<< 4 ||| f3.setWidth 32) a b = .error stop := by
  have hshift : ∀ f : Nat → XWord,
      b.toNat < 32 ∧ (do return f (← shiftCount b)) = Except.ok (f (b.toNat % 32)) ∨
      ¬b.toNat < 32 ∧ ∃ stop, (do return f (← shiftCount b)) = Except.error stop := by
    intro f
    rcases shiftCount_cases b with ⟨hb, heq⟩ | ⟨hb, heq⟩
    · exact Or.inl ⟨hb, by rw [heq]; rfl⟩
    · exact Or.inr ⟨hb, .undefined, by rw [heq]; rfl⟩
  have hdiv : ∀ f : XWord → XWord, ∀ d : XWord,
      b ≠ 0 ∧ (do return f (← divisor b)) = Except.ok (if b = 0 then d else f b) ∨
      ¬b ≠ 0 ∧ ∃ stop, (do return f (← divisor b)) = Except.error stop := by
    intro f d
    by_cases hb : b = 0
    · exact Or.inr ⟨fun h => h hb, .undefined, by rw [divisor, if_neg (fun h => h hb)]; rfl⟩
    · exact Or.inl ⟨hb, by rw [divisor, if_pos hb, if_neg hb]; rfl⟩
  unfold aluReg at hop
  split at hop
  · rename_i h7
    subst h7
    obtain rfl := Option.some.inj hop
    rcases funct3_cases f3 with rfl | rfl | rfl | rfl | rfl | rfl | rfl | rfl
    · exact Or.inl ⟨trivial, rfl⟩
    · exact hshift (a <<< ·)
    · exact Or.inl ⟨trivial, rfl⟩
    · exact Or.inl ⟨trivial, rfl⟩
    · exact Or.inl ⟨trivial, rfl⟩
    · exact hshift (a >>> ·)
    · exact Or.inl ⟨trivial, rfl⟩
    · exact Or.inl ⟨trivial, rfl⟩
  · split at hop
    · rename_i h7
      subst h7
      obtain rfl := Option.some.inj hop
      rcases funct3_cases f3 with rfl | rfl | rfl | rfl | rfl | rfl | rfl | rfl
      · exact Or.inl ⟨trivial, rfl⟩
      · exact Or.inr ⟨id, .panic, rfl⟩
      · exact Or.inr ⟨id, .panic, rfl⟩
      · exact Or.inr ⟨id, .panic, rfl⟩
      · exact Or.inr ⟨id, .panic, rfl⟩
      · exact hdiv (a / ·) (-1)
      · exact Or.inr ⟨id, .panic, rfl⟩
      · exact hdiv (a % ·) a
    · split at hop
      · rename_i h7
        subst h7
        split at hop
        · rename_i h3
          subst h3
          obtain rfl := Option.some.inj hop
          exact Or.inl ⟨trivial, rfl⟩
        · split at hop
          · rename_i h3
            subst h3
            obtain rfl := Option.some.inj hop
            exact hshift (a.sshiftRight ·)
          · cases hop
      · cases hop

/-! ### The machine as a hart -/

/-- The hart that a machine is, when `x0` reads zero. -/
def RvVm.hart (vm : RvVm σ) : Hart σ where
  x := Function.update vm.regs 0 0
  pc := vm.ip
  mem := vm.host
  zero := Function.update_self 0 0 _

def RvHost.bus (host : RvHost σ) : HartBus σ := { read := host.read, write := host.write32 }

theorem setWidth_reg (r : Reg) : (r.setWidth 32 : XWord).setWidth 5 = r := by simp

theorem RvVm.reg_eq {vm : RvVm σ} (h0 : vm.regs 0 = 0) (r : Reg) :
    vm.reg (r.setWidth 32) = vm.hart.x r := by
  rw [reg, setWidth_reg, hart]
  by_cases hr : r = 0
  · rw [hr, h0]
    rfl
  · exact (Function.update_of_ne hr _ _).symm

theorem RvVm.hart_setReg (vm : RvVm σ) (r : Reg) (c : XWord) :
    (vm.setReg (r.setWidth 32) c).hart = vm.hart.set r c := by
  refine Hart.ext (funext fun q => ?_) rfl rfl
  rw [setReg, setWidth_reg, hart, Hart.set]
  by_cases hq : q = 0
  · rw [hq]
    rfl
  · by_cases hqr : q = r
    · subst hqr
      simp only [Function.update_of_ne hq, Function.update_self]
    · simp only [Function.update_of_ne hq, Function.update_of_ne hqr, hart]

@[simp] theorem RvVm.hart_addIp (vm : RvVm σ) (n : XWord) : (vm.addIp n).hart = vm.hart.jump (vm.ip + n) := rfl

/-- What a jump takes off the offset is put back at the end of the step. -/
theorem RvVm.hart_addIp_sub (vm : RvVm σ) (n : XWord) :
    ((vm.addIp (n - 4)).addIp 4).hart = vm.hart.jump (vm.ip + n) := by
  have hip : vm.ip + (n - 4) + 4 = vm.ip + n := by rw [BitVec.add_assoc, BitVec.sub_add_cancel]
  rw [hart_addIp, show (vm.addIp (n - 4)).ip + 4 = vm.ip + n from hip]
  rfl

@[simp] theorem RvVm.hart_pc (vm : RvVm σ) : vm.hart.pc = vm.ip := rfl

/-! ### Agreement -/

/-- A step of the emulator is what the architecture says. -/
def Matches (onEnviron : OnEnviron σ) (r : Except Stop (Int × RvVm σ)) : Outcome σ → Prop
  | .next h => ∃ vm, r = .ok (0, vm) ∧ vm.hart = h
  | .fault e h => ∃ vm, r = .ok (e, vm) ∧ vm.hart = h
  | .call breakpoint h => ∃ vm, r = .ok (onEnviron breakpoint vm) ∧ vm.hart = h ∧ vm.regs 0 = 0
  | .illegal h => ∃ e vm, e < 0 ∧ r = .ok (e, vm) ∧ vm.hart = h

/-- When the emulator does what the architecture says of an instruction. -/
def Meets (bus : HartBus σ) (i : Instr) (h : Hart σ) : Prop :=
  match i with
  | .op op _ _ rs2 => RegMeets op (h.x rs2)
  | .load width unsigned rd rs1 imm =>
      let (e, v, _) := bus.read h.mem (h.x rs1 + imm) width.bytes
      e < 0 ∨ rd = 0 ∨ unsigned = true ∨ width.sign v = false
  | .branch cond rs1 rs2 imm =>
      cond.holds (h.x rs1) (h.x rs2) = true → -2048 ≤ imm.toInt ∧ imm.toInt < 2048
  | .jalr rd rs1 imm =>
      if rd = rs1 then h.x rs1 - ((h.x rs1 + imm) &&& 1) = h.pc + 4 else (h.x rs1 + imm) &&& 1 = 0
  | .fence => False
  | .opImm .. | .store .. | .lui .. | .auipc .. | .jal .. | .ecall | .ebreak => True

section Matches

variable {onEnviron : OnEnviron σ} {vm : RvVm σ} {h : Hart σ}

theorem matches_next : Matches onEnviron (.ok (0, vm)) (.next h) ↔ vm.hart = h := by
  constructor
  · rintro ⟨vm', heq, rfl⟩
    cases heq
    rfl
  · rintro rfl
    exact ⟨vm, rfl, rfl⟩

theorem not_matches_next {e : Int} (he : e ≠ 0) : ¬Matches onEnviron (.ok (e, vm)) (.next h) := by
  rintro ⟨vm', heq, -⟩
  cases heq
  exact he rfl

theorem not_matches_error {stop : Stop} : ¬Matches onEnviron (.error stop) (.next h) := by
  rintro ⟨vm', heq, -⟩
  cases heq

end Matches

/-! ### Loads and stores -/

theorem rvLoad_eq {host : RvHost σ} {vm : RvVm σ} {w : XWord} {kind : Width × Bool}
    (hkind : loadKind (funct3 w) = some kind) :
    rvLoad host vm w =
      let (e, data, state) := host.read vm.host (vm.reg (rvR32R1 w) + rvR32ImmI w) kind.1.bytes
      if e < 0 then .ok (e, { vm with host := state })
      else .ok (0, (({ vm with host := state } : RvVm σ).setReg (rvR32Rd w)
        (kind.1.extend true data)).addIp 4) := by
  have hext : ∀ (n : Nat) (data : XWord), ((data.setWidth n).setWidth 32 <<< 0).sshiftRight 0 =
      (data.setWidth n).setWidth 32 := fun n data => by simp
  unfold rvLoad
  rw [rvR32Funct3_eq]
  rcases funct3_cases (funct3 w) with hf | hf | hf | hf | hf | hf | hf | hf <;> rw [hf] at hkind ⊢
  · obtain rfl := Option.some.inj hkind
    exact congrArg (ite _ _) (congrArg (fun d => Except.ok (0, (RvVm.setReg _ _ d).addIp 4)) (hext 8 _))
  · obtain rfl := Option.some.inj hkind
    exact congrArg (ite _ _) (congrArg (fun d => Except.ok (0, (RvVm.setReg _ _ d).addIp 4)) (hext 16 _))
  · obtain rfl := Option.some.inj hkind
    exact congrArg (ite _ _) (congrArg (fun d => Except.ok (0, (RvVm.setReg _ _ d).addIp 4))
      ((hext 32 _).trans (by simp [Width.extend, Width.bytes])))
  · cases hkind
  · obtain rfl := Option.some.inj hkind
    exact congrArg (ite _ _) (congrArg (fun d => Except.ok (0, (RvVm.setReg _ _ d).addIp 4)) (hext 8 _))
  · obtain rfl := Option.some.inj hkind
    exact congrArg (ite _ _) (congrArg (fun d => Except.ok (0, (RvVm.setReg _ _ d).addIp 4)) (hext 16 _))
  · cases hkind
  · cases hkind

theorem and_mask (v : XWord) (k : Nat) : v &&& BitVec.ofNat 32 (2 ^ k - 1) = (v.setWidth k).setWidth 32 := by
  have h := shift_and_mask v 0 k
  rwa [BitVec.ushiftRight_zero, show v.extractLsb' 0 k = v.setWidth k by ext; simp] at h

theorem rvStore_eq {host : RvHost σ} {vm : RvVm σ} {w : XWord} {width : Width}
    (hkind : storeKind (funct3 w) = some width) :
    rvStore host vm w =
      let (e, state) := host.write32 vm.host (vm.reg (rvR32R1 w) + rvR32ImmS w)
        (width.truncate (vm.reg (rvR32R2 w))) width.bytes
      if e < 0 then .ok (e, { vm with host := state })
      else .ok (0, ({ vm with host := state } : RvVm σ).addIp 4) := by
  let store (v : XWord) (size : Nat) : Except Stop (Int × RvVm σ) :=
    let (e, state) := host.write32 vm.host (vm.reg (rvR32R1 w) + rvR32ImmS w) v size
    if e < 0 then .ok (e, { vm with host := state }) else .ok (0, ({ vm with host := state } : RvVm σ).addIp 4)
  unfold rvStore
  rw [rvR32Funct3_eq]
  rcases funct3_cases (funct3 w) with hf | hf | hf | hf | hf | hf | hf | hf <;> rw [hf] at hkind ⊢
  · obtain rfl := Option.some.inj hkind
    exact congrArg (store · 1) (and_mask (vm.reg (rvR32R2 w)) 8)
  · obtain rfl := Option.some.inj hkind
    exact congrArg (store · 2) (and_mask (vm.reg (rvR32R2 w)) 16)
  · obtain rfl := Option.some.inj hkind
    exact congrArg (store · 4) ((and_mask (vm.reg (rvR32R2 w)) 32).trans (by simp [Width.truncate]))
  all_goals cases hkind

/-! ### Branches and jumps -/

theorem rvBranchTaken_eq {f3 : BitVec 3} {cond : Cond} (hkind : branchKind f3 = some cond) (a b : XWord) :
    rvBranchTaken (f3.setWidth 32) a b = cond.holds a b := by
  rcases funct3_cases f3 with rfl | rfl | rfl | rfl | rfl | rfl | rfl | rfl
  · obtain rfl := Option.some.inj hkind
    rfl
  · obtain rfl := Option.some.inj hkind
    exact decide_not.symm
  · cases hkind
  · cases hkind
  · obtain rfl := Option.some.inj hkind
    rfl
  · obtain rfl := Option.some.inj hkind
    rfl
  · obtain rfl := Option.some.inj hkind
    rfl
  · obtain rfl := Option.some.inj hkind
    rfl

theorem and_not_one (x : XWord) : x &&& ~~~1 = x - (x &&& 1) := by
  rw [BitVec.eq_sub_iff_add_eq, BitVec.add_eq_or_of_and_eq_zero, ← BitVec.and_or_distrib_left]
  · exact BitVec.and_allOnes
  · rw [BitVec.and_assoc, ← BitVec.and_assoc (~~~1), BitVec.and_comm (~~~1) x]
    simp [BitVec.and_assoc]

theorem short_iff (imm : XWord) :
    (imm.setWidth 12).signExtend 32 = imm ↔ -2048 ≤ imm.toInt ∧ imm.toInt < 2048 := by
  rw [← BitVec.toInt_inj, BitVec.toInt_signExtend, BitVec.toInt_setWidth, BitVec.toInt_eq_toNat_cond,
    show min 32 12 = 12 from rfl, Int.bmod_bmod]
  simp only [Int.bmod]
  split_ifs <;> omega

/-! ### One instruction -/

section Execute

variable {host : RvHost σ} {onEnviron : OnEnviron σ} {vm : RvVm σ} {w : XWord}

/-- A result in a register is what the architecture puts there. -/
theorem matches_setReg {c v : XWord} :
    Matches onEnviron (.ok (0, (vm.setReg (rvR32Rd w) c).addIp 4))
      (.next ((vm.hart.set (rd w) v).jump (vm.hart.pc + 4))) ↔ vm.hart.set (rd w) c = vm.hart.set (rd w) v := by
  rw [matches_next, RvVm.hart_addIp, rvR32Rd_eq, RvVm.hart_setReg]
  constructor
  · intro h
    have hx := congrArg Hart.x h
    exact Hart.ext hx rfl rfl
  · intro h
    rw [h]
    rfl

theorem opImm_matches (h0 : vm.regs 0 = 0) (hop : opcode w = 0x13) {op : Alu}
    (hkind : aluImm (funct3 w) (funct7 w) = some op) :
    Matches onEnviron (rvExecute host onEnviron vm w)
      (exec host.bus (.opImm op (rd w) (rs1 w) (immI w)) vm.hart) := by
  unfold rvExecute
  rw [rvR32Op_eq, hop]
  refine matches_setReg.mpr (congrArg (vm.hart.set (rd w)) ?_)
  rw [rvR32Funct3_eq, rvR32R1_eq, rvR32ImmI_eq, RvVm.reg_eq h0]
  exact rvImmIntMath_eq hkind (immI_funct7 w)

theorem op_matches_iff (h0 : vm.regs 0 = 0) (hop : opcode w = 0x33) {op : Alu}
    (hkind : aluReg (funct3 w) (funct7 w) = some op) :
    Matches onEnviron (rvExecute host onEnviron vm w)
      (exec host.bus (.op op (rd w) (rs1 w) (rs2 w)) vm.hart) ↔ RegMeets op (vm.hart.x (rs2 w)) := by
  unfold rvExecute
  rw [rvR32Op_eq, hop, rvR32Funct3_eq, rvR32Funct7_eq, rvR32R1_eq, rvR32R2_eq, RvVm.reg_eq h0, RvVm.reg_eq h0]
  rcases rvRegIntMath_cases (vm.hart.x (rs1 w)) (vm.hart.x (rs2 w)) hkind with ⟨hmeets, heq⟩ | ⟨hmeets, stop, heq⟩
  · refine iff_of_true ?_ hmeets
    change Matches onEnviron (Except.bind (rvRegIntMath _ _ _) _) _
    rw [heq]
    exact matches_setReg.mpr rfl
  · refine iff_of_false ?_ hmeets
    change ¬Matches onEnviron (Except.bind (rvRegIntMath _ _ _) _) _
    rw [heq]
    exact not_matches_error

theorem load_matches_iff (h0 : vm.regs 0 = 0) (hop : opcode w = 0x03) {kind : Width × Bool}
    (hkind : loadKind (funct3 w) = some kind) :
    Matches onEnviron (rvExecute host onEnviron vm w)
        (exec host.bus (.load kind.1 kind.2 (rd w) (rs1 w) (immI w)) vm.hart) ↔
      Meets host.bus (.load kind.1 kind.2 (rd w) (rs1 w) (immI w)) vm.hart := by
  rcases hread : host.read vm.host (vm.hart.x (rs1 w) + immI w) kind.1.bytes with ⟨e, data, state⟩
  have hbus : host.bus.read vm.hart.mem (vm.hart.x (rs1 w) + immI w) kind.1.bytes = (e, data, state) := hread
  have hexec : rvExecute host onEnviron vm w = if e < 0 then .ok (e, { vm with host := state })
      else .ok (0, (({ vm with host := state } : RvVm σ).setReg (rvR32Rd w) (kind.1.extend true data)).addIp 4) := by
    simp only [rvExecute, rvR32Op_eq, hop, BitVec.reduceSetWidth]
    rw [rvLoad_eq hkind, rvR32R1_eq, rvR32ImmI_eq, RvVm.reg_eq h0, hread]
  rw [hexec]
  simp only [exec, Meets, hbus]
  by_cases he : e < 0
  · rw [if_pos he, if_pos he]
    exact iff_of_true ⟨_, rfl, rfl⟩ (Or.inl he)
  · rw [if_neg he, if_neg he]
    refine (@matches_setReg σ onEnviron { vm with host := state } w _ _).trans ?_
    rw [Hart.set_eq_set_iff, Width.extend_eq_iff]
    exact (or_iff_right he).symm

theorem store_matches (h0 : vm.regs 0 = 0) (hop : opcode w = 0x23) {width : Width}
    (hkind : storeKind (funct3 w) = some width) :
    Matches onEnviron (rvExecute host onEnviron vm w)
      (exec host.bus (.store width (rs1 w) (rs2 w) (immS w)) vm.hart) := by
  rcases hwrite : host.write32 vm.host (vm.hart.x (rs1 w) + immS w) (width.truncate (vm.hart.x (rs2 w)))
    width.bytes with ⟨e, state⟩
  have hbus : host.bus.write vm.hart.mem (vm.hart.x (rs1 w) + immS w) (width.truncate (vm.hart.x (rs2 w)))
    width.bytes = (e, state) := hwrite
  have hexec : rvExecute host onEnviron vm w = if e < 0 then .ok (e, { vm with host := state })
      else .ok (0, ({ vm with host := state } : RvVm σ).addIp 4) := by
    simp only [rvExecute, rvR32Op_eq, hop, BitVec.reduceSetWidth]
    rw [rvStore_eq hkind, rvR32R1_eq, rvR32R2_eq, rvR32ImmS_eq, RvVm.reg_eq h0, RvVm.reg_eq h0, hwrite]
  rw [hexec]
  simp only [exec, hbus]
  by_cases he : e < 0
  · rw [if_pos he, if_pos he]
    exact ⟨_, rfl, rfl⟩
  · rw [if_neg he, if_neg he]
    exact ⟨_, rfl, rfl⟩

theorem lui_matches (hop : opcode w = 0x37) :
    Matches onEnviron (rvExecute host onEnviron vm w) (exec host.bus (.lui (rd w) (immU w)) vm.hart) := by
  unfold rvExecute
  rw [rvR32Op_eq, hop, rvR32ImmU_eq]
  exact matches_setReg.mpr rfl

theorem auipc_matches (hop : opcode w = 0x17) :
    Matches onEnviron (rvExecute host onEnviron vm w) (exec host.bus (.auipc (rd w) (immU w)) vm.hart) := by
  unfold rvExecute
  rw [rvR32Op_eq, hop, rvR32ImmU_eq]
  exact matches_setReg.mpr rfl

theorem branch_matches_iff (h0 : vm.regs 0 = 0) (hop : opcode w = 0x63) {cond : Cond}
    (hkind : branchKind (funct3 w) = some cond) :
    Matches onEnviron (rvExecute host onEnviron vm w)
        (exec host.bus (.branch cond (rs1 w) (rs2 w) (immB w)) vm.hart) ↔
      Meets host.bus (.branch cond (rs1 w) (rs2 w) (immB w)) vm.hart := by
  have hexec : rvExecute host onEnviron vm w = if cond.holds (vm.hart.x (rs1 w)) (vm.hart.x (rs2 w)) then
      .ok (0, (vm.addIp (rvR32ImmB w - 4)).addIp 4) else .ok (0, vm.addIp 4) := by
    simp only [rvExecute, rvR32Op_eq, hop, BitVec.reduceSetWidth]
    rw [rvR32Funct3_eq, rvR32R1_eq, rvR32R2_eq, RvVm.reg_eq h0, RvVm.reg_eq h0, rvBranchTaken_eq hkind]
  rw [hexec]
  simp only [exec, Meets]
  by_cases hc : cond.holds (vm.hart.x (rs1 w)) (vm.hart.x (rs2 w)) = true
  · rw [if_pos hc, if_pos hc, matches_next, RvVm.hart_addIp_sub, Hart.jump_eq_jump_iff, ← short_iff,
      rvR32ImmB_eq, RvVm.hart_pc, BitVec.add_right_inj]
    exact ⟨fun h _ => h, fun h => h hc⟩
  · rw [if_neg hc, if_neg hc, matches_next]
    exact iff_of_true rfl fun h => absurd h hc

theorem jal_matches (hop : opcode w = 0x6f) :
    Matches onEnviron (rvExecute host onEnviron vm w) (exec host.bus (.jal (rd w) (immJ w)) vm.hart) := by
  simp only [rvExecute, rvR32Op_eq, hop, BitVec.reduceSetWidth, rvR32ImmJ_eq, rvR32Rd_eq]
  rw [exec, matches_next, RvVm.hart_addIp_sub, RvVm.hart_setReg]
  rfl

/-- **`rs1` is read after `rd` was written, and bit 0 of the target stays.** -/
theorem jalr_matches_iff (h0 : vm.regs 0 = 0) (hop : opcode w = 0x67) :
    Matches onEnviron (rvExecute host onEnviron vm w) (exec host.bus (.jalr (rd w) (rs1 w) (immI w)) vm.hart) ↔
      Meets host.bus (.jalr (rd w) (rs1 w) (immI w)) vm.hart := by
  have hreg : (vm.setReg ((rd w).setWidth 32) (vm.ip + 4)).reg ((rs1 w).setWidth 32) =
      if rd w = rs1 w then vm.ip + 4 else vm.hart.x (rs1 w) := by
    rw [← RvVm.reg_eq h0, RvVm.reg, RvVm.setReg, RvVm.reg, setWidth_reg, setWidth_reg]
    by_cases hr : rd w = rs1 w
    · rw [if_pos hr, hr]
      exact Function.update_self ..
    · rw [if_neg hr]
      exact Function.update_of_ne (Ne.symm hr) ..
  have hexec : rvExecute host onEnviron vm w = .ok (0, RvVm.addIp
      { vm.setReg ((rd w).setWidth 32) (vm.ip + 4) with
        ip := (if rd w = rs1 w then vm.ip + 4 else vm.hart.x (rs1 w)) + immI w - 4 } 4) := by
    simp only [rvExecute, rvR32Op_eq, hop, BitVec.reduceSetWidth]
    rw [rvR32Rd_eq, rvR32R1_eq, rvR32ImmI_eq, hreg]
  have hhart : ∀ (vm : RvVm σ) (ip : XWord), (RvVm.addIp { vm with ip := ip - 4 } 4).hart = vm.hart.jump ip := by
    intro vm ip
    refine Hart.ext rfl ?_ rfl
    exact BitVec.sub_add_cancel ip 4
  rw [hexec]
  simp only [exec, Meets]
  rw [matches_next, hhart, RvVm.hart_setReg, RvVm.hart_pc, Hart.jump_eq_jump_iff, and_not_one]
  generalize vm.hart.x (rs1 w) = x
  generalize immI w = imm
  by_cases hr : rd w = rs1 w
  · simp only [if_pos hr]
    rw [show x + imm - ((x + imm) &&& 1) = x - ((x + imm) &&& 1) + imm by bv_omega, BitVec.add_left_inj]
    exact eq_comm
  · simp only [if_neg hr]
    generalize (x + imm) &&& 1 = b
    constructor <;> intro h <;> bv_omega

/-- A fence is an instruction that the emulator does not know. -/
theorem not_fence_matches (hop : opcode w = 0x0f) :
    ¬Matches onEnviron (rvExecute host onEnviron vm w) (exec host.bus .fence vm.hart) := by
  simp only [rvExecute, rvR32Op_eq, hop, BitVec.reduceSetWidth, exec]
  exact not_matches_next (by decide)

theorem ecall_matches (h0 : vm.regs 0 = 0) :
    Matches onEnviron (rvExecute host onEnviron vm 0x00000073) (exec host.bus .ecall vm.hart) :=
  ⟨vm.addIp 4, rfl, rfl, h0⟩

theorem ebreak_matches (h0 : vm.regs 0 = 0) :
    Matches onEnviron (rvExecute host onEnviron vm 0x00100073) (exec host.bus .ebreak vm.hart) :=
  ⟨vm.addIp 4, rfl, rfl, h0⟩

/-- **An instruction does what the architecture says, exactly when it meets the condition.** -/
theorem execute_matches_iff (h0 : vm.regs 0 = 0) {i : Instr} (hw : decode w = some i) :
    Matches onEnviron (rvExecute host onEnviron vm w) (exec host.bus i vm.hart) ↔
      Meets host.bus i vm.hart := by
  unfold decode at hw
  split at hw
  · rename_i hop
    obtain ⟨op, hkind, rfl⟩ := Option.map_eq_some_iff.mp hw
    exact iff_of_true (opImm_matches h0 hop hkind) trivial
  · rename_i hop
    obtain ⟨op, hkind, rfl⟩ := Option.map_eq_some_iff.mp hw
    exact op_matches_iff h0 hop hkind
  · rename_i hop
    obtain ⟨kind, hkind, rfl⟩ := Option.map_eq_some_iff.mp hw
    exact load_matches_iff h0 hop hkind
  · rename_i hop
    obtain ⟨width, hkind, rfl⟩ := Option.map_eq_some_iff.mp hw
    exact iff_of_true (store_matches h0 hop hkind) trivial
  · rename_i hop
    obtain rfl := Option.some.inj hw
    exact iff_of_true (lui_matches hop) trivial
  · rename_i hop
    obtain rfl := Option.some.inj hw
    exact iff_of_true (auipc_matches hop) trivial
  · rename_i hop
    obtain ⟨cond, hkind, rfl⟩ := Option.map_eq_some_iff.mp hw
    exact branch_matches_iff h0 hop hkind
  · rename_i hop
    obtain rfl := Option.some.inj hw
    exact iff_of_true (jal_matches hop) trivial
  · rename_i hop
    split at hw
    · obtain rfl := Option.some.inj hw
      exact jalr_matches_iff h0 hop
    · cases hw
  · rename_i hop
    split at hw
    · obtain rfl := Option.some.inj hw
      exact iff_of_false (not_fence_matches hop) id
    · cases hw
  · split at hw
    · rename_i hword
      obtain rfl := Option.some.inj hw
      rw [hword]
      exact iff_of_true (ecall_matches h0) trivial
    · split at hw
      · rename_i hword
        obtain rfl := Option.some.inj hw
        rw [hword]
        exact iff_of_true (ebreak_matches h0) trivial
      · cases hw
  · cases hw

end Execute

end AncoreOS.Drivers
