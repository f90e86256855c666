import AncoreOS.Arch.Cpu

/-!
# The frame the interrupt stubs build

Each vector has a stub that pushes a zero where the processor pushes no error
code, pushes the vector and goes on to `isr_common_stub`, which pushes the
general-purpose registers and passes their address to `ISR_Handler` as a
`Registers_t *`.

The fields of `Registers_t` start with `rax`, and so do the pushes; the stack
grows down, so the first push is the last field.  `isrFrame_holds` gives the
frame word by word, and `registers_eq_iff` says when it is the one the handler
believes it sees.
-/

namespace AncoreOS.Arch

open ByteMemory

/-- The vectors of the macro `ISR_ERRORCODE`; all others use `ISR_NOERRORCODE`. -/
def isrErrorCode (vector : BitVec 8) : Bool := vector ∈ [8, 10, 11, 12, 13, 14, 17, 21]

def isrStub (vector : BitVec 8) : List Insn :=
  if isrErrorCode vector then [.cli, .pushImm (vector.setWidth 64)]
  else [.cli, .pushImm 0, .pushImm (vector.setWidth 64)]

/-- The registers `isr_common_stub` pushes, in order. -/
def pushed : List Reg :=
  [.rax, .rbx, .rcx, .rdx, .rsi, .rdi, .rbp, .r8, .r9, .r10, .r11, .r12, .r13, .r14, .r15]

/-- `isr_common_stub` up to and with the call of `ISR_Handler`. -/
def isrCommonStub (next : Word) : List Insn :=
  pushed.map .push ++ [.movRsp .rdi, .call next]

/-- `Registers_t`: a packed structure of 64-bit words. -/
@[ext]
structure Registers where
  rax : Word
  rbx : Word
  rcx : Word
  rdx : Word
  rsi : Word
  rdi : Word
  rbp : Word
  r8 : Word
  r9 : Word
  r10 : Word
  r11 : Word
  r12 : Word
  r13 : Word
  r14 : Word
  r15 : Word
  interrupt : Word
  error : Word
  rip : Word
  cs : Word
  rflags : Word
  rsp : Word
  ss : Word
  deriving DecidableEq, Repr

/-- The structure at the address `regs`, where the field number `k` lies at the
offset `8 * k`. -/
def Registers.read (m : Mem) (regs : Word) : Registers :=
  let field (k : Nat) : Word := load64 m (regs + BitVec.ofNat 64 (8 * k))
  { rax := field 0, rbx := field 1, rcx := field 2, rdx := field 3, rsi := field 4, rdi := field 5,
    rbp := field 6, r8 := field 7, r9 := field 8, r10 := field 9, r11 := field 10, r12 := field 11,
    r13 := field 12, r14 := field 13, r15 := field 14, interrupt := field 15, error := field 16,
    rip := field 17, cs := field 18, rflags := field 19, rsp := field 20, ss := field 21 }

/-- The processor when `ISR_Handler` starts. -/
def isrEntry (c : Cpu) (irq : Interrupt) (next : Word) : Cpu :=
  run (c.deliver irq) (isrStub irq.vector ++ isrCommonStub next)

/-- The argument of `ISR_Handler`. -/
def isrRegisters (c : Cpu) (irq : Interrupt) (next : Word) : Registers :=
  Registers.read (isrEntry c irq next).mem ((isrEntry c irq next).regs .rdi)

/-- What the fields are for: the registers at the moment of the interrupt and the
words the processor pushes, with `0` for an error code it does not push. -/
def atInterrupt (c : Cpu) (irq : Interrupt) : Registers :=
  { rax := c.regs .rax, rbx := c.regs .rbx, rcx := c.regs .rcx, rdx := c.regs .rdx,
    rsi := c.regs .rsi, rdi := c.regs .rdi, rbp := c.regs .rbp, r8 := c.regs .r8, r9 := c.regs .r9,
    r10 := c.regs .r10, r11 := c.regs .r11, r12 := c.regs .r12, r13 := c.regs .r13,
    r14 := c.regs .r14, r15 := c.regs .r15, interrupt := irq.vector.setWidth 64,
    error := irq.error.getD 0, rip := c.rip, cs := c.cs, rflags := c.rflags, rsp := c.rsp,
    ss := c.ss }

/-! ### The frame -/

/-- The words above the vector: the stub's zero, if it pushes one, and the processor's. -/
def pushedAbove (c : Cpu) (irq : Interrupt) : List Word :=
  (if isrErrorCode irq.vector then [] else [0]) ++
    (irq.error.toList ++ [c.rip, c.cs, c.rflags, c.rsp, c.ss])

/-- The words of the frame, from the address passed to `ISR_Handler` on. -/
def isrFrame (c : Cpu) (irq : Interrupt) : List Word :=
  (pushed.map c.regs).reverse ++ irq.vector.setWidth 64 :: pushedAbove c irq

theorem run_isrStub {c : Cpu} {ws : List Word} (h : c.Stack ws) (hlen : ws.length + 2 < 2 ^ 60)
    (vector : BitVec 8) :
    (run c (isrStub vector)).Stack (vector.setWidth 64 ::
      ((if isrErrorCode vector then [] else [0]) ++ ws)) ∧
      (run c (isrStub vector)).regs = c.regs := by
  have hcli : c.cli.Stack ws := h
  unfold isrStub
  split
  · exact ⟨hcli.push (by omega) _, rfl⟩
  · exact ⟨(hcli.push (by omega) 0).push (by rw [List.length_cons]; omega) _, rfl⟩

theorem isrFrame_length (c : Cpu) (irq : Interrupt) : (isrFrame c irq).length ≤ 23 := by
  have herr : irq.error.toList.length ≤ 1 := by cases irq.error <;> simp
  simp only [isrFrame, pushedAbove, pushed, List.length_append, List.length_reverse, List.length_map,
    List.length_cons, List.length_nil]
  split
  · simp only [List.length_nil]
    omega
  · simp only [List.length_cons, List.length_nil]
    omega

/-- **The frame, word by word.** -/
theorem isrFrame_holds (c : Cpu) (irq : Interrupt) (next : Word) :
    Holds (isrEntry c irq next).mem ((isrEntry c irq next).regs .rdi) (isrFrame c irq) := by
  have hlen := isrFrame_length c irq
  have hsplit := hlen
  rw [isrFrame, pushedAbove, List.length_append, List.length_cons, List.length_append,
    List.length_reverse, List.length_map, List.length_append] at hsplit
  obtain ⟨hdel, hdelRegs⟩ := deliver_stack c irq
  obtain ⟨hstub, hstubRegs⟩ := run_isrStub hdel (by rw [List.length_append]; omega) irq.vector
  obtain ⟨hpush, _⟩ := run_push pushed _ hstub
    (by rw [List.length_cons, List.length_append, List.length_append]; omega)
  rw [hstubRegs, hdelRegs] at hpush
  -- the return address goes below the frame
  have hcall := hpush.push (lt_of_le_of_lt hlen (by decide)) next
  have hentry : isrEntry c irq next = Insn.exec (Insn.exec (run (run (c.deliver irq)
      (isrStub irq.vector)) (pushed.map .push)) (.movRsp .rdi)) (.call next) := by
    rw [isrEntry, isrCommonStub, run_append, run_append]
    rfl
  rw [hentry]
  exact Holds.tail hcall

/-! ### When the handler sees the truth -/

/-- The registers that trade places in the frame hold equal values. -/
structure Mirrored (c : Cpu) : Prop where
  rax : c.regs .rax = c.regs .r15
  rbx : c.regs .rbx = c.regs .r14
  rcx : c.regs .rcx = c.regs .r13
  rdx : c.regs .rdx = c.regs .r12
  rsi : c.regs .rsi = c.regs .r11
  rdi : c.regs .rdi = c.regs .r10
  rbp : c.regs .rbp = c.regs .r9

/-- The general-purpose fields hold the registers in reverse. -/
theorem isrRegisters_general (c : Cpu) (irq : Interrupt) (next : Word) :
    let r := isrRegisters c irq next
    (r.rax = c.regs .r15 ∧ r.rbx = c.regs .r14 ∧ r.rcx = c.regs .r13 ∧ r.rdx = c.regs .r12 ∧
      r.rsi = c.regs .r11 ∧ r.rdi = c.regs .r10 ∧ r.rbp = c.regs .r9) ∧
    (r.r8 = c.regs .r8 ∧ r.r9 = c.regs .rbp ∧ r.r10 = c.regs .rdi ∧ r.r11 = c.regs .rsi ∧
      r.r12 = c.regs .rdx ∧ r.r13 = c.regs .rcx ∧ r.r14 = c.regs .rbx ∧ r.r15 = c.regs .rax) ∧
    r.interrupt = irq.vector.setWidth 64 := by
  have h := isrFrame_holds c irq next
  exact ⟨⟨h 0 _ rfl, h 1 _ rfl, h 2 _ rfl, h 3 _ rfl, h 4 _ rfl, h 5 _ rfl, h 6 _ rfl⟩,
    ⟨h 7 _ rfl, h 8 _ rfl, h 9 _ rfl, h 10 _ rfl, h 11 _ rfl, h 12 _ rfl, h 13 _ rfl, h 14 _ rfl⟩,
    h 15 _ rfl⟩

theorem isrRegisters_above (c : Cpu) (irq : Interrupt) (next : Word) :
    let r := isrRegisters c irq next
    (∀ w, (pushedAbove c irq)[0]? = some w → r.error = w) ∧
    (∀ w, (pushedAbove c irq)[1]? = some w → r.rip = w) ∧
    (∀ w, (pushedAbove c irq)[2]? = some w → r.cs = w) ∧
    (∀ w, (pushedAbove c irq)[3]? = some w → r.rflags = w) ∧
    (∀ w, (pushedAbove c irq)[4]? = some w → r.rsp = w) ∧
    ∀ w, (pushedAbove c irq)[5]? = some w → r.ss = w := by
  have h := isrFrame_holds c irq next
  exact ⟨fun w hw => h 16 w hw, fun w hw => h 17 w hw, fun w hw => h 18 w hw,
    fun w hw => h 19 w hw, fun w hw => h 20 w hw, fun w hw => h 21 w hw⟩

theorem Cpu.rflags_ne_zero (c : Cpu) : c.rflags ≠ 0 := by
  intro h
  have hbit := c.rflagsFixed
  rw [h] at hbit
  exact absurd hbit (by decide)

/-- The processor's words are in place exactly when the stub is right about the error
code: a wrong one shifts them, and `RFLAGS` would have to be zero. -/
theorem isrRegisters_above_iff (c : Cpu) (irq : Interrupt) (next : Word) :
    let r := isrRegisters c irq next
    (r.error = irq.error.getD 0 ∧ r.rip = c.rip ∧ r.cs = c.cs ∧ r.rflags = c.rflags ∧
      r.rsp = c.rsp ∧ r.ss = c.ss) ↔ irq.error.isSome = isrErrorCode irq.vector := by
  intro r
  obtain ⟨h0, h1, h2, h3, h4, h5⟩ := isrRegisters_above c irq next
  have hflags := c.rflags_ne_zero
  unfold pushedAbove at h0 h1 h2 h3 h4 h5
  cases hstub : isrErrorCode irq.vector with
  | true =>
    rw [hstub, if_pos rfl] at h0 h1 h2 h3 h4 h5
    cases herr : irq.error with
    | some e =>
      rw [herr] at h0 h1 h2 h3 h4 h5
      exact iff_of_true ⟨h0 e rfl, h1 _ rfl, h2 _ rfl, h3 _ rfl, h4 _ rfl, h5 _ rfl⟩ rfl
    | none =>
      rw [herr] at h0 h1 h2 h3 h4 h5
      refine iff_of_false ?_ Bool.false_ne_true
      rintro ⟨he, hrip, hcs, -, -, -⟩
      have hrip0 : c.rip = 0 := (h0 _ rfl).symm.trans he
      have hcs0 : c.cs = 0 := ((h1 _ rfl).symm.trans hrip).trans hrip0
      exact hflags (((h2 _ rfl).symm.trans hcs).trans hcs0)
  | false =>
    rw [hstub, if_neg Bool.false_ne_true] at h0 h1 h2 h3 h4 h5
    cases herr : irq.error with
    | some e =>
      rw [herr] at h0 h1 h2 h3 h4 h5
      refine iff_of_false ?_ Bool.false_ne_true.symm
      rintro ⟨he, hrip, hcs, hfl, -, -⟩
      have he0 : e = 0 := he.symm.trans (h0 _ rfl)
      have hrip0 : c.rip = 0 := (hrip.symm.trans (h1 _ rfl)).trans he0
      have hcs0 : c.cs = 0 := (hcs.symm.trans (h2 _ rfl)).trans hrip0
      exact hflags ((hfl.symm.trans (h3 _ rfl)).trans hcs0)
    | none =>
      rw [herr] at h0 h1 h2 h3 h4 h5
      exact iff_of_true ⟨h0 _ rfl, h1 _ rfl, h2 _ rfl, h3 _ rfl, h4 _ rfl, h5 _ rfl⟩ rfl

/-- **The handler sees the state at the interrupt exactly when the mirrored registers
agree and the stub expects an error code just where the processor pushes one.** -/
theorem registers_eq_iff (c : Cpu) (irq : Interrupt) (next : Word) :
    isrRegisters c irq next = atInterrupt c irq ↔
      Mirrored c ∧ irq.error.isSome = isrErrorCode irq.vector := by
  have habove := isrRegisters_above_iff c irq next
  obtain ⟨⟨hax, hbx, hcx, hdx, hsi, hdi, hbp⟩, ⟨h8, h9, h10, h11, h12, h13, h14, h15⟩, hint⟩ :=
    isrRegisters_general c irq next
  constructor
  · intro h
    rw [h] at hax hbx hcx hdx hsi hdi hbp habove
    exact ⟨⟨hax, hbx, hcx, hdx, hsi, hdi, hbp⟩, habove.mp ⟨rfl, rfl, rfl, rfl, rfl, rfl⟩⟩
  · rintro ⟨hm, herr⟩
    obtain ⟨he, hrip, hcs, hfl, hsp, hss⟩ := habove.mpr herr
    exact Registers.ext (hax.trans hm.rax.symm) (hbx.trans hm.rbx.symm) (hcx.trans hm.rcx.symm)
      (hdx.trans hm.rdx.symm) (hsi.trans hm.rsi.symm) (hdi.trans hm.rdi.symm)
      (hbp.trans hm.rbp.symm) h8 (h9.trans hm.rbp) (h10.trans hm.rdi) (h11.trans hm.rsi)
      (h12.trans hm.rdx) (h13.trans hm.rcx) (h14.trans hm.rbx) (h15.trans hm.rax) hint he hrip hcs
      hfl hsp hss

/-- A processor with `1` in `rax` and `0` in the other registers. -/
def exampleCpu : Cpu where
  regs := Function.update (fun _ => 0) .rax 1
  rsp := 0x9000
  rip := 0x400000
  rflags := 0x202
  cs := 0x28
  ss := 0x30
  mem := fun _ => 0
  rflagsFixed := by decide

/-- A timer interrupt shows the handler `rax = 0` and `r15 = 1`. -/
theorem exampleCpu_registers_ne :
    (isrRegisters exampleCpu ⟨32, none, 0x9000⟩ 0x200000).rax = 0 ∧
      (isrRegisters exampleCpu ⟨32, none, 0x9000⟩ 0x200000).r15 = 1 ∧
      isrRegisters exampleCpu ⟨32, none, 0x9000⟩ 0x200000 ≠
        atInterrupt exampleCpu ⟨32, none, 0x9000⟩ := by
  obtain ⟨⟨hax, _⟩, ⟨_, _, _, _, _, _, _, h15⟩, _⟩ :=
    isrRegisters_general exampleCpu ⟨32, none, 0x9000⟩ 0x200000
  refine ⟨hax, h15, fun h => ?_⟩
  rw [h] at hax
  exact absurd hax (by decide)

end AncoreOS.Arch
