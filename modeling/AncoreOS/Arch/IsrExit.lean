import AncoreOS.Arch.Isr

/-!
# The way out of an interrupt

After `ISR_Handler` the common stub pops the general-purpose registers in the
opposite order, drops the vector and the word above it, and executes `iretq`.  One
sequence serves all 256 vectors, so the word above the vector has to be there: the
processor's error code, or the zero of the stub.

The pops always restore the registers (`run_pop`).  The stack pointer is right when
the stub knows whether the processor pushes an error code, and for the vectors `29`
and `30` it does not: `restored_iff`.
-/

namespace AncoreOS.Arch

open ByteMemory

def Cpu.pop (c : Cpu) (r : Reg) : Cpu :=
  { c with
    regs := Function.update c.regs r (load64 c.mem c.rsp)
    rsp := c.rsp + 8 }

/-- `add rsp, v`. -/
def Cpu.addRsp (c : Cpu) (v : Word) : Cpu := { c with rsp := c.rsp + v }

/-- The registers `isr_common_stub` pops, in order. -/
def popped : List Reg :=
  [.r15, .r14, .r13, .r12, .r11, .r10, .r9, .r8, .rbp, .rdi, .rsi, .rdx, .rcx, .rbx, .rax]

/-- `isr_common_stub` from the return of `ISR_Handler` up to `iretq`. -/
def isrExit (c : Cpu) : Cpu := (popped.foldl Cpu.pop c).addRsp 16

/-! ### Pops -/

theorem run_pop_rsp :
    ∀ (rs : List Reg) (c : Cpu),
      (rs.foldl Cpu.pop c).rsp = c.rsp + BitVec.ofNat 64 (8 * rs.length) := by
  intro rs
  induction rs with
  | nil => exact fun c => (BitVec.add_zero c.rsp).symm
  | cons r rs ih =>
    intro c
    rw [List.foldl_cons, ih, List.length_cons, show 8 * (rs.length + 1) = 8 + 8 * rs.length by ring,
      BitVec.ofNat_add, ← BitVec.add_assoc]
    rfl

/-- **Popping words that are on the stack** puts each into its register. -/
theorem run_pop {ws : List Word} (f : Reg → Word) :
    ∀ (rs : List Reg) (c : Cpu), c.Stack (rs.map f ++ ws) →
      (∀ r ∈ rs, (rs.foldl Cpu.pop c).regs r = f r) ∧
        ∀ r, r ∉ rs → (rs.foldl Cpu.pop c).regs r = c.regs r := by
  intro rs
  induction rs with
  | nil => exact fun c _ => ⟨fun r hr => absurd hr List.not_mem_nil, fun r _ => rfl⟩
  | cons r rs ih =>
    intro c h
    obtain ⟨htop, htail⟩ := Holds.pop h
    obtain ⟨hin, hout⟩ := ih (c.pop r) htail
    refine ⟨fun r' hr' => ?_, fun r' hr' => ?_⟩
    · rw [List.foldl_cons]
      by_cases hmem : r' ∈ rs
      · exact hin r' hmem
      · obtain rfl : r' = r := (List.mem_cons.mp hr').resolve_right hmem
        rw [hout r' hmem, Cpu.pop]
        exact (Function.update_self _ _ _).trans htop
    · obtain ⟨hne, hnot⟩ := not_or.mp fun hor => hr' (List.mem_cons.mpr hor)
      rw [List.foldl_cons, hout r' hnot, Cpu.pop]
      exact Function.update_of_ne hne _ _

/-! ### Where the stack pointer is -/

theorem run_push_rsp :
    ∀ (rs : List Reg) (c : Cpu),
      (run c (rs.map .push)).rsp = c.rsp - BitVec.ofNat 64 (8 * rs.length) := by
  intro rs
  induction rs with
  | nil => exact fun c => (BitVec.sub_zero c.rsp).symm
  | cons r rs ih =>
    intro c
    have hrun : (run c ((r :: rs).map .push)).rsp = (run (c.push (c.regs r)) (rs.map .push)).rsp :=
      rfl
    rw [hrun, ih, List.length_cons, show 8 * (rs.length + 1) = 8 + 8 * rs.length by ring,
      BitVec.ofNat_add]
    show c.rsp - 8 - _ = _
    bv_omega

/-- The number of words above the vector in the stub's view, the words the processor pushes
without an error code not counted. -/
def errorWords (irq : Interrupt) : Nat :=
  irq.error.toList.length + if isrErrorCode irq.vector then 0 else 1

theorem errorWords_le (irq : Interrupt) : errorWords irq ≤ 2 := by
  have hlen : irq.error.toList.length ≤ 1 := by cases irq.error <;> simp
  rw [errorWords]
  split <;> omega

theorem deliver_rsp (c : Cpu) (irq : Interrupt) :
    (c.deliver irq).rsp = irq.sp - BitVec.ofNat 64 (8 * (5 + irq.error.toList.length)) := by
  unfold Cpu.deliver
  cases irq.error with
  | none =>
    show irq.sp - 8 - 8 - 8 - 8 - 8 = irq.sp - 40
    bv_omega
  | some e =>
    show irq.sp - 8 - 8 - 8 - 8 - 8 - 8 = irq.sp - 48
    bv_omega

theorem run_isrStub_rsp (c : Cpu) (vector : BitVec 8) :
    (run c (isrStub vector)).rsp =
      c.rsp - BitVec.ofNat 64 (8 * (1 + if isrErrorCode vector then 0 else 1)) := by
  unfold isrStub
  split
  · rfl
  · show c.rsp - 8 - 8 = c.rsp - 16
    bv_omega

theorem call_rsp (c : Cpu) (next : Word) :
    (run c [.movRsp .rdi, .call next]).regs .rdi = c.rsp ∧
      (run c [.movRsp .rdi, .call next]).rsp = c.rsp - 8 := by
  refine ⟨?_, rfl⟩
  show Function.update c.regs .rdi c.rsp .rdi = c.rsp
  exact Function.update_self _ _ _

/-- Sixteen words more than the processor's and the stub's lie above the argument of the
handler, and the return address below it. -/
theorem isrEntry_rsp (c : Cpu) (irq : Interrupt) (next : Word) :
    (isrEntry c irq next).regs .rdi = (isrEntry c irq next).rsp + 8 ∧
      (isrEntry c irq next).rsp = irq.sp - BitVec.ofNat 64 (8 * (22 + errorWords irq)) := by
  have hle := errorWords_le irq
  obtain ⟨hrdi, hrsp⟩ := call_rsp (run (run (c.deliver irq) (isrStub irq.vector)) (pushed.map .push))
    next
  rw [run_push_rsp, run_isrStub_rsp, deliver_rsp, show pushed.length = 15 from rfl] at hrdi hrsp
  rw [isrEntry, isrCommonStub, run_append, run_append, hrdi, hrsp]
  rw [errorWords] at hle ⊢
  constructor
  · rw [BitVec.sub_add_cancel]
  · bv_omega

/-! ### What `iretq` finds -/

/-- The vectors for which the processor pushes an error code. -/
def cpuErrorCode (vector : BitVec 8) : Bool :=
  [8, 10, 11, 12, 13, 14, 17, 21, 29, 30].contains vector

/-- The handler returns, and the `Registers_t` it was passed is as it was.  It may have changed
every register and all other memory. -/
structure LeavesFrame (c c' : Cpu) : Prop where
  rsp : c'.rsp = c.rsp + 8
  frame : ∀ x, InRange (c.rsp + 8) 176 x → c'.mem x = c.mem x

/-- The address of the word `deliver` pushes for `rip`. -/
def ripAddress (irq : Interrupt) : Word := irq.sp - 40

theorem deliver_rip (c : Cpu) (irq : Interrupt) :
    load64 (c.deliver irq).mem (ripAddress irq) = c.rip := by
  obtain ⟨hstack, -⟩ := deliver_stack c irq
  unfold Cpu.Stack at hstack
  cases herror : irq.error with
  | none =>
    have hrsp : (c.deliver irq).rsp = ripAddress irq := by
      rw [Cpu.deliver, herror, ripAddress]
      show irq.sp - 8 - 8 - 8 - 8 - 8 = irq.sp - 40
      bv_omega
    rw [herror, hrsp] at hstack
    exact hstack.pop.1
  | some e =>
    have hrsp : (c.deliver irq).rsp + 8 = ripAddress irq := by
      rw [Cpu.deliver, herror, ripAddress]
      show irq.sp - 8 - 8 - 8 - 8 - 8 - 8 + 8 = irq.sp - 40
      bv_omega
    rw [herror] at hstack
    have htail := hstack.pop.2
    rw [hrsp] at htail
    exact htail.pop.1

/-- The registers are those of the moment of the interrupt, and the stack pointer is at `rip`. -/
structure Restored (c : Cpu) (irq : Interrupt) (c' : Cpu) : Prop where
  regs : c'.regs = c.regs
  rsp : c'.rsp = ripAddress irq

theorem isrExit_regs {c c' : Cpu} {irq : Interrupt} {next : Word}
    (h : LeavesFrame (isrEntry c irq next) c') : (isrExit c').regs = c.regs := by
  obtain ⟨hrdi, -⟩ := isrEntry_rsp c irq next
  have hframe := isrFrame_holds c irq next
  rw [hrdi, isrFrame] at hframe
  -- the pops read fifteen words of the frame
  have hstack : c'.Stack (popped.map c.regs ++ []) := by
    intro k w hk
    rw [List.append_nil] at hk
    have hlt : k < 15 := (List.getElem?_eq_some_iff.mp hk).1
    have hword := hframe k w (by
      rw [List.getElem?_append_left (by rw [List.length_reverse, List.length_map]; exact hlt)]
      exact hk)
    rw [h.rsp, ← hword]
    exact load64_congr fun x hx => h.frame x (InRange.of_offset hx (by omega) (by decide))
  obtain ⟨hregs, -⟩ := run_pop c.regs popped c' hstack
  funext r
  exact hregs r (by cases r <;> decide)

theorem isrExit_rsp {c c' : Cpu} {irq : Interrupt} {next : Word}
    (h : LeavesFrame (isrEntry c irq next) c') :
    (isrExit c').rsp = irq.sp - BitVec.ofNat 64 (8 * (4 + errorWords irq)) := by
  obtain ⟨-, hrsp⟩ := isrEntry_rsp c irq next
  have hle := errorWords_le irq
  show (popped.foldl Cpu.pop c').rsp + 16 = _
  rw [run_pop_rsp, h.rsp, hrsp, show popped.length = 15 from rfl]
  bv_omega

theorem cpuErrorCode_eq_iff (vector : BitVec 8) :
    cpuErrorCode vector = isrErrorCode vector ↔ vector ≠ 29 ∧ vector ≠ 30 := by
  revert vector
  decide

/-- **The interrupted state is restored exactly for the vectors whose stub knows about the error
code**, which are all but `29` and `30`. -/
theorem restored_iff (c : Cpu) (irq : Interrupt) (next : Word) (c' : Cpu)
    (herror : irq.error.isSome = cpuErrorCode irq.vector)
    (h : LeavesFrame (isrEntry c irq next) c') :
    Restored c irq (isrExit c') ↔ irq.vector ≠ 29 ∧ irq.vector ≠ 30 := by
  have hrsp := isrExit_rsp h
  have hwords : Restored c irq (isrExit c') ↔ errorWords irq = 1 := by
    have hle := errorWords_le irq
    constructor
    · intro hr
      have heq := hrsp.symm.trans hr.rsp
      rw [ripAddress] at heq
      bv_omega
    · intro hone
      refine ⟨isrExit_regs h, ?_⟩
      rw [hrsp, hone]
      rfl
  rw [hwords, ← cpuErrorCode_eq_iff, ← herror, errorWords]
  cases irq.error <;> cases isrErrorCode irq.vector <;> simp

/-- The state after a handler that only returns. -/
def Cpu.ret (c : Cpu) : Cpu := { c with rsp := c.rsp + 8 }

/-- A general-protection fault. -/
theorem restored_iff_general_protection :
    Restored exampleCpu ⟨13, some 0, 0x9000⟩
        (isrExit (isrEntry exampleCpu ⟨13, some 0, 0x9000⟩ 0x200000).ret) ↔
      (13 : BitVec 8) ≠ 29 ∧ (13 : BitVec 8) ≠ 30 :=
  restored_iff exampleCpu ⟨13, some 0, 0x9000⟩ 0x200000 _ (by decide) ⟨rfl, fun _ _ => rfl⟩

/-- After a VMM communication exception `iretq` takes the error code for `rip`. -/
theorem restored_vmm_communication :
    LeavesFrame (isrEntry exampleCpu ⟨29, some 0, 0x9000⟩ 0x200000)
        (isrEntry exampleCpu ⟨29, some 0, 0x9000⟩ 0x200000).ret ∧
      cpuErrorCode 29 = true ∧
      (isrExit (isrEntry exampleCpu ⟨29, some 0, 0x9000⟩ 0x200000).ret).rsp = 0x8FD0 ∧
      ripAddress ⟨29, some 0, 0x9000⟩ = 0x8FD8 ∧
      ¬ Restored exampleCpu ⟨29, some 0, 0x9000⟩
        (isrExit (isrEntry exampleCpu ⟨29, some 0, 0x9000⟩ 0x200000).ret) := by
  have hframe : LeavesFrame (isrEntry exampleCpu ⟨29, some 0, 0x9000⟩ 0x200000)
      (isrEntry exampleCpu ⟨29, some 0, 0x9000⟩ 0x200000).ret := ⟨rfl, fun _ _ => rfl⟩
  have hrsp := isrExit_rsp hframe
  rw [show (0x9000 : Word) - BitVec.ofNat 64 (8 * (4 + errorWords ⟨29, some 0, 0x9000⟩)) = 0x8FD0 by
    decide] at hrsp
  refine ⟨hframe, by decide, hrsp, by decide, fun h => ?_⟩
  have hrip := hrsp.symm.trans h.rsp
  exact absurd hrip (by decide)

end AncoreOS.Arch
