import AncoreOS.Kernel.Keyboard

/-!
# Interrupts through the local APIC

`APIC_IRQ_Handler` serves the vectors `0x20` to `0x5F`.  It calls the handler of the table
`g_APICIRQHandler_ts`, if there is one, and ends the interrupt itself.  The only handler
the kernel puts into the table is `keyboard_handler`, on IRQ 1, and that one ends the
interrupt too when it has read a byte that neither is nor follows a prefix.

A run is a list of `ApicEvent`s.  What one interrupt writes is `apicIrqHandler_apic`, and
`eoi_once_iff` says in which runs every interrupt is ended once.
-/

namespace AncoreOS.Drivers

open AncoreOS.Kernel

/-! ### The dispatcher -/

/-- `APIC_REMAP_OFFSET`. -/
def apicRemapOffset : Nat := 0x20

/-- `MAX_IRQS`. -/
def maxIrqs : Nat := 64

/-- The functions that the kernel registers. -/
inductive IrqHandler
  | keyboardHandler
  deriving DecidableEq, Repr

/-- A line of the log: the arguments of `"Unhandled APIC IRQ %d  ISR=%x  IRR=%x...\n"`, or
of `"Invalid IRQ number %d\n"`. -/
inductive ApicMessage
  | unhandled (irq : Nat) (isr irr : BitVec 32)
  | invalid (irq : BitVec 32)
  deriving DecidableEq, Repr

/-- `handlers` is `g_APICIRQHandler_ts`.  The writes to the local APIC are in `kbd`. -/
structure ApicState where
  kbd : KeyboardState
  handlers : Nat → Option IrqHandler
  messages : List ApicMessage

def apicStart : ApicState := ⟨keyboardStart, fun _ => none, []⟩

/-- An interrupt on one of the vectors of `APIC_IRQ_Initialize`, with what the handlers
read from the devices: the byte the keyboard has ready and two registers of the APIC. -/
structure ApicInterrupt where
  vector : BitVec 8
  scancode : BitVec 8
  isr : BitVec 32
  irr : BitVec 32
  low : 0x20 ≤ vector
  high : vector ≤ 0x5F

def ApicInterrupt.irq (i : ApicInterrupt) : Nat := i.vector.toNat - apicRemapOffset

def IrqHandler.call (h : IrqHandler) (scancode : BitVec 8) (s : KeyboardState) : KeyboardState :=
  match h with
  | .keyboardHandler => Kernel.keyboardHandler scancode s

def apicIrqHandler (i : ApicInterrupt) (s : ApicState) : ApicState :=
  let s := match s.handlers i.irq with
    | some h => { s with kbd := h.call i.scancode s.kbd }
    | none => { s with messages := .unhandled i.irq i.isr i.irr :: s.messages }
  { s with kbd := lapicSendEoi s.kbd }

def apicIrqRegisterHandler (irq : BitVec 32) (handler : IrqHandler) (s : ApicState) : ApicState :=
  if maxIrqs ≤ irq.toNat then { s with messages := .invalid irq :: s.messages }
  else { s with handlers := Function.update s.handlers irq.toNat (some handler) }

/-- What `keyboard_apic_init` does to the table. -/
def keyboardApicInit (s : ApicState) : ApicState := apicIrqRegisterHandler 1 .keyboardHandler s

inductive ApicEvent
  | init
  | interrupt (i : ApicInterrupt)

def ApicState.step (s : ApicState) : ApicEvent → ApicState
  | .init => keyboardApicInit s
  | .interrupt i => apicIrqHandler i s

def ApicState.run (s : ApicState) (es : List ApicEvent) : ApicState := es.foldl ApicState.step s

/-! ### Ends of interrupts -/

/-- How often `APIC_EOI` has been written. -/
def eoiWrites (s : ApicState) : Nat := s.kbd.apic.countP fun w => w.1 = apicEoi

/-- Every interrupt of the run writes `APIC_EOI` once. -/
def EoiOnce (s : ApicState) (es : List ApicEvent) : Prop :=
  ∀ es₁ i es₂, es = es₁ ++ .interrupt i :: es₂ →
    eoiWrites ((s.run es₁).step (.interrupt i)) = eoiWrites (s.run es₁) + 1

/-- The interrupt brings `keyboard_handler` a byte that neither is nor follows a prefix. -/
def PlainByte (s : ApicState) (i : ApicInterrupt) : Prop :=
  i.vector = 0x21 ∧ s.handlers 1 = some .keyboardHandler ∧ i.scancode ≠ 0xE0 ∧
    s.kbd.extended = false

/-- Only IRQ 1 has a handler. -/
def KernelTable (s : ApicState) : Prop := ∀ irq h, s.handlers irq = some h → irq = 1

section Step

variable {s : ApicState}

/-- The handler ends the interrupt on its last path alone. -/
theorem keyboardHandler_apic (b : BitVec 8) (k : KeyboardState) :
    (keyboardHandler b k).apic =
      if b ≠ 0xE0 ∧ k.extended = false then (apicEoi, 0) :: k.apic else k.apic := by
  unfold keyboardHandler
  by_cases hb : b = 0xE0
  · rw [if_pos hb, if_neg (fun h => h.1 hb)]
  · rw [if_neg hb]
    cases hext : k.extended with
    | true => rw [if_pos rfl, if_neg (by simp)]
    | false =>
      rw [if_neg (by decide), if_pos ⟨hb, rfl⟩]
      rfl

/-- The writes of one interrupt, latest first. -/
theorem apicIrqHandler_apic (i : ApicInterrupt) (s : ApicState) :
    (apicIrqHandler i s).kbd.apic =
      (apicEoi, 0) :: match s.handlers i.irq with
        | some h => (h.call i.scancode s.kbd).apic
        | none => s.kbd.apic := by
  unfold apicIrqHandler
  cases s.handlers i.irq <;> rfl

theorem irq_eq_one {i : ApicInterrupt} : i.irq = 1 ↔ i.vector = 0x21 := by
  have hlow : 0x20 ≤ i.vector.toNat := i.low
  unfold ApicInterrupt.irq apicRemapOffset
  rw [← BitVec.toNat_inj]
  show _ ↔ i.vector.toNat = 0x21
  omega

/-- One interrupt writes `APIC_EOI` once, and once more on a plain byte. -/
theorem eoiWrites_interrupt (hs : KernelTable s) (i : ApicInterrupt) :
    (PlainByte s i ∧ eoiWrites (s.step (.interrupt i)) = eoiWrites s + 2) ∨
      (¬PlainByte s i ∧ eoiWrites (s.step (.interrupt i)) = eoiWrites s + 1) := by
  have hwrites := apicIrqHandler_apic i s
  unfold eoiWrites
  rw [ApicState.step, hwrites]
  cases hirq : s.handlers i.irq with
  | none =>
    refine Or.inr ⟨?_, by simp⟩
    rintro ⟨hvector, hsome, _⟩
    rw [irq_eq_one.mpr hvector, hsome] at hirq
    exact absurd hirq (Option.some_ne_none _)
  | some h =>
    have hone := hs i.irq h hirq
    cases h with
    | keyboardHandler =>
      rw [hone] at hirq
      simp only [IrqHandler.call, keyboardHandler_apic]
      by_cases hplain : i.scancode ≠ 0xE0 ∧ s.kbd.extended = false
      · refine Or.inl ⟨⟨irq_eq_one.mp hone, hirq, hplain⟩, ?_⟩
        rw [if_pos hplain]
        simp
      · refine Or.inr ⟨fun h => hplain h.2.2, ?_⟩
        rw [if_neg hplain]
        simp

theorem KernelTable.step (hs : KernelTable s) (e : ApicEvent) : KernelTable (s.step e) := by
  cases e with
  | init =>
    intro irq h hirq
    by_cases hone : irq = 1
    · exact hone
    · refine hs irq h ?_
      have hupdate : Function.update s.handlers 1 (some .keyboardHandler) irq = some h := hirq
      rwa [Function.update_of_ne hone] at hupdate
  | interrupt i =>
    intro irq h hirq
    refine hs irq h ?_
    unfold ApicState.step apicIrqHandler at hirq
    cases hi : s.handlers i.irq with
    | none => simpa [hi] using hirq
    | some h' => simpa [hi] using hirq

theorem KernelTable.run (hs : KernelTable s) (es : List ApicEvent) : KernelTable (s.run es) := by
  induction es generalizing s with
  | nil => exact hs
  | cons e es ih => exact ih (hs.step e)

end Step

/-- **Every interrupt is ended once** exactly when none brings the keyboard handler a plain
byte. -/
theorem eoi_once_iff (es : List ApicEvent) :
    EoiOnce apicStart es ↔
      ∀ es₁ i es₂, es = es₁ ++ .interrupt i :: es₂ → ¬PlainByte (apicStart.run es₁) i := by
  have hstart : KernelTable apicStart := fun _ _ h => absurd h (Option.some_ne_none _).symm
  refine forall_congr' fun es₁ => forall_congr' fun i => forall_congr' fun es₂ =>
    imp_congr_right fun _ => ?_
  rcases eoiWrites_interrupt (hstart.run es₁) i with ⟨hplain, htwo⟩ | ⟨hnot, hone⟩
  · refine iff_of_false ?_ (fun h => h hplain)
    rw [htwo]
    omega
  · exact iff_of_true hone hnot

/-- The letter a goes down. -/
def exampleLetter : ApicInterrupt := ⟨0x21, 0x1E, 0, 0, by decide, by decide⟩

/-- Two ends for one interrupt. -/
theorem exampleLetter_not_once : ¬∀ es, EoiOnce apicStart es := by
  intro h
  exact absurd (h [.init, .interrupt exampleLetter] [.init] exampleLetter [] rfl) (by decide)

end AncoreOS.Drivers
