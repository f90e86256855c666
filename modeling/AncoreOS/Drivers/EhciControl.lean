import AncoreOS.Drivers.EhciPoll
import AncoreOS.Drivers.EhciQtd

/-!
# What a control transfer executes

`usb_control_transfer` writes a queue head and up to three transfer descriptors into a page and
waits until the token in the overlay is not active.  A controller executes a descriptor only when
its token is active (`Ehc.ActiveOnly`), but no token that the driver writes is: the wait ends at
the first look, with nothing executed and nothing changed (`controlTransfer_idle`).

So the call returns what stands for success whenever it gets past `ehci_flush_async`
(`control_honest_iff`).
-/

namespace AncoreOS.Drivers

open ByteMemory AncoreOS.Mm

/-! ### The controller -/

inductive ControlStage
  | setup
  | data
  | status
  deriving DecidableEq, Repr

/-- The stages that have been executed, each with its bytes. -/
abbrev StageLog := List (ControlStage × Nat)

/-- The bytes of the data stage. -/
def StageLog.dataBytes (log : StageLog) : Nat :=
  ((log.filter fun e => e.1 = .data).map Prod.snd).sum

/-- Where the overlay and the descriptors are in the page. -/
def controlQtds : List Nat := [16, 64, 128, 192]

/-- No descriptor of the page is active. -/
def Inactive (page : Word) (m : Mem) : Prop :=
  ∀ o ∈ controlQtds, ¬Active (load32 m (page + BitVec.ofNat 64 (o + 8)))

/-- The controller at work on the page: it executes one stage after the other, each for a
descriptor that is active then, and it does what it likes to the memory. -/
inductive Executes (page : Word) : Mem × StageLog → Mem × StageLog → Prop
  | refl {x : Mem × StageLog} : Executes page x x
  | execute {m m' : Mem} {log : StageLog} {x : Mem × StageLog} {o : Nat} {e : ControlStage × Nat} :
      o ∈ controlQtds → Active (load32 m (page + BitVec.ofNat 64 (o + 8))) →
      Executes page (m', log ++ [e]) x → Executes page (m, log) x

theorem Executes.eq_of_inactive {page : Word} {m : Mem} {log : StageLog} {x : Mem × StageLog}
    (h : Executes page (m, log) x) (hm : Inactive page m) : x = (m, log) := by
  cases h with
  | refl => rfl
  | execute ho hactive _ => exact absurd hactive (hm _ ho)

/-- The controller executes a descriptor only if its Active bit is set.  The log goes on only when
the controller works on a transfer. -/
structure Ehc.ActiveOnly {σ : Type*} (C : Ehc σ) (executed : σ → StageLog) : Prop where
  dma : ∀ page m dev,
    Executes page (m, executed dev) ((C.dma page m dev).1, executed (C.dma page m dev).2)
  read : ∀ reg dev, executed (C.read reg dev).2 = executed dev
  write : ∀ reg v dev, executed (C.write reg v dev) = executed dev
  getTimeMs : ∀ dev, executed (C.getTimeMs dev).2 = executed dev
  udelay : ∀ micros dev, executed (C.udelay micros dev) = executed dev

/-! ### The tokens -/

section Tokens

variable {page data : Word} {devaddr : BitVec 8} {setup : UsbCtrlSetup} {dataLen : BitVec 16}
  {m : Mem}

/-- The token of the descriptor for the data. -/
def dataToken (data : Word) (dataLen : BitVec 16) : BitVec 32 :=
  if data ≠ 0 ∧ dataLen ≠ 0 then (dataLen &&& 0x7FFF).setWidth 32 <<< 16 else 0

/-- The words of the setup descriptor. -/
def setupWords (page : Word) (setup : UsbCtrlSetup) : List (Nat × BitVec 32) :=
  [(64, (page + 128).setWidth 32), (72, 8#32 <<< 16),
    (76, setup.bmRequestType.setWidth 32 ||| setup.bRequest.setWidth 32 <<< 8 |||
      setup.wValue.setWidth 32 <<< 16),
    (80, setup.wIndex.setWidth 32 ||| setup.wLength.setWidth 32 <<< 16)]

/-- The words for the data: their descriptor, or a link that leaves it out. -/
def dataWords (page data : Word) (dataLen : BitVec 16) : List (Nat × BitVec 32) :=
  if data ≠ 0 ∧ dataLen ≠ 0 then
    [(128, (page + 192).setWidth 32), (136, (dataLen &&& 0x7FFF).setWidth 32 <<< 16)] ++
      [0, 1, 2, 3, 4].map fun i => (140 + 4 * i, (data + BitVec.ofNat 64 (4096 * i)).setWidth 32)
  else [(64, (page + 192).setWidth 32)]

theorem controlSetup_eq : controlSetup page devaddr setup data dataLen m =
    pokes page [(0, 0x1), (4, devaddr.setWidth 32 <<< 8 ||| (64#32 <<< 16)), (8, 0)]
      (copyWords page 64 16 8 (pokes page [(192, 0x1), (200, 0), (12, 0)]
        (pokes page (dataWords page data dataLen)
          (pokes page (setupWords page setup) (fill m page 4096 0))))) := by
  unfold controlSetup dataWords
  split <;> rfl

theorem setupWords_bounds : ∀ w ∈ setupWords page setup, w.1 % 4 = 0 ∧ w.1 < 4096 := by
  simp [setupWords]

theorem dataWords_bounds : ∀ w ∈ dataWords page data dataLen, w.1 % 4 = 0 ∧ w.1 < 4096 := by
  unfold dataWords
  split <;> simp

/-- The words of the three descriptors, but for the link of the first one. -/
theorem load32_controlSetup {o : Nat} (ho : o % 4 = 0) (hfirst : 68 ≤ o) (hlast : o + 4 ≤ 4096) :
    load32 (controlSetup page devaddr setup data dataLen m) (page + BitVec.ofNat 64 o) =
      ([(192, 0x1), (200, 0), (12, 0)] : List (Nat × BitVec 32)).foldl
        (fun v w => if w.1 = o then w.2 else v)
        ((dataWords page data dataLen).foldl (fun v w => if w.1 = o then w.2 else v)
          ((setupWords page setup).foldl (fun v w => if w.1 = o then w.2 else v) 0)) := by
  have hzero : load32 (fill m page 4096 0) (page + BitVec.ofNat 64 o) = 0 := by
    simpa using @load32_fill_zero page m o 0 4096 (Nat.zero_le o) (by omega) le_rfl
  rw [controlSetup_eq, load32_pokes_of_not (by simp; omega) hlast,
    load32_copyWords_of_not (by omega) (by omega) hlast, load32_pokes_eq_foldl (by simp) ho (by omega),
    load32_pokes_eq_foldl dataWords_bounds ho (by omega),
    load32_pokes_eq_foldl setupWords_bounds ho (by omega), hzero]

theorem controlSetup_setupToken :
    load32 (controlSetup page devaddr setup data dataLen m) (page + BitVec.ofNat 64 72) =
      8#32 <<< 16 := by
  rw [load32_controlSetup (by decide) (by decide) (by decide), dataWords, setupWords]
  split <;> simp

theorem controlSetup_dataToken :
    load32 (controlSetup page devaddr setup data dataLen m) (page + BitVec.ofNat 64 136) =
      dataToken data dataLen := by
  rw [load32_controlSetup (by decide) (by decide) (by decide), dataWords, setupWords, dataToken]
  split <;> simp

theorem controlSetup_statusToken :
    load32 (controlSetup page devaddr setup data dataLen m) (page + BitVec.ofNat 64 200) = 0 := by
  rw [load32_controlSetup (by decide) (by decide) (by decide), dataWords, setupWords]
  split <;> simp

/-- The overlay has a copy of the first descriptor. -/
theorem controlSetup_overlayToken :
    load32 (controlSetup page devaddr setup data dataLen m) (page + BitVec.ofNat 64 24) =
      8#32 <<< 16 := by
  rw [controlSetup_eq, load32_pokes_of_not (by simp) (by decide)]
  refine (load32_copyWords (i := 2) (by decide) (by decide) (by decide) (by decide)).trans ?_
  rw [load32_pokes_eq_foldl (by simp) (by decide) (by decide),
    load32_pokes_eq_foldl dataWords_bounds (by decide) (by decide),
    load32_pokes_eq_foldl setupWords_bounds (by decide) (by decide), dataWords, setupWords]
  split <;> simp

/-- The token of the data has nothing in its low bits. -/
theorem dataToken_and {mask : BitVec 32} (hmask : mask &&& 0xFFFF = mask) :
    dataToken data dataLen &&& mask = 0 := by
  have hlow : ∀ x : BitVec 32, x <<< 16 &&& 0xFFFF = 0 := by
    intro x
    rw [← BitVec.toNat_inj, BitVec.toNat_and, show (0xFFFF : BitVec 32).toNat = 2 ^ 16 - 1 from rfl,
      Nat.and_two_pow_sub_one_eq_mod, BitVec.toNat_shiftLeft, Nat.shiftLeft_eq]
    show _ = 0
    omega
  unfold dataToken
  split
  · rw [← hmask, BitVec.and_comm mask, ← BitVec.and_assoc, hlow]
    exact BitVec.zero_and
  · exact BitVec.zero_and

/-- It asks for no more bytes than the caller does. -/
theorem dataToken_bytes : ((dataToken data dataLen >>> 16) &&& 0x7FFF).toNat ≤ dataLen.toNat := by
  unfold dataToken
  split
  · calc ((((dataLen &&& 0x7FFF).setWidth 32 <<< 16) >>> 16) &&& 0x7FFF : BitVec 32).toNat
        ≤ (((dataLen &&& 0x7FFF).setWidth 32 <<< 16) >>> 16 : BitVec 32).toNat := by
          rw [BitVec.toNat_and]
          exact Nat.and_le_left
      _ = (dataLen &&& 0x7FFF).toNat := by
          rw [BitVec.toNat_ushiftRight, BitVec.toNat_shiftLeft, BitVec.toNat_setWidth,
            Nat.shiftRight_eq_div_pow, Nat.shiftLeft_eq]
          have := (dataLen &&& 0x7FFF).isLt
          omega
      _ ≤ dataLen.toNat := by
          rw [BitVec.toNat_and]
          exact Nat.and_le_left
  · exact Nat.zero_le _

/-- **No token that the driver writes is active.** -/
theorem controlSetup_inactive : Inactive page (controlSetup page devaddr setup data dataLen m) := by
  unfold Inactive controlQtds
  simp only [List.forall_mem_cons, List.not_mem_nil, IsEmpty.forall_iff, implies_true, and_true,
    Nat.reduceAdd, controlSetup_overlayToken, controlSetup_setupToken, controlSetup_dataToken,
    controlSetup_statusToken]
  exact ⟨by decide, by decide, not_not.mpr (dataToken_and (by decide)), by decide⟩

theorem controlActual_nonneg : 0 ≤ controlActual (controlSetup page devaddr setup data dataLen m) page
    dataLen := by
  have htoken : load32 (controlSetup page devaddr setup data dataLen m) (page + 136) =
      dataToken data dataLen := controlSetup_dataToken
  have hbytes : ((dataToken data dataLen >>> 16) &&& 0x7FFF).toNat ≤ dataLen.toNat := dataToken_bytes
  unfold controlActual
  rw [htoken]
  dsimp only
  split <;> omega

end Tokens

/-! ### The call -/

section Call

variable {σ : Type*} {b : Limine} {C : Ehc σ} {executed : σ → StageLog} {page buf : Word}
  {len : Nat} {devaddr : BitVec 8} {setup : Option UsbCtrlSetup} {data : Word} {dataLen : BitVec 16}
  {s : Ehci σ}

/-- The controller leaves a page alone that has nothing to execute. -/
theorem transfer_of_inactive (hC : C.ActiveOnly executed) (hpage : Inactive page s.mem) (buf : Word)
    (len : Nat) :
    (s.transfer C page buf len).mem = s.mem ∧
      executed (s.transfer C page buf len).dev = executed s.dev := by
  have heq := Prod.mk.inj ((hC.dma page s.mem s.dev).eq_of_inactive hpage)
  refine ⟨funext fun x => ?_, heq.2⟩
  show (if TransferRegion page buf len x then (C.dma page s.mem s.dev).1 x else s.mem x) = s.mem x
  rw [heq.1, ite_self]

theorem executed_flushWait (hC : C.ActiveOnly executed) (n : Nat) (dev : σ) :
    executed (flushWait C n dev) = executed dev := by
  induction n generalizing dev with
  | zero => exact hC.read .usbsts dev
  | succ n ih =>
    unfold flushWait
    dsimp only
    split
    · rw [ih, hC.udelay, hC.read]
    · exact hC.read .usbsts dev

theorem executed_flushAsync (hC : C.ActiveOnly executed) (dev : σ) :
    executed (ehciFlushAsync C dev).2 = executed dev := by
  unfold ehciFlushAsync
  dsimp only
  split <;> rw [hC.read, executed_flushWait hC, hC.udelay, hC.write, hC.read]

theorem executed_runAsync (hC : C.ActiveOnly executed) :
    executed (ehciRunAsync C s).dev = executed s.dev := by
  unfold ehciRunAsync
  dsimp only
  rw [hC.udelay, hC.write, hC.read, hC.udelay, hC.write]

/-- The wait ends at its first look. -/
theorem controlWait_idle (hC : C.ActiveOnly executed) (hpage : Inactive page s.mem) (buf : Word)
    (len : Nat) (dataLen : BitVec 16) (oldHead : Word) (start : BitVec 32) (fuel : Nat) :
    ∃ s', controlWait b C page buf len dataLen oldHead start (fuel + 1) s =
        some (controlActual s.mem page dataLen, s') ∧ executed s'.dev = executed s.dev := by
  obtain ⟨hmem, hlog⟩ := transfer_of_inactive hC hpage buf len
  have hpage' : Inactive page (s.transfer C page buf len).mem := by rwa [hmem]
  obtain ⟨hmem', hlog'⟩ := transfer_of_inactive hC hpage' buf len
  have hidle : ¬Active (load32 (s.transfer C page buf len).mem (page + 24)) := hpage' 16 (by decide)
  refine ⟨controlDone b page oldHead ((s.transfer C page buf len).transfer C page buf len),
    (if_neg hidle).trans ?_, hlog'.trans hlog⟩
  rw [hmem', hmem]

/-- **A call that gets past the flush returns at once, and nothing has been executed.** -/
theorem controlTransfer_idle (hC : C.ActiveOnly executed) {pmm : Pmm}
    (hpalloc : palloc b s.pmm = (page, pmm)) (hpage : page ≠ 0)
    (hflush : (ehciFlushAsync C s.dev).1 = 0) (devaddr : BitVec 8) (st : UsbCtrlSetup) (data : Word)
    (dataLen : BitVec 16) (fuel : Nat) :
    ∃ s', usbControlTransfer b C (fuel + 1) devaddr (some st) data dataLen s =
        some (controlActual (controlSetup page devaddr st data dataLen pmm.mem) page dataLen, s') ∧
      executed s'.dev = executed s.dev := by
  obtain ⟨s₁, hs₁⟩ : ∃ s₁ : Ehci σ, s₁ =
      { s with
        pmm := { pmm with mem := controlSetup page devaddr st data dataLen pmm.mem }
        asyncListHead := page + b.hhdmOffset
        dev := (ehciFlushAsync C s.dev).2 } := ⟨_, rfl⟩
  have hinactive : Inactive page s₁.mem := hs₁ ▸ controlSetup_inactive
  obtain ⟨hmem, hlog⟩ := transfer_of_inactive hC hinactive (b.deref data) (controlLen data dataLen)
  obtain ⟨s₂, hs₂⟩ : ∃ s₂ : Ehci σ, s₂ = ehciRunAsync C
      (s₁.transfer C page (b.deref data) (controlLen data dataLen)) := ⟨_, rfl⟩
  have hmem₂ : s₂.mem = s₁.mem := hs₂ ▸ hmem
  have hlog₂ : executed s₂.dev = executed s.dev := by
    rw [hs₂, executed_runAsync hC, hlog, hs₁]
    exact executed_flushAsync hC s.dev
  obtain ⟨s', hrun, hlog'⟩ := controlWait_idle (b := b) (s := { s₂ with dev := (C.getTimeMs s₂.dev).2 })
    hC (hmem₂ ▸ hinactive) (b.deref data) (controlLen data dataLen) dataLen s.asyncListHead
    (C.getTimeMs s₂.dev).1 fuel
  refine ⟨s', ?_, hlog'.trans ((hC.getTimeMs s₂.dev).trans hlog₂)⟩
  have hactual : controlActual s₂.mem page dataLen =
      controlActual (controlSetup page devaddr st data dataLen pmm.mem) page dataLen := by
    rw [hmem₂, hs₁]
    rfl
  rw [← hactual]
  refine Eq.trans ?_ hrun
  subst hs₂ hs₁
  unfold usbControlTransfer
  simp only [hpalloc, hpage, if_false, hflush, ne_eq, not_true]

/-- The calls that fail before the schedule runs. -/
theorem controlTransfer_fails
    (h : setup = none ∨ (palloc b s.pmm).1 = 0 ∨ (ehciFlushAsync C s.dev).1 ≠ 0) {fuel : Nat} {r : Int}
    {s' : Ehci σ} (hrun : usbControlTransfer b C fuel devaddr setup data dataLen s = some (r, s')) :
    r < 0 := by
  cases setup with
  | none =>
    obtain ⟨rfl, -⟩ := Prod.mk.inj (Option.some.inj hrun)
    decide
  | some st =>
    have h := h.resolve_left (Option.some_ne_none st)
    unfold usbControlTransfer at hrun
    dsimp only at hrun
    split at hrun
    · obtain ⟨rfl, -⟩ := Prod.mk.inj (Option.some.inj hrun)
      decide
    · rename_i hpage
      rw [if_pos (h.resolve_left hpage)] at hrun
      obtain ⟨rfl, -⟩ := Prod.mk.inj (Option.some.inj hrun)
      decide

/-- What a result that stands for success says: the stages for setup and status have been executed
in the call, and the result is the number of bytes of its data stage. -/
def ControlHonest (executed : σ → StageLog) (s s' : Ehci σ) (r : Int) : Prop :=
  ∃ log : StageLog, executed s'.dev = executed s.dev ++ log ∧ .setup ∈ log.map Prod.fst ∧
    .status ∈ log.map Prod.fst ∧ r = log.dataBytes

theorem not_controlHonest_of_idle {s' : Ehci σ} {r : Int} (h : executed s'.dev = executed s.dev) :
    ¬ControlHonest executed s s' r := by
  rintro ⟨log, hlog, hsetup, -⟩
  rw [h] at hlog
  rw [List.self_eq_append_right.mp hlog] at hsetup
  exact absurd hsetup List.not_mem_nil

/-- **A result that stands for success is true exactly if the call fails before the schedule
runs.** -/
theorem control_honest_iff (hC : C.ActiveOnly executed) (devaddr : BitVec 8)
    (setup : Option UsbCtrlSetup) (data : Word) (dataLen : BitVec 16) (s : Ehci σ) :
    (∀ fuel r s', usbControlTransfer b C fuel devaddr setup data dataLen s = some (r, s') → 0 ≤ r →
        ControlHonest executed s s' r) ↔
      (setup = none ∨ (palloc b s.pmm).1 = 0 ∨ (ehciFlushAsync C s.dev).1 ≠ 0) := by
  constructor
  · intro h
    by_contra hruns
    obtain ⟨hsetup, hpage, hflush⟩ := not_or.mp hruns |>.imp_right not_or.mp
    obtain ⟨st, rfl⟩ := Option.ne_none_iff_exists'.mp hsetup
    obtain ⟨s', hrun, hidle⟩ := controlTransfer_idle hC rfl hpage (not_not.mp hflush) devaddr st data
      dataLen 0
    exact not_controlHonest_of_idle hidle (h 1 _ s' hrun controlActual_nonneg)
  · intro h fuel r s' hrun hr
    exact absurd (controlTransfer_fails h hrun) (not_lt.mpr hr)

end Call

/-- A controller that executes nothing. -/
theorem exampleEhc_activeOnly : exampleEhc.ActiveOnly fun _ => [] where
  dma _ _ _ := .refl
  read _ _ := rfl
  write _ _ _ := rfl
  getTimeMs _ := rfl
  udelay _ _ := rfl

/-- There is a page for a transfer when the allocator has been set up. -/
theorem exampleMap_palloc : ∃ pmm page pmm', pmmInit exampleMap (fun _ => 0) = some pmm ∧
    palloc exampleMap pmm = (page, pmm') ∧ page ≠ 0 := by
  obtain ⟨pmm, L, hinit, hinv, hlen⟩ := exampleMap_start
  exact ⟨pmm, _, _, hinit, rfl, hinv.palloc_ne_zero exampleMap_ok (by omega)⟩

/-- The request for the address of a device. -/
def exampleAddress : UsbCtrlSetup := ⟨0x00, usbReqSetAddress, 1, 0, 0⟩

theorem control_honest_iff_exampleEhc : ∃ pmm, pmmInit exampleMap (fun _ => 0) = some pmm ∧
    ((∀ fuel r s', usbControlTransfer exampleMap exampleEhc fuel 0 (some exampleAddress) 0 0
        (ehciStart pmm 0) = some (r, s') → 0 ≤ r →
        ControlHonest (fun _ => []) (ehciStart pmm 0) s' r) ↔
      (some exampleAddress = none ∨ (palloc exampleMap (ehciStart pmm (0 : BitVec 32)).pmm).1 = 0 ∨
        (ehciFlushAsync exampleEhc (ehciStart pmm 0).dev).1 ≠ 0)) := by
  obtain ⟨pmm, _, _, hinit, _⟩ := exampleMap_palloc
  exact ⟨pmm, hinit, control_honest_iff exampleEhc_activeOnly 0 (some exampleAddress) 0 0
    (ehciStart pmm 0)⟩

/-- The request succeeds, but the controller has not executed it. -/
theorem exampleAddress_not_honest :
    ¬∀ (C : Ehc (BitVec 32)) (executed : BitVec 32 → StageLog), C.ActiveOnly executed →
      ∀ (devaddr : BitVec 8) (setup : Option UsbCtrlSetup) (data : Word) (dataLen : BitVec 16)
        (s : Ehci (BitVec 32)) (fuel : Nat) (r : Int) (s' : Ehci (BitVec 32)),
        usbControlTransfer exampleMap C fuel devaddr setup data dataLen s = some (r, s') → 0 ≤ r →
          ControlHonest executed s s' r := by
  intro h
  obtain ⟨pmm, page, pmm', hinit, hpalloc, hpage⟩ := exampleMap_palloc
  obtain ⟨s', hrun, hidle⟩ := controlTransfer_idle (s := ehciStart pmm 0) exampleEhc_activeOnly hpalloc hpage
    rfl 0 exampleAddress 0 0 0
  exact not_controlHonest_of_idle hidle
    (h exampleEhc _ exampleEhc_activeOnly 0 (some exampleAddress) 0 0 _ 1 _ s' hrun controlActual_nonneg)

end AncoreOS.Drivers
