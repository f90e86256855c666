import AncoreOS.Drivers.EhciControl
import AncoreOS.Drivers.UsbDescriptors

/-!
# Finding a mass-storage device

`usb_control_transfer` returns the number of bytes, and `find_mass_storage_device` takes
everything but `0` for an error.  With a controller whose transfers complete in full
(`Ehc.CompletesInFull`) the first request, for the 18 bytes of the device descriptor, already
counts as one (`find_never_succeeds`).

`exampleStorage` is such a controller, with a device that has a mass-storage interface.
-/

namespace AncoreOS.Drivers

open ByteMemory AncoreOS.Mm Relation

variable {σ : Type*} {b : Limine} {C : Ehc σ}

/-- Every control transfer that gets a page returns the length that was asked for. -/
def Ehc.CompletesInFull (b : Limine) (C : Ehc σ) : Prop :=
  ∀ {s : Ehci σ} {L out : List Word}, PmmInv b s.pmm L out → L ≠ [] →
    ∀ (devaddr : BitVec 8) (setup : UsbCtrlSetup) (data : Word) (dataLen : BitVec 16),
      OffList L (b.deref data) (controlLen data dataLen) →
      ∃ fuel s', usbControlTransfer b C fuel devaddr (some setup) data dataLen s =
        some ((dataLen.toNat : Int), s')

/-- A request for the configuration descriptor that is answered in full leaves the bytes of the
configuration in the buffer. -/
def Ehc.DeliversConfig (b : Limine) (C : Ehc σ) (config : List (BitVec 8)) : Prop :=
  ∀ {s s' : Ehci σ} {L out : List Word} {f : Word} {fuel : Nat} {len : BitVec 16},
    PmmInv b s.pmm L out → f ∈ out →
      usbGetConfigDescriptor b C fuel 1 (f + b.hhdmOffset) len s = some ((len.toNat : Int), s') →
      ∀ i < len.toNat, i < config.length → s'.mem (f + BitVec.ofNat 64 i) = config.getD i 0

/-- A configuration of 9 to 1024 bytes, with a mass-storage interface and its two bulk
endpoints. -/
structure HasMassStorage (config : List (BitVec 8)) : Prop where
  least : 9 ≤ config.length
  most : config.length ≤ 1024
  total : config.getD 3 0 ++ config.getD 2 0 = BitVec.ofNat 16 config.length
  interface : ∃ i j k : Nat, IsMassStorage (fun i => config.getD i 0) i ∧
    IsBulkIn (fun i => config.getD i 0) j ∧ IsBulkOut (fun i => config.getD i 0) k ∧
    (∀ o ∈ [i, j, k], o ∈ descriptors (fun i => config.getD i 0) config.length ∧
      o + (config.getD o 0).toNat ≤ config.length) ∧ i < j ∧ i < k ∧
    ∀ o ∈ descriptors (fun i => config.getD i 0) config.length,
      IsInterface (fun i => config.getD i 0) o → i < o → j < o ∧ k < o

/-! ### The rounds of the wait -/

section Fuel

variable {page buf oldHead data : Word} {len : Nat} {devaddr : BitVec 8}
  {setup : Option UsbCtrlSetup} {dataLen : BitVec 16} {start : BitVec 32} {s : Ehci σ}
  {x y : Int × Ehci σ}

/-- The result does not depend on the number of rounds. -/
theorem controlWait_det {fuel fuel' : Nat}
    (h : controlWait b C page buf len dataLen oldHead start fuel s = some x)
    (h' : controlWait b C page buf len dataLen oldHead start fuel' s = some y) : x = y := by
  induction fuel generalizing fuel' s with
  | zero => exact absurd h.symm (Option.some_ne_none _)
  | succ fuel ih =>
    cases fuel' with
    | zero => exact absurd h'.symm (Option.some_ne_none _)
    | succ fuel' =>
      rw [controlWait] at h h'
      dsimp only at h h'
      split at h
      · rename_i hactive
        rw [if_pos hactive] at h'
        split at h
        · rename_i hlate
          rw [if_pos hlate] at h'
          exact Option.some.inj (h.symm.trans h')
        · rename_i hlate
          rw [if_neg hlate] at h'
          exact ih h h'
      · rename_i hidle
        rw [if_neg hidle] at h'
        exact Option.some.inj (h.symm.trans h')

theorem usbControlTransfer_det {fuel fuel' : Nat}
    (h : usbControlTransfer b C fuel devaddr setup data dataLen s = some x)
    (h' : usbControlTransfer b C fuel' devaddr setup data dataLen s = some y) : x = y := by
  cases setup with
  | none => exact Option.some.inj (h.symm.trans h')
  | some setup =>
    rw [usbControlTransfer] at h h'
    dsimp only at h h'
    split at h
    · rename_i hpage
      rw [if_pos hpage] at h'
      exact Option.some.inj (h.symm.trans h')
    · rename_i hpage
      rw [if_neg hpage] at h'
      split at h
      · rename_i hflush
        rw [if_pos hflush] at h'
        exact Option.some.inj (h.symm.trans h')
      · rename_i hflush
        rw [if_neg hflush] at h'
        exact controlWait_det h h'

end Fuel

/-! ### The search -/

section Find

variable {s s' : Ehci σ} {L out : List Word} {dev dev' : UsbDevice} {page : Word} {pmm : Pmm}

/-- The driver when it asks for the device descriptor. -/
def findStart (s : Ehci σ) (page : Word) (pmm : Pmm) : Ehci σ :=
  { s with pmm := { pmm with mem := fill pmm.mem page 4096 0 }, pidRn := 18 }

theorem findStart_inv (h : PmmInv b pmm L (page :: out)) :
    PmmInv b (findStart s page pmm).pmm L (page :: out) :=
  h.frame_page List.mem_cons_self fun _ hx =>
    fill_page_outside (held_aligned (s := { s with pmm := pmm }) h List.mem_cons_self) le_rfl hx

/-- The request for the device descriptor, when it returns. -/
theorem firstRequest_result (hb : b.Ok) (hC : C.CompletesInFull b) (h : PmmInv b s.pmm L (page :: out))
    {fuel : Nat} {res : Int}
    (hrun : usbGetDeviceDescriptor b C fuel 0 (page + b.hhdmOffset) 18 s = some (res, s')) :
    res = if L = [] then -2 else 18 := by
  obtain hpalloc | ⟨f, L', pmm, rfl, -⟩ := palloc_cases hb h
  · cases L with
    | nil =>
      have hnone : usbGetDeviceDescriptor b C fuel 0 (page + b.hhdmOffset) 18 s =
          some (-2, { s with pmm := s.pmm }) := by
        unfold usbGetDeviceDescriptor usbGetDescriptor usbControlTransfer
        simp only [hpalloc, if_true]
      exact (Prod.mk.inj (Option.some.inj (hrun.symm.trans hnone))).1
    | cons f L => exact absurd (congrArg Prod.fst hpalloc) (h.palloc_ne_zero hb (Nat.succ_pos _))
  · obtain ⟨fuel', s'', hfull⟩ := hC h (List.cons_ne_nil f L') 0
      ⟨0x80, usbReqGetDescriptor, 0x0100, 0, 18⟩ (page + b.hhdmOffset) 18
      (descBuf_offList h List.mem_cons_self (by decide))
    have hrequest : usbControlTransfer b C fuel 0 (some ⟨0x80, usbReqGetDescriptor, 0x0100, 0, 18⟩)
        (page + b.hhdmOffset) 18 s = some (res, s') := hrun
    rw [if_neg (List.cons_ne_nil f L')]
    exact (Prod.mk.inj (usbControlTransfer_det hrequest hfull)).1

/-- The search ends with the first request. -/
theorem find_fails (hb : b.Ok) (hC : C.CompletesInFull b) (h : PmmInv b s.pmm L out) {fuel : Nat}
    {r : Int} (hrun : findMassStorageDevice b C fuel dev s = some (r, dev', s')) : r < 0 := by
  obtain hpalloc | ⟨page, L', pmm, rfl, hpalloc, hne, -, hinv⟩ := palloc_cases hb h
  · simp only [findMassStorageDevice, hpalloc, if_true] at hrun
    obtain ⟨rfl, -⟩ := Prod.mk.inj (Option.some.inj hrun)
    decide
  · simp only [findMassStorageDevice, hpalloc, hne, if_false] at hrun
    obtain ⟨⟨res, s₁⟩, hfirst, hrun⟩ := Option.bind_eq_some_iff.mp hrun
    have hres := firstRequest_result (s := findStart s page pmm) hb hC (findStart_inv hinv) hfirst
    have hne : res ≠ 0 ∧ -100 - res < 0 := by
      rw [hres]
      split <;> decide
    dsimp only at hrun
    rw [if_pos hne.1] at hrun
    obtain ⟨rfl, -⟩ := Prod.mk.inj (Option.some.inj hrun)
    exact hne.2

/-- With two free pages the search gets the 18 bytes, and fails. -/
theorem find_returns (hb : b.Ok) (hC : C.CompletesInFull b) (h : PmmInv b s.pmm L out)
    (hlen : 2 ≤ L.length) (dev : UsbDevice) :
    ∃ fuel s', findMassStorageDevice b C fuel dev s = some (-118, dev, s') := by
  obtain hpalloc | ⟨page, L', pmm, rfl, hpalloc, hne, -, hinv⟩ := palloc_cases hb h
  · exact absurd (congrArg Prod.fst hpalloc) (h.palloc_ne_zero hb (by omega))
  · have hstart := findStart_inv (s := s) hinv
    have hnil : L' ≠ [] := List.ne_nil_of_length_pos (Nat.lt_of_succ_lt_succ hlen)
    obtain ⟨fuel, s₁, hfull⟩ := hC hstart hnil 0 ⟨0x80, usbReqGetDescriptor, 0x0100, 0, 18⟩
      (page + b.hhdmOffset) 18 (descBuf_offList hstart List.mem_cons_self (by decide))
    refine ⟨fuel, s₁.free b page, ?_⟩
    simp only [findMassStorageDevice, hpalloc, hne, if_false]
    exact Option.bind_eq_some_iff.mpr ⟨_, hfull, rfl⟩

end Find

section Reachable

variable {x : EhciRun σ}

/-- **With a controller whose transfers complete in full the search never returns `0`**: where
there is memory for its requests, it takes the length of the device descriptor for an error. -/
theorem find_never_succeeds (hb : b.Ok) (mem : Mem) {pmm : Pmm} (hinit : pmmInit b mem = some pmm)
    (dev₀ : σ) (hreach : ReflTransGen (EhciStep b C) ⟨ehciStart pmm dev₀, []⟩ x)
    (hC : C.CompletesInFull b) (dev : UsbDevice) :
    (∀ fuel r dev' s', findMassStorageDevice b C fuel dev x.ehci = some (r, dev', s') → r ≠ 0) ∧
      (2 ≤ x.ehci.pmm.pmmFreePages.toNat →
        ∃ fuel s', findMassStorageDevice b C fuel dev x.ehci = some (-118, dev, s')) := by
  obtain ⟨L₀, h₀⟩ := ehciStart_inv hb mem hinit dev₀
  obtain ⟨L, h, -⟩ := ehci_run_inv hb hreach h₀
  refine ⟨fun fuel r dev' s' hrun => (find_fails hb hC h hrun).ne, fun hfree => ?_⟩
  refine find_returns hb hC h ?_ dev
  rwa [← h.list.free]

end Reachable

/-! ### A device -/

/-- A configuration with one mass-storage interface. -/
def exampleStorageConfig : List (BitVec 8) :=
  [9, 0x02, 32, 0, 1, 1, 0, 0x80, 50,
    9, 0x04, 0, 0, 2, 0x08, 0x06, 0x50, 0,
    7, 0x05, 0x81, 0x02, 0x00, 0x02, 0,
    7, 0x05, 0x02, 0x02, 0x00, 0x02, 0]

theorem exampleStorageConfig_hasMassStorage : HasMassStorage exampleStorageConfig where
  least := by decide
  most := by decide
  total := by decide
  interface := ⟨9, 18, 25, by decide⟩

/-- What the device writes into the buffer of a request for its configuration. -/
def storageData (page : Word) (m : Mem) : Mem := fun x =>
  let buf := (load32 m (page + 140)).setWidth 64
  if load32 m (page + 76) = 0x02000680 ∧ pageOf x ≠ page ∧ InRange buf exampleStorageConfig.length x then
    exampleStorageConfig.getD (x - buf).toNat 0
  else m x

/-- A controller that completes every transfer: it leaves no bytes to be moved in the token of the
data. -/
def exampleStorage : Ehc Unit where
  read _ dev := (0, dev)
  write _ _ dev := dev
  getTimeMs dev := (0, dev)
  udelay _ dev := dev
  dma page m dev := (store32 (storageData page m) (page + 136) 0, dev)

section Storage

variable {page buf data : Word} {len : Nat} {devaddr : BitVec 8} {setup : UsbCtrlSetup}
  {dataLen : BitVec 16} {s s' : Ehci Unit} {m : Mem} {L out : List Word}

theorem load32_storageData (hpage : PageAligned page) {o : Nat} (ho : o + 4 ≤ 4096) :
    load32 (storageData page m) (page + BitVec.ofNat 64 o) = load32 m (page + BitVec.ofNat 64 o) :=
  load32_congr fun _ hx => if_neg fun h => h.2.1 (pageOf_of_inRange hpage hx ho)

/-- The words of the page but for the token of the data. -/
theorem load32_storage (hpage : PageAligned page) {o : Nat} (hne : o + 4 ≤ 136 ∨ 140 ≤ o)
    (ho : o + 4 ≤ 4096) : load32 (s.transfer exampleStorage page buf len).mem (page + BitVec.ofNat 64 o) =
      load32 s.mem (page + BitVec.ofNat 64 o) := by
  rw [load32_transfer hpage ho]
  exact (load32_store32_offset (o := 136) 0 hne.symm (by decide) ho).trans (load32_storageData hpage ho)

theorem load32_storage_token (hpage : PageAligned page) :
    load32 (s.transfer exampleStorage page buf len).mem (page + 136) = 0 :=
  (load32_transfer (o := 136) hpage (by decide) s).trans (load32_store32_same _ _ _)

/-- The byte of a buffer after the device has written it. -/
theorem storage_byte (hpage : PageAligned page) {x : Word} (hx : pageOf x ≠ page)
    (hbuf : InRange buf len x) :
    (s.transfer exampleStorage page buf len).mem x = storageData page s.mem x := by
  have hregion : TransferRegion page buf len x := Or.inr hbuf
  exact (if_pos hregion).trans (store32_outside (o := 136) hpage (by decide) hx)

/-- The controller has worked on the page, and the words but for the token of the data are what the
driver has written. -/
def StorageWords (page data : Word) (devaddr : BitVec 8) (setup : UsbCtrlSetup) (dataLen : BitVec 16)
    (m m' : Mem) : Prop :=
  ∀ o, (o + 4 ≤ 136 ∨ 140 ≤ o) → o + 4 ≤ 4096 → load32 m' (page + BitVec.ofNat 64 o) =
    load32 (controlSetup page devaddr setup data dataLen m) (page + BitVec.ofNat 64 o)

theorem StorageWords.transfer (hpage : PageAligned page)
    (h : StorageWords page data devaddr setup dataLen m s.mem) :
    StorageWords page data devaddr setup dataLen m (s.transfer exampleStorage page buf len).mem :=
  fun o hne ho => (load32_storage hpage hne ho).trans (h o hne ho)

theorem storage_wait (hpage : PageAligned page) (oldHead : Word) (start : BitVec 32) (fuel : Nat)
    (h : StorageWords page data devaddr setup dataLen m s.mem) :
    controlWait b exampleStorage page buf len dataLen oldHead start (fuel + 1) s =
      some ((dataLen.toNat : Int), controlDone b page oldHead
        ((s.transfer exampleStorage page buf len).transfer exampleStorage page buf len)) := by
  have hidle : ¬Active (load32 (s.transfer exampleStorage page buf len).mem (page + 24)) := by
    have hoverlay : load32 (s.transfer exampleStorage page buf len).mem (page + 24) = 8#32 <<< 16 :=
      (h.transfer hpage 24 (by decide) (by decide)).trans controlSetup_overlayToken
    rw [hoverlay]
    decide
  refine (if_neg hidle).trans ?_
  have hactual : controlActual ((s.transfer exampleStorage page buf len).transfer exampleStorage page
      buf len).mem page dataLen = dataLen.toNat := by
    unfold controlActual
    rw [load32_storage_token hpage]
    dsimp only
    split
    · exact Int.sub_zero _
    · rfl
  rw [hactual]

/-- A transfer returns the length, and its last step is one of the controller. -/
theorem storage_run (hb : b.Ok) (h : PmmInv b s.pmm (page :: L) out) (devaddr : BitVec 8)
    (setup : UsbCtrlSetup) (data : Word) (dataLen : BitVec 16) (fuel : Nat) :
    ∃ s₁ : Ehci Unit, ∃ s', usbControlTransfer b exampleStorage (fuel + 1) devaddr (some setup) data
        dataLen s = some ((dataLen.toNat : Int), s') ∧
      s'.pmm = pfree b (s₁.transfer exampleStorage page (b.deref data) (controlLen data dataLen)).pmm
        page ∧
      StorageWords page data devaddr setup dataLen s.mem s₁.mem := by
  obtain ⟨pmm, hpalloc, hinv, hmem⟩ := h.palloc
  have hpage : PageAligned page := ((h.usable page).mpr List.mem_cons_self).aligned
  have hne : page ≠ 0 := h.ne_zero hb List.mem_cons_self
  obtain ⟨t, ht⟩ : ∃ t : Ehci Unit, t = { s with
      pmm := { pmm with mem := controlSetup page devaddr setup data dataLen pmm.mem }
      asyncListHead := page + b.hhdmOffset } := ⟨_, rfl⟩
  have hwords : StorageWords page data devaddr setup dataLen s.mem t.mem := by
    intro o _ _
    rw [ht]
    show load32 (controlSetup page devaddr setup data dataLen pmm.mem) _ = _
    rw [hmem]
    rfl
  have hflush : ehciFlushAsync exampleStorage s.dev = (0, ()) := by
    cases s.dev
    rfl
  obtain ⟨t₁, ht₁⟩ : ∃ t₁ : Ehci Unit, t₁ = ehciRunAsync exampleStorage
      (t.transfer exampleStorage page (b.deref data) (controlLen data dataLen)) := ⟨_, rfl⟩
  have hwords₁ : StorageWords page data devaddr setup dataLen s.mem t₁.mem :=
    ht₁ ▸ hwords.transfer hpage
  refine ⟨t₁.transfer exampleStorage page (b.deref data) (controlLen data dataLen),
    controlDone b page s.asyncListHead ((t₁.transfer exampleStorage page (b.deref data)
      (controlLen data dataLen)).transfer exampleStorage page (b.deref data) (controlLen data dataLen)),
    ?_, rfl, hwords₁.transfer hpage⟩
  refine Eq.trans ?_ (storage_wait hpage s.asyncListHead 0 fuel hwords₁)
  subst ht₁ ht
  simp only [usbControlTransfer, hpalloc, hne, if_false, hflush, ne_eq, not_true]
  rfl

theorem exampleStorage_completes (hb : b.Ok) : exampleStorage.CompletesInFull b := by
  intro s L out h hne devaddr setup data dataLen _
  cases L with
  | nil => exact absurd rfl hne
  | cons page L =>
    obtain ⟨_, s', hrun, -⟩ := storage_run hb h devaddr setup data dataLen 0
    exact ⟨1, s', hrun⟩

theorem controlSetup_request :
    load32 (controlSetup page devaddr setup data dataLen m) (page + BitVec.ofNat 64 76) =
      (setup.bmRequestType.setWidth 32 ||| setup.bRequest.setWidth 32 <<< 8 |||
        setup.wValue.setWidth 32 <<< 16) := by
  rw [load32_controlSetup (by decide) (by decide) (by decide), dataWords, setupWords]
  split <;> simp

theorem controlSetup_buffer (h : data ≠ 0 ∧ dataLen ≠ 0) :
    load32 (controlSetup page devaddr setup data dataLen m) (page + BitVec.ofNat 64 140) =
      data.setWidth 32 := by
  rw [load32_controlSetup (by decide) (by decide) (by decide), dataWords, setupWords, if_pos h]
  simp

/-- The frames are in the first four gigabytes, where the low words of their addresses are. -/
theorem exampleMap_low {f : Word} (hf : exampleMap.UsableFrame f) :
    ((f + exampleMap.hhdmOffset).setWidth 32).setWidth 64 = f := by
  obtain hf | hf := exampleMap_usable hf
  · obtain rfl : f = 0x2000 := BitVec.eq_of_toNat_eq hf
    decide
  · obtain rfl : f = 0x3000 := BitVec.eq_of_toNat_eq hf
    decide

/-- What the device writes when its configuration is asked for. -/
theorem StorageWords.answer {f : Word} {len : BitVec 16} {i : Nat}
    (h : StorageWords page data devaddr ⟨0x80, usbReqGetDescriptor, 0x0200, 0, len⟩ len m s.mem)
    (hdata : data ≠ 0) (hlen : len ≠ 0) (hlow : (data.setWidth 32).setWidth 64 = f)
    (hother : pageOf (f + BitVec.ofNat 64 i) ≠ page) (hi : i < exampleStorageConfig.length) :
    storageData page s.mem (f + BitVec.ofNat 64 i) = exampleStorageConfig.getD i 0 := by
  have hasked : load32 s.mem (page + 76) = 0x02000680 := by
    refine (h 76 (by decide) (by decide)).trans (controlSetup_request.trans ?_)
    show (0x80 : BitVec 8).setWidth 32 ||| usbReqGetDescriptor.setWidth 32 <<< 8 |||
      (0x0200 : BitVec 16).setWidth 32 <<< 16 = 0x02000680#32
    decide
  have haddr : (load32 s.mem (page + 140)).setWidth 64 = f :=
    (congrArg (BitVec.setWidth 64) ((h 140 (by decide) (by decide)).trans
      (controlSetup_buffer ⟨hdata, hlen⟩))).trans hlow
  have hconfig : InRange f exampleStorageConfig.length (f + BitVec.ofNat 64 i) :=
    inRange_add hi (by decide)
  have hindex : (f + BitVec.ofNat 64 i - f).toNat = i := by
    rw [BitVec.add_comm, BitVec.add_sub_cancel]
    exact toNat_ofNat_of_lt (hi.trans (by decide))
  unfold storageData
  dsimp only
  rw [haddr, if_pos ⟨hasked, hother, hconfig⟩, hindex]

theorem exampleStorage_delivers : exampleStorage.DeliversConfig exampleMap exampleStorageConfig := by
  intro s s' L out f fuel len h hf hrun i hi hi'
  have husable : exampleMap.UsableFrame f := (h.usable f).mpr (List.mem_append_right L hf)
  have hdata : f + exampleMap.hhdmOffset ≠ 0 := exampleMap_ok.hhdm f husable
  cases L with
  | nil =>
    simp only [usbGetConfigDescriptor, usbGetDescriptor, usbControlTransfer, h.list.palloc_nil,
      if_true] at hrun
    exact absurd (Prod.mk.inj (Option.some.inj hrun)).1 (by omega)
  | cons page L =>
    obtain ⟨s₁, s₂, hrun', hpmm, hwords⟩ := storage_run exampleMap_ok h 1
      ⟨0x80, usbReqGetDescriptor, 0x0200, 0, len⟩ (f + exampleMap.hhdmOffset) len 0
    have hrequest : usbControlTransfer exampleMap exampleStorage fuel 1
        (some ⟨0x80, usbReqGetDescriptor, 0x0200, 0, len⟩) (f + exampleMap.hhdmOffset) len s =
        some ((len.toNat : Int), s') := hrun
    obtain rfl : s' = s₂ := (Prod.mk.inj (usbControlTransfer_det hrequest hrun')).2
    have hpage : PageAligned page := ((h.usable page).mpr List.mem_cons_self).aligned
    have hother : pageOf (f + BitVec.ofNat 64 i) ≠ page := by
      rw [pageOf_of_inRange_start husable.aligned (inRange_add hi' (by decide)) (by decide)]
      rintro rfl
      exact h.not_mem_of_mem_out hf List.mem_cons_self
    have hbuf : InRange (exampleMap.deref (f + exampleMap.hhdmOffset))
        (controlLen (f + exampleMap.hhdmOffset) len) (f + BitVec.ofNat 64 i) := by
      rw [Limine.deref_add, controlLen, if_neg hdata]
      exact inRange_add hi (by have := len.isLt; omega)
    have hlen : len ≠ 0 := by
      rintro rfl
      exact absurd hi (Nat.not_lt_zero i)
    calc s'.pmm.mem (f + BitVec.ofNat 64 i)
        = (s₁.transfer exampleStorage page _ _).mem (f + BitVec.ofNat 64 i) := by
          rw [hpmm]
          exact pfree_mem hpage hother
      _ = storageData page s₁.mem (f + BitVec.ofNat 64 i) := storage_byte hpage hother hbuf
      _ = exampleStorageConfig.getD i 0 :=
          hwords.answer hdata hlen (exampleMap_low husable) hother hi'

end Storage

theorem exampleStorage_start : ∃ pmm, pmmInit exampleMap (fun _ => 0) = some pmm ∧
    2 ≤ (ehciStart pmm ()).pmm.pmmFreePages.toNat := by
  obtain ⟨pmm, L, hinit, hinv, hlen⟩ := exampleMap_start
  refine ⟨pmm, hinit, ?_⟩
  show 2 ≤ pmm.pmmFreePages.toNat
  rwa [hinv.list.free]

theorem find_never_succeeds_exampleStorage : ∃ pmm, pmmInit exampleMap (fun _ => 0) = some pmm ∧
    2 ≤ (ehciStart pmm ()).pmm.pmmFreePages.toNat ∧
    ((∀ fuel r dev' s', findMassStorageDevice exampleMap exampleStorage fuel
        ⟨0, 0, ⟨0, 0, 0⟩, ⟨0, 0, 0⟩, 0⟩ (ehciStart pmm ()) = some (r, dev', s') → r ≠ 0) ∧
      (2 ≤ (ehciStart pmm ()).pmm.pmmFreePages.toNat →
        ∃ fuel s', findMassStorageDevice exampleMap exampleStorage fuel ⟨0, 0, ⟨0, 0, 0⟩, ⟨0, 0, 0⟩, 0⟩
          (ehciStart pmm ()) = some (-118, ⟨0, 0, ⟨0, 0, 0⟩, ⟨0, 0, 0⟩, 0⟩, s'))) := by
  obtain ⟨pmm, hinit, hfree⟩ := exampleStorage_start
  exact ⟨pmm, hinit, hfree, find_never_succeeds exampleMap_ok (fun _ => 0) hinit () .refl
    (exampleStorage_completes exampleMap_ok) ⟨0, 0, ⟨0, 0, 0⟩, ⟨0, 0, 0⟩, 0⟩⟩

/-- The device is not found. -/
theorem exampleStorage_not_found :
    ¬∀ (C : Ehc Unit) (config : List (BitVec 8)), C.CompletesInFull exampleMap →
      C.DeliversConfig exampleMap config → HasMassStorage config →
      ∀ (pmm : Pmm) (x : EhciRun Unit) (dev : UsbDevice), pmmInit exampleMap (fun _ => 0) = some pmm →
        ReflTransGen (EhciStep exampleMap C) ⟨ehciStart pmm (), []⟩ x →
        2 ≤ x.ehci.pmm.pmmFreePages.toNat →
        ∃ fuel dev' s', findMassStorageDevice exampleMap C fuel dev x.ehci = some (0, dev', s') := by
  intro h
  obtain ⟨pmm, hinit, hfree⟩ := exampleStorage_start
  obtain ⟨L, hinv, -⟩ := ehciStart_inv exampleMap_ok (fun _ => 0) hinit ()
  obtain ⟨fuel, dev', s', hrun⟩ := h exampleStorage exampleStorageConfig
    (exampleStorage_completes exampleMap_ok) exampleStorage_delivers exampleStorageConfig_hasMassStorage
    pmm ⟨ehciStart pmm (), []⟩ ⟨0, 0, ⟨0, 0, 0⟩, ⟨0, 0, 0⟩, 0⟩ hinit .refl hfree
  exact absurd (find_fails exampleMap_ok (exampleStorage_completes exampleMap_ok) hinv hrun) (by decide)

end AncoreOS.Drivers
