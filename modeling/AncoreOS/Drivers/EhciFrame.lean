import AncoreOS.Drivers.EhciPoll
import AncoreOS.Drivers.EhciQtd

/-!
# What a bulk transfer leaves alone

A bulk transfer that succeeds writes into its own page, the buffer, and the first word of the
schedule.  Memory elsewhere is as it was (`bulk_keeps`), and when the controller only reads the
buffers of OUT transfers (`Ehc.SendsOut`), so is the buffer of an OUT transfer.

`global_tag` is the counter of `msd_read_sector`; none of the other functions changes it.
-/

namespace AncoreOS.Drivers

open ByteMemory AncoreOS.Mm

variable {σ : Type*} {b : Limine} {C : Ehc σ}

/-- The token is for an OUT transfer. -/
def IsOut (token : BitVec 32) : Prop := token &&& (3#32 <<< 8) = pidOut <<< 8

instance (token : BitVec 32) : Decidable (IsOut token) := inferInstanceAs (Decidable (_ = _))

/-- The controller reads the buffer of an OUT transfer and does not write it, and it leaves the
direction of a transfer as it is. -/
structure Ehc.SendsOut (C : Ehc σ) : Prop where
  pid : ∀ page m dev, IsOut (load32 m (page + 24)) → IsOut (load32 (C.dma page m dev).1 (page + 24))
  reads : ∀ page m dev x, PageAligned page → IsOut (load32 m (page + 24)) → pageOf x ≠ page →
    (C.dma page m dev).1 x = m x

/-! ### While a transfer is waited for -/

section Wait

variable {page buf : Word} {len : Nat} {s s₁ : Ehci σ} {x : Word}

theorem Waits.mem_of_not_inRange (h : Waits C page buf len s s₁) (hx : pageOf x ≠ page)
    (hbuf : ¬InRange buf len x) : s₁.mem x = s.mem x := by
  induction h with
  | refl => rfl
  | transfer _ ih => exact (if_neg (not_or.mpr ⟨hx, hbuf⟩)).trans ih
  | device _ _ ih => exact ih

theorem transfer_of_out (hC : C.SendsOut) (hpage : PageAligned page)
    (h : IsOut (load32 s.mem (page + 24))) (buf : Word) (len : Nat) :
    IsOut (load32 (s.transfer C page buf len).mem (page + 24)) ∧
      ∀ x, pageOf x ≠ page → (s.transfer C page buf len).mem x = s.mem x := by
  constructor
  · have hword : load32 (s.transfer C page buf len).mem (page + 24) =
        load32 (C.dma page s.mem s.dev).1 (page + 24) := load32_transfer (o := 24) hpage (by decide) s
    rw [hword]
    exact hC.pid page s.mem s.dev h
  · intro x hx
    have hsame := hC.reads page s.mem s.dev x hpage h hx
    show (if TransferRegion page buf len x then (C.dma page s.mem s.dev).1 x else s.mem x) = s.mem x
    rw [hsame, ite_self]

theorem Waits.mem_of_out (hC : C.SendsOut) (hpage : PageAligned page) (h : Waits C page buf len s s₁)
    (hout : IsOut (load32 s.mem (page + 24))) :
    IsOut (load32 s₁.mem (page + 24)) ∧ ∀ x, pageOf x ≠ page → s₁.mem x = s.mem x := by
  induction h with
  | refl => exact ⟨hout, fun _ _ => rfl⟩
  | transfer _ ih =>
    have hlast := transfer_of_out hC hpage ih.1 buf len
    exact ⟨hlast.1, fun x hx => (hlast.2 x hx).trans (ih.2 x hx)⟩
  | device _ _ ih => exact ih

theorem Waits.globalTag (h : Waits C page buf len s s₁) : s₁.globalTag = s.globalTag := by
  induction h with
  | refl => rfl
  | transfer _ ih => exact ih
  | device _ _ ih => exact ih

end Wait

/-! ### The transfer -/

section Bulk

variable {s s' s₁ : Ehci σ} {L out : List Word} {f page data size : Word} {devaddr epAddr : BitVec 8}
  {dirIn : Bool} {start timeout : BitVec 32} {fuel : Nat}

/-- How the call starts to wait. -/
structure BulkStarted (b : Limine) (devaddr epAddr : BitVec 8) (data size : Word) (dirIn : Bool)
    (f page : Word) (s s₁ : Ehci σ) : Prop where
  outside : ∀ x, pageOf x ≠ page → pageOf x ≠ f → s₁.mem x = s.mem x
  words : ∀ o, 4 ≤ o → o + 4 ≤ 4096 → load32 s₁.mem (page + BitVec.ofNat 64 o) =
    load32 (bulkSetup page (b.deref data) devaddr epAddr size dirIn s.mem) (page + BitVec.ofNat 64 o)
  asyncListHead : s₁.asyncListHead = s.asyncListHead

theorem bulkStart_started (hb : b.Ok) (h : PmmInv b s.pmm L out) (hf : f ∈ out)
    (hhead : s.asyncListHead = f + b.hhdmOffset)
    (hstart : bulkStart b C devaddr epAddr data size dirIn s = some (page, start, s₁)) :
    (∃ L', L = page :: L') ∧ BulkStarted b devaddr epAddr data size dirIn f page s s₁ := by
  have hfusable := (h.usable f).mpr (List.mem_append_right L hf)
  unfold bulkStart at hstart
  rw [if_neg (by rw [hhead]; exact hb.hhdm f hfusable)] at hstart
  obtain hpalloc | ⟨page', L', pmm, rfl, hpalloc, hne, hmem, hinv⟩ := palloc_cases hb h
  · rw [hpalloc] at hstart
    exact absurd hstart (by simp)
  · rw [hpalloc] at hstart
    dsimp only at hstart
    rw [if_neg hne] at hstart
    obtain ⟨rfl, rfl, rfl⟩ := Option.some.inj hstart
    have hpage : PageAligned page := ((h.usable page).mpr List.mem_cons_self).aligned
    have hpf : page ≠ f := fun hpf => h.not_mem_of_mem_out hf (hpf ▸ List.mem_cons_self)
    have hderef : b.deref s.asyncListHead = f := by rw [hhead, Limine.deref_add]
    refine ⟨⟨L', rfl⟩, ?_, ?_, rfl⟩
    · intro x hx hxf
      show store32 (store32 (bulkSetup _ _ _ _ _ _ pmm.mem) _ _) _ _ x = s.pmm.mem x
      rw [hderef, store32_page_outside hfusable.aligned hxf, store32_page_outside hpage hx,
        bulkSetup_outside hpage hx, hmem]
    · intro o ho ho'
      have hlink : ∀ m link, load32 (store32 m page link) (page + BitVec.ofNat 64 o) =
          load32 m (page + BitVec.ofNat 64 o) := fun m link => by
        have hword : load32 (store32 m (page + BitVec.ofNat 64 0) link) (page + BitVec.ofNat 64 o) =
            load32 m (page + BitVec.ofNat 64 o) :=
          load32_store32_offset link (Or.inl ho) (by decide) ho'
        simpa using hword
      have hother : ∀ m link, load32 (store32 m f link) (page + BitVec.ofNat 64 o) =
          load32 m (page + BitVec.ofNat 64 o) := fun m link => load32_congr fun x hx =>
        store32_page_outside hfusable.aligned ((pageOf_of_inRange hpage hx ho').trans_ne hpf)
      show load32 (store32 (store32 (bulkSetup _ _ _ _ _ _ pmm.mem) _ _) _ _) _ = _
      rw [hderef, hother, hlink, hmem]
      rfl

/-- A call that succeeds has started, and ends with taking its queue head out. -/
theorem bulk_ends
    (hrun : ehciSubmitBulkSimple b C fuel devaddr epAddr data size dirIn timeout s = some (0, s')) :
    ∃ page start s₁ s₂, bulkStart b C devaddr epAddr data size dirIn s = some (page, start, s₁) ∧
      Waits C page (b.deref data) size.toNat s₁ s₂ ∧
      s' = bulkUnlink b C page (b.deref data) size.toNat s₂ := by
  cases hstart : bulkStart b C devaddr epAddr data size dirIn s with
  | none =>
    obtain ⟨s'', hnone⟩ := submit_of_no_start fuel timeout hstart
    rw [hnone] at hrun
    exact absurd (Prod.mk.inj (Option.some.inj hrun)).1 (by decide)
  | some x =>
    obtain ⟨page, start, s₁⟩ := x
    rw [submit_of_start fuel timeout hstart] at hrun
    obtain ⟨s₂, hwait, hunlink⟩ := bulkWait_waits fuel s₁ hrun
    exact ⟨page, start, s₁, s₂, rfl, hwait, hunlink⟩

theorem bulk_head
    (hrun : ehciSubmitBulkSimple b C fuel devaddr epAddr data size dirIn timeout s = some (0, s')) :
    s.asyncListHead ≠ 0 := by
  intro hzero
  obtain ⟨_, _, _, _, hstart, -⟩ := bulk_ends hrun
  rw [bulkStart, if_pos hzero] at hstart
  exact absurd hstart.symm (Option.some_ne_none _)

/-- Outside of its page and of the schedule the exit leaves what the controller leaves. -/
theorem bulkUnlink_mem {buf x : Word} {len : Nat} (hpage : PageAligned page) (hfpage : PageAligned f)
    (hhead : s.asyncListHead = f + b.hhdmOffset) (hx : pageOf x ≠ page) (hxf : pageOf x ≠ f) :
    (bulkUnlink b C page buf len s).mem x = (s.transfer C page buf len).mem x := by
  have hderef : b.deref (s.transfer C page buf len).asyncListHead = f := by
    show b.deref s.asyncListHead = f
    rw [hhead, Limine.deref_add]
  refine (pfree_mem hpage hx).trans ?_
  show store32 _ (b.deref (s.transfer C page buf len).asyncListHead) _ x = _
  rw [hderef, store32_page_outside hfpage hxf]

/-- **A transfer leaves memory alone that is not free, not in the page of the schedule and not in a
buffer that the controller writes.** -/
theorem bulk_keeps (hb : b.Ok) (h : PmmInv b s.pmm L out) (hf : f ∈ out)
    (hhead : s.asyncListHead = f + b.hhdmOffset)
    (hrun : ehciSubmitBulkSimple b C fuel devaddr epAddr data size dirIn timeout s = some (0, s'))
    {x : Word} (hx : pageOf x ∉ L) (hxf : pageOf x ≠ f)
    (hbuf : ¬InRange (b.deref data) size.toNat x ∨
      C.SendsOut ∧ ∀ page m, IsOut (load32 (bulkSetup page (b.deref data) devaddr epAddr size dirIn m)
        (page + 24))) : s'.mem x = s.mem x := by
  obtain ⟨page, start, s₁, s₂, hstart, hwait, rfl⟩ := bulk_ends hrun
  obtain ⟨⟨L', rfl⟩, hstarted⟩ := bulkStart_started hb h hf hhead hstart
  have hpage : PageAligned page := ((h.usable page).mpr List.mem_cons_self).aligned
  have hfpage : PageAligned f := ((h.usable f).mpr (List.mem_append_right _ hf)).aligned
  have hxp : pageOf x ≠ page := fun hxp => hx (hxp ▸ List.mem_cons_self)
  have hhead₂ : s₂.asyncListHead = f + b.hhdmOffset :=
    hwait.asyncListHead.trans (hstarted.asyncListHead.trans hhead)
  rw [bulkUnlink_mem hpage hfpage hhead₂ hxp hxf, ← hstarted.outside x hxp hxf]
  obtain hbuf | ⟨hC, hout⟩ := hbuf
  · exact hwait.transfer.mem_of_not_inRange hxp hbuf
  · refine (hwait.transfer.mem_of_out hC hpage ?_).2 x hxp
    have htoken : load32 s₁.mem (page + 24) = _ := hstarted.words 24 (by decide) (by decide)
    rw [htoken]
    exact hout page s.mem

end Bulk

/-! ### The counter -/

section Tag

variable {s s' : Ehci σ} {fuel : Nat} {r : Int}

theorem ehciSubmitBulkSimple_globalTag {devaddr epAddr : BitVec 8} {data size : Word} {dirIn : Bool}
    {timeout : BitVec 32}
    (hrun : ehciSubmitBulkSimple b C fuel devaddr epAddr data size dirIn timeout s = some (r, s')) :
    s'.globalTag = s.globalTag := by
  unfold ehciSubmitBulkSimple at hrun
  split at hrun
  · obtain ⟨rfl, rfl⟩ := Prod.mk.inj (Option.some.inj hrun)
    rfl
  · dsimp only at hrun
    split at hrun
    · obtain ⟨rfl, rfl⟩ := Prod.mk.inj (Option.some.inj hrun)
      rfl
    · obtain ⟨s₁, hwait, rfl⟩ := bulkWait_waits fuel _ hrun
      exact hwait.globalTag

theorem usbControlTransfer_globalTag {devaddr : BitVec 8} {setup : Option UsbCtrlSetup} {data : Word}
    {dataLen : BitVec 16}
    (hrun : usbControlTransfer b C fuel devaddr setup data dataLen s = some (r, s')) :
    s'.globalTag = s.globalTag := by
  cases setup with
  | none =>
    obtain ⟨rfl, rfl⟩ := Prod.mk.inj (Option.some.inj hrun)
    rfl
  | some setup =>
    unfold usbControlTransfer at hrun
    dsimp only at hrun
    split at hrun
    · obtain ⟨rfl, rfl⟩ := Prod.mk.inj (Option.some.inj hrun)
      rfl
    · split at hrun
      · obtain ⟨rfl, rfl⟩ := Prod.mk.inj (Option.some.inj hrun)
        rfl
      · obtain ⟨s₁, hwait, rfl⟩ := controlWait_waits fuel _ hrun
        exact hwait.globalTag

theorem usbGetDescriptor_globalTag {kind len : BitVec 16} {devaddr : BitVec 8} {descBuf : Word}
    (hrun : usbGetDescriptor b C fuel kind devaddr descBuf len s = some (r, s')) :
    s'.globalTag = s.globalTag :=
  usbControlTransfer_globalTag hrun

theorem usbSetAddress_globalTag {newAddr : BitVec 8}
    (hrun : usbSetAddress b C fuel newAddr s = some (r, s')) : s'.globalTag = s.globalTag := by
  unfold usbSetAddress at hrun
  obtain ⟨⟨rc, s₁⟩, h₁, hres⟩ := Option.map_eq_some_iff.mp hrun
  obtain ⟨rfl, rfl⟩ := Prod.mk.inj hres
  have htag := usbControlTransfer_globalTag h₁
  split
  · exact htag
  · exact htag

theorem configureMsd_globalTag {foundMsd : Bool} {dev dev' : UsbDevice}
    (hrun : configureMsd b C fuel foundMsd dev s = some (r, dev', s')) : s'.globalTag = s.globalTag := by
  unfold configureMsd at hrun
  split at hrun
  · obtain ⟨rfl, rfl, rfl⟩ := hrun
    rfl
  · obtain ⟨⟨r₁, s₁⟩, h₁, hrun⟩ := Option.bind_eq_some_iff.mp hrun
    have htag₁ := usbControlTransfer_globalTag h₁
    dsimp only at hrun
    split at hrun
    · obtain ⟨rfl, rfl, rfl⟩ := hrun
      exact htag₁
    · obtain ⟨⟨r₂, s₂⟩, h₂, hrun⟩ := Option.bind_eq_some_iff.mp hrun
      obtain ⟨rfl, rfl, rfl⟩ := hrun
      exact (usbControlTransfer_globalTag h₂).trans htag₁

theorem findMassStorageDevice_globalTag {dev dev' : UsbDevice}
    (hrun : findMassStorageDevice b C fuel dev s = some (r, dev', s')) : s'.globalTag = s.globalTag := by
  unfold findMassStorageDevice at hrun
  dsimp only at hrun
  split at hrun
  · obtain ⟨rfl, rfl, rfl⟩ := hrun
    rfl
  -- The requests one after the other.
  obtain ⟨⟨r₁, s₁⟩, h₁, hrun⟩ := Option.bind_eq_some_iff.mp hrun
  have htag₁ := usbGetDescriptor_globalTag h₁
  dsimp only at hrun
  split at hrun
  · obtain ⟨rfl, rfl, rfl⟩ := hrun
    exact htag₁
  obtain ⟨⟨r₂, s₂⟩, h₂, hrun⟩ := Option.bind_eq_some_iff.mp hrun
  have htag₂ := (usbSetAddress_globalTag h₂).trans htag₁
  dsimp only at hrun
  split at hrun
  · obtain ⟨rfl, rfl, rfl⟩ := hrun
    exact htag₂
  obtain ⟨⟨r₃, s₃⟩, h₃, hrun⟩ := Option.bind_eq_some_iff.mp hrun
  have htag₃ := (usbGetDescriptor_globalTag h₃).trans htag₂
  dsimp only at hrun
  split at hrun
  · obtain ⟨rfl, rfl, rfl⟩ := hrun
    exact htag₃
  obtain ⟨⟨r₄, s₄⟩, h₄, hrun⟩ := Option.bind_eq_some_iff.mp hrun
  have htag₄ := (usbGetDescriptor_globalTag h₄).trans htag₃
  dsimp only at hrun
  split at hrun
  · obtain ⟨rfl, rfl, rfl⟩ := hrun
    exact htag₄
  · exact (configureMsd_globalTag hrun).trans htag₄

end Tag

end AncoreOS.Drivers
