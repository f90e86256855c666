import AncoreOS.Drivers.EhciWords
import AncoreOS.Mm.PmmRun

/-!
# The pages of the EHCI driver

Every path through a transfer frees the page that it took, and calls nest, so the free list
is put together again in the order it was taken apart.  What has to be seen to is that
nothing writes into a free page on the way: the driver writes into the page of the transfer
and into the first word of the schedule, and the controller into `TransferRegion`.

`ehci_calls_keep_pages` is the result, for every call in every state that clients of the
allocator and the driver can reach.
-/

namespace AncoreOS.Drivers

open ByteMemory AncoreOS.Mm

variable {σ : Type*} {b : Limine} {C : Ehc σ}

/-! ### Where the driver writes -/

section Frame

variable {page : Word} {m : Mem} {x : Word}

theorem fill_outside {o n : Nat} {v : BitVec 8} (hpage : PageAligned page) (hn : o + n ≤ 4096)
    (hx : pageOf x ≠ page) : fill m (page + BitVec.ofNat 64 o) n v x = m x :=
  fill_apply_of_not_inRange fun h => hx (pageOf_of_inRange hpage h hn)

theorem fill_page_outside {n : Nat} {v : BitVec 8} (hpage : PageAligned page) (hn : n ≤ 4096)
    (hx : pageOf x ≠ page) : fill m page n v x = m x :=
  fill_apply_of_not_inRange fun h => hx (pageOf_of_inRange_start hpage h hn)

theorem store32_page_outside {v : BitVec 32} (hpage : PageAligned page) (hx : pageOf x ≠ page) :
    store32 m page v x = m x :=
  store_apply_of_not_inRange fun h => hx (pageOf_of_inRange_start hpage h (by decide))

theorem store32_outside {o : Nat} {v : BitVec 32} (hpage : PageAligned page) (ho : o + 4 ≤ 4096)
    (hx : pageOf x ≠ page) : store32 m (page + BitVec.ofNat 64 o) v x = m x :=
  store_apply_of_not_inRange fun h => hx (pageOf_of_inRange hpage h ho)

theorem pokes_outside {ws : List (Nat × BitVec 32)} (hpage : PageAligned page)
    (hws : ∀ w ∈ ws, w.1 + 4 ≤ 4096) (hx : pageOf x ≠ page) : pokes page ws m x = m x := by
  exact pokes_of_not_inRange hws (by decide) fun h => hx (pageOf_of_inRange_start hpage h le_rfl)

theorem pokePageBytes_outside {bs : List (Nat × BitVec 8)} (hpage : PageAligned page)
    (hbs : ∀ w ∈ bs, w.1 < 4096) (hx : pageOf x ≠ page) : pokePageBytes page bs m x = m x := by
  unfold pokePageBytes
  induction bs generalizing m with
  | nil => rfl
  | cons w bs ih =>
    rw [List.foldl_cons, ih fun v hv => hbs v (List.mem_cons_of_mem w hv), Function.update_of_ne]
    rintro rfl
    exact hx (pageOf_of_inRange hpage (inRange_self Nat.one_pos) (hbs w List.mem_cons_self))

theorem copyWords_outside {src dst n : Nat} (hpage : PageAligned page) (hdst : dst + 4 * n ≤ 4096)
    (hx : pageOf x ≠ page) : copyWords page src dst n m x = m x := by
  induction n with
  | zero => rfl
  | succ n ih =>
    rw [copyWords, store32_outside hpage (by omega) hx]
    exact ih (by omega)

theorem bulkSetup_outside {bufPhys len : Word} {devaddr epAddr : BitVec 8} {dirIn : Bool}
    (hpage : PageAligned page) (hx : pageOf x ≠ page) :
    bulkSetup page bufPhys devaddr epAddr len dirIn m x = m x := by
  have hqh : fill m page 64 0 x = m x := fill_page_outside hpage (by decide) hx
  have hqtd : fill (fill m page 64 0) (page + 64) 32 0 x = fill m page 64 0 x :=
    fill_outside (o := 64) hpage (by decide) hx
  unfold bulkSetup
  rw [copyWords_outside hpage (by decide) hx, pokes_outside hpage (by simp) hx,
    pokes_outside hpage ?_ hx, pokes_outside hpage (by simp) hx, hqtd, hqh]
  · intro w hw
    obtain ⟨i, hi, rfl⟩ := List.mem_map.mp hw
    have hi' : ∀ i ∈ [1, 2, 3, 4], 76 + 4 * i + 4 ≤ 4096 := by decide
    exact hi' i (List.mem_of_mem_filter hi)

theorem controlSetup_outside {devaddr : BitVec 8} {setup : UsbCtrlSetup} {data : Word}
    {dataLen : BitVec 16} (hpage : PageAligned page) (hx : pageOf x ≠ page) :
    controlSetup page devaddr setup data dataLen m x = m x := by
  unfold controlSetup
  have hfill : fill m page 4096 0 x = m x := fill_page_outside hpage le_rfl hx
  rw [pokes_outside hpage (by simp) hx, copyWords_outside hpage (by decide) hx,
    pokes_outside hpage (by simp) hx]
  split
  · rw [pokes_outside hpage ?_ hx, pokes_outside hpage (by simp) hx, hfill]
    intro w hw
    rcases List.mem_append.mp hw with hw | hw
    · fin_cases hw <;> simp
    · obtain ⟨i, hi, rfl⟩ := List.mem_map.mp hw
      have hi' : ∀ i ∈ [0, 1, 2, 3, 4], 140 + 4 * i + 4 ≤ 4096 := by decide
      exact hi' i hi
  · rw [pokes_outside hpage (by simp) hx, pokes_outside hpage (by simp) hx, hfill]

theorem cbwSetup_outside {tag lba : BitVec 32} (hpage : PageAligned page) (hx : pageOf x ≠ page) :
    cbwSetup page tag lba m x = m x := by
  unfold cbwSetup
  rw [pokePageBytes_outside hpage (by simp) hx, pokes_outside hpage (by simp) hx,
    fill_page_outside hpage (by decide) hx]

end Frame

/-! ### One page taken and freed -/

/-- The buffer has no byte in a page of the list. -/
def OffList (L : List Word) (buf : Word) (len : Nat) : Prop :=
  ∀ x, InRange buf len x → pageOf x ∉ L

theorem OffList.tail {L : List Word} {f buf : Word} {len : Nat} (h : OffList (f :: L) buf len) :
    OffList L buf len :=
  fun x hx hL => h x hx (List.mem_cons_of_mem f hL)

section Page

variable {s s' : Ehci σ} {L out : List Word} {page buf : Word} {len : Nat} {r : Int}

theorem held_aligned (h : PmmInv b s.pmm L out) {f : Word} (hf : f ∈ out) : PageAligned f :=
  ((h.usable f).mpr (List.mem_append_right L hf)).aligned

theorem inv_setMem (h : PmmInv b s.pmm L out) {m : Mem} (hm : ∀ x, pageOf x ∈ L → m x = s.mem x) :
    PmmInv b (s.setMem m).pmm L out :=
  h.frame hm

/-- Writes into a page that is held. -/
theorem inv_setMem_page (h : PmmInv b s.pmm L out) {f : Word} (hf : f ∈ out) {m : Mem}
    (hm : ∀ x, pageOf x ≠ f → m x = s.mem x) : PmmInv b (s.setMem m).pmm L out :=
  h.frame_page hf hm

theorem inv_transfer (h : PmmInv b s.pmm L out) (hpage : page ∈ out) (hbuf : OffList L buf len) :
    PmmInv b (s.transfer C page buf len).pmm L out := by
  refine inv_setMem h fun x hx => if_neg ?_
  rintro (hxp | hxb)
  · exact h.not_mem_of_mem_out hpage (hxp ▸ hx)
  · exact hbuf x hxb hx

/-- Freeing the page that was taken last. -/
theorem inv_free (hb : b.Ok) (h : PmmInv b s.pmm L (page :: out)) :
    PmmInv b (pfree b s.pmm page) (page :: L) out := by
  have hfree := h.pfree hb (List.mem_cons_self)
  rwa [List.erase_cons_head] at hfree

/-- The schedule is in a page that is held. -/
def HeadHeld (b : Limine) (s : Ehci σ) (out : List Word) : Prop :=
  ∃ f ∈ out, s.asyncListHead = f + b.hhdmOffset

theorem inv_bulkUnlink (hb : b.Ok) (h : PmmInv b s.pmm L (page :: out)) (hhead : HeadHeld b s out)
    (hbuf : OffList L buf len) :
    PmmInv b (bulkUnlink b C page buf len s).pmm (page :: L) out ∧
      (bulkUnlink b C page buf len s).asyncListHead = s.asyncListHead := by
  obtain ⟨f, hf, hs⟩ := hhead
  refine ⟨inv_free hb ?_, rfl⟩
  have htransfer := inv_transfer (C := C) h List.mem_cons_self hbuf
  have hf' : f ∈ page :: out := List.mem_cons_of_mem page hf
  refine inv_setMem_page htransfer hf' fun x hx => ?_
  have hderef : b.deref (s.transfer C page buf len).asyncListHead = f := by
    show b.deref s.asyncListHead = f
    rw [hs, Limine.deref_add]
  rw [hderef]
  exact store32_page_outside (held_aligned h hf') hx

/-- While a transfer is waited for, the controller works on it, and the clock is looked at. -/
inductive Waits (C : Ehc σ) (page buf : Word) (len : Nat) (s : Ehci σ) : Ehci σ → Prop
  | refl : Waits C page buf len s s
  | transfer {s₁ : Ehci σ} : Waits C page buf len s s₁ →
      Waits C page buf len s (s₁.transfer C page buf len)
  | device {s₁ : Ehci σ} (dev : σ) : Waits C page buf len s s₁ →
      Waits C page buf len s { s₁ with dev := dev }

theorem Waits.trans {s₁ s₂ : Ehci σ} (h : Waits C page buf len s s₁)
    (h' : Waits C page buf len s₁ s₂) : Waits C page buf len s s₂ := by
  induction h' with
  | refl => exact h
  | transfer _ ih => exact .transfer ih
  | device dev _ ih => exact .device dev ih

theorem Waits.inv {s₁ : Ehci σ} (hwait : Waits C page buf len s s₁) (hpage : page ∈ out)
    (hbuf : OffList L buf len) (h : PmmInv b s.pmm L out) : PmmInv b s₁.pmm L out := by
  induction hwait with
  | refl => exact h
  | transfer _ ih => exact inv_transfer ih hpage hbuf
  | device dev _ ih => exact ih

theorem Waits.asyncListHead {s₁ : Ehci σ} (hwait : Waits C page buf len s s₁) :
    s₁.asyncListHead = s.asyncListHead := by
  induction hwait with
  | refl => rfl
  | transfer _ ih => exact ih
  | device dev _ ih => exact ih

theorem Waits.asyncListAddr {s₁ : Ehci σ} (hwait : Waits C page buf len s s₁) :
    s₁.asyncListAddr = s.asyncListAddr := by
  induction hwait with
  | refl => rfl
  | transfer _ ih => exact ih
  | device dev _ ih => exact ih

/-- Every exit of the wait takes the queue head out of the list. -/
theorem bulkWait_waits {start timeout : BitVec 32} :
    ∀ (fuel : Nat) (s : Ehci σ), bulkWait b C page buf len start timeout fuel s = some (r, s') →
      ∃ s₁, Waits C page buf len s s₁ ∧ s' = bulkUnlink b C page buf len s₁ := by
  intro fuel
  induction fuel with
  | zero => exact fun s h => absurd h (Option.some_ne_none _).symm
  | succ fuel ih =>
    intro s hrun
    have htransfer : Waits C page buf len s (s.transfer C page buf len) := .transfer .refl
    simp only [bulkWait] at hrun
    split at hrun
    · obtain ⟨rfl, rfl⟩ := Prod.mk.inj (Option.some.inj hrun)
      exact ⟨_, htransfer, rfl⟩
    · split at hrun
      · obtain ⟨rfl, rfl⟩ := Prod.mk.inj (Option.some.inj hrun)
        exact ⟨_, htransfer, rfl⟩
      · split at hrun
        · obtain ⟨rfl, rfl⟩ := Prod.mk.inj (Option.some.inj hrun)
          exact ⟨_, htransfer.device _, rfl⟩
        · obtain ⟨s₁, hwait, hs'⟩ := ih _ hrun
          exact ⟨s₁, ((htransfer.device _).device _).trans hwait, hs'⟩

/-- Every exit of the wait puts the head back. -/
theorem controlWait_waits {dataLen : BitVec 16} {oldHead : Word} {start : BitVec 32} :
    ∀ (fuel : Nat) (s : Ehci σ),
      controlWait b C page buf len dataLen oldHead start fuel s = some (r, s') →
      ∃ s₁, Waits C page buf len s s₁ ∧ s' = controlDone b page oldHead s₁ := by
  intro fuel
  induction fuel with
  | zero => exact fun s h => absurd h (Option.some_ne_none _).symm
  | succ fuel ih =>
    intro s hrun
    have htransfer : Waits C page buf len s (s.transfer C page buf len) := .transfer .refl
    simp only [controlWait] at hrun
    split at hrun
    · split at hrun
      · obtain ⟨rfl, rfl⟩ := Prod.mk.inj (Option.some.inj hrun)
        exact ⟨_, htransfer.device _, rfl⟩
      · obtain ⟨s₁, hwait, hs'⟩ := ih _ hrun
        exact ⟨s₁, ((htransfer.device _).device _).trans hwait, hs'⟩
    · obtain ⟨rfl, rfl⟩ := Prod.mk.inj (Option.some.inj hrun)
      exact ⟨_, htransfer.transfer, rfl⟩

theorem inv_bulkWait (hb : b.Ok) {start timeout : BitVec 32} {fuel : Nat}
    (hbuf : OffList L buf len) (h : PmmInv b s.pmm L (page :: out)) (hhead : HeadHeld b s out)
    (hrun : bulkWait b C page buf len start timeout fuel s = some (r, s')) :
    PmmInv b s'.pmm (page :: L) out ∧ s'.asyncListHead = s.asyncListHead := by
  obtain ⟨s₁, hwait, rfl⟩ := bulkWait_waits fuel s hrun
  obtain ⟨f, hf, hs⟩ := hhead
  have hunlink := inv_bulkUnlink (C := C) hb (hwait.inv List.mem_cons_self hbuf h)
    ⟨f, hf, hwait.asyncListHead.trans hs⟩ hbuf
  exact ⟨hunlink.1, hunlink.2.trans hwait.asyncListHead⟩

theorem inv_controlWait (hb : b.Ok) {dataLen : BitVec 16} {oldHead : Word} {start : BitVec 32}
    {fuel : Nat} (hbuf : OffList L buf len) (h : PmmInv b s.pmm L (page :: out))
    (hrun : controlWait b C page buf len dataLen oldHead start fuel s = some (r, s')) :
    PmmInv b s'.pmm (page :: L) out ∧ s'.asyncListHead = oldHead := by
  obtain ⟨s₁, hwait, rfl⟩ := controlWait_waits fuel s hrun
  exact ⟨inv_free hb (hwait.inv List.mem_cons_self hbuf h), rfl⟩

/-- `palloc` as the transfers use it: there is no page, or one comes from the list. -/
theorem palloc_cases (hb : b.Ok) (h : PmmInv b s.pmm L out) :
    (palloc b s.pmm = (0, s.pmm)) ∨
      ∃ f L' pmm, L = f :: L' ∧ palloc b s.pmm = (f, pmm) ∧ f ≠ 0 ∧ pmm.mem = s.pmm.mem ∧
        PmmInv b pmm L' (f :: out) := by
  cases L with
  | nil => exact Or.inl h.list.palloc_nil
  | cons f L' =>
    obtain ⟨pmm, hrun, hinv, hmem⟩ := h.palloc
    exact Or.inr ⟨f, L', pmm, rfl, hrun, h.ne_zero hb List.mem_cons_self, hmem, hinv⟩

/-- The allocator and the head of the schedule are as they were. -/
def SamePages (b : Limine) (L out : List Word) (s s' : Ehci σ) : Prop :=
  PmmInv b s'.pmm L out ∧ s'.asyncListHead = s.asyncListHead

theorem SamePages.trans {s'' : Ehci σ} (h : SamePages b L out s s') (h' : SamePages b L out s' s'') :
    SamePages b L out s s'' :=
  ⟨h'.1, h'.2.trans h.2⟩

theorem ehciSubmitBulkSimple_same (hb : b.Ok) {fuel : Nat} {devaddr epAddr : BitVec 8}
    {data len : Word} {dirIn : Bool} {timeout : BitVec 32} (h : PmmInv b s.pmm L out)
    (hhead : s.asyncListHead = 0 ∨ HeadHeld b s out) (hbuf : OffList L (b.deref data) len.toNat)
    (hrun : ehciSubmitBulkSimple b C fuel devaddr epAddr data len dirIn timeout s = some (r, s')) :
    SamePages b L out s s' := by
  unfold ehciSubmitBulkSimple at hrun
  split at hrun
  · obtain ⟨rfl, rfl⟩ := Prod.mk.inj (Option.some.inj hrun)
    exact ⟨h, rfl⟩
  · rename_i hnull
    obtain ⟨f, hf, hs⟩ := hhead.resolve_left hnull
    obtain hpalloc | ⟨page, L', pmm, rfl, hpalloc, hne, hmem, hinv⟩ := palloc_cases hb h
    · simp only [hpalloc, if_true] at hrun
      obtain ⟨rfl, rfl⟩ := Prod.mk.inj (Option.some.inj hrun)
      exact ⟨h, rfl⟩
    · simp only [hpalloc, hne, if_false] at hrun
      have hpage : page ∈ page :: out := List.mem_cons_self
      have hf' : f ∈ page :: out := List.mem_cons_of_mem page hf
      have haligned : PageAligned page := held_aligned (s := { s with pmm := pmm }) hinv hpage
      have hderef : b.deref s.asyncListHead = f := by rw [hs, Limine.deref_add]
      have hlink : ∀ link link' : BitVec 32,
          PmmInv b { pmm with mem := store32 (store32 (bulkSetup page (b.deref data) devaddr epAddr
            len dirIn pmm.mem) page link) (b.deref s.asyncListHead) link' } L' (page :: out) := by
        intro link link'
        refine hinv.frame fun x hx => ?_
        have hxp : pageOf x ≠ page := fun hxp => hinv.not_mem_of_mem_out hpage (hxp ▸ hx)
        have hxf : pageOf x ≠ f := fun hxf => hinv.not_mem_of_mem_out hf' (hxf ▸ hx)
        rw [hderef, store32_page_outside (held_aligned (s := { s with pmm := pmm }) hinv hf') hxf,
          store32_page_outside haligned hxp, bulkSetup_outside haligned hxp]
      have hkeep := inv_bulkWait hb hbuf.tail (by exact hlink _ _) ⟨f, hf, by exact hs⟩ hrun
      exact hkeep

theorem usbControlTransfer_same (hb : b.Ok) {fuel : Nat} {devaddr : BitVec 8}
    {setup : Option UsbCtrlSetup} {data : Word} {dataLen : BitVec 16} (h : PmmInv b s.pmm L out)
    (hbuf : OffList L (b.deref data) (controlLen data dataLen))
    (hrun : usbControlTransfer b C fuel devaddr setup data dataLen s = some (r, s')) :
    SamePages b L out s s' := by
  cases setup with
  | none =>
    obtain ⟨rfl, rfl⟩ := Prod.mk.inj (Option.some.inj hrun)
    exact ⟨h, rfl⟩
  | some setup =>
    obtain hpalloc | ⟨page, L', pmm, rfl, hpalloc, hne, hmem, hinv⟩ := palloc_cases hb h
    · simp only [usbControlTransfer, hpalloc, if_true] at hrun
      obtain ⟨rfl, rfl⟩ := Prod.mk.inj (Option.some.inj hrun)
      exact ⟨h, rfl⟩
    · simp only [usbControlTransfer, hpalloc, hne, if_false] at hrun
      have hpage : page ∈ page :: out := List.mem_cons_self
      have haligned : PageAligned page := held_aligned (s := { s with pmm := pmm }) hinv hpage
      have hsetup : PmmInv b { pmm with mem := controlSetup page devaddr setup data dataLen pmm.mem }
          L' (page :: out) :=
        hinv.frame_page hpage fun _ hx => controlSetup_outside haligned hx
      have htransfer := inv_transfer (C := C)
        (s := Ehci.mk { pmm with mem := controlSetup page devaddr setup data dataLen pmm.mem }
          (page + b.hhdmOffset) s.asyncListHeadPhys s.globalTag s.pidRn s.asyncListAddr
          (ehciFlushAsync C s.dev).2) hsetup hpage hbuf.tail
      split at hrun
      · obtain ⟨rfl, rfl⟩ := Prod.mk.inj (Option.some.inj hrun)
        exact ⟨inv_free hb htransfer, rfl⟩
      · exact inv_controlWait hb hbuf.tail (by exact htransfer) hrun

/-! ### Requests -/

theorem offList_zero : OffList L buf 0 := fun _ h => absurd h (Nat.not_lt_zero _)

/-- A buffer inside a page that is held. -/
theorem offList_page (h : PmmInv b s.pmm L out) (hpage : page ∈ out) {o n : Nat} (hn : o + n ≤ 4096) :
    OffList L (page + BitVec.ofNat 64 o) n := by
  intro x hx hL
  rw [pageOf_of_inRange (held_aligned h hpage) hx hn] at hL
  exact h.not_mem_of_mem_out hpage hL

theorem offList_page_start (h : PmmInv b s.pmm L out) (hpage : page ∈ out) {n : Nat} (hn : n ≤ 4096) :
    OffList L page n := by
  intro x hx hL
  rw [pageOf_of_inRange_start (held_aligned h hpage) hx hn] at hL
  exact h.not_mem_of_mem_out hpage hL

/-- A page that is held, as the buffer of a control transfer. -/
theorem descBuf_offList (h : PmmInv b s.pmm L out) (hpage : page ∈ out) {dataLen : BitVec 16}
    (hlen : dataLen.toNat ≤ 4096) :
    OffList L (b.deref (page + b.hhdmOffset)) (controlLen (page + b.hhdmOffset) dataLen) := by
  rw [Limine.deref_add, controlLen]
  split
  · exact offList_zero
  · exact offList_page_start h hpage hlen

theorem usbGetDescriptor_same (hb : b.Ok) {fuel : Nat} {kind dataLen : BitVec 16}
    {devaddr : BitVec 8} (h : PmmInv b s.pmm L out) (hpage : page ∈ out) (hlen : dataLen.toNat ≤ 4096)
    (hrun : usbGetDescriptor b C fuel kind devaddr (page + b.hhdmOffset) dataLen s = some (r, s')) :
    SamePages b L out s s' :=
  usbControlTransfer_same hb h (descBuf_offList h hpage hlen) hrun

theorem usbSetAddress_same (hb : b.Ok) {fuel : Nat} {newAddr : BitVec 8} (h : PmmInv b s.pmm L out)
    (hrun : usbSetAddress b C fuel newAddr s = some (r, s')) : SamePages b L out s s' := by
  unfold usbSetAddress at hrun
  obtain ⟨⟨rc, s₁⟩, h₁, hres⟩ := Option.map_eq_some_iff.mp hrun
  obtain ⟨rfl, rfl⟩ := Prod.mk.inj hres
  have hsame := usbControlTransfer_same hb h offList_zero h₁
  split
  · exact hsame
  · exact hsame

theorem configureMsd_same (hb : b.Ok) {fuel : Nat} {foundMsd : Bool} {dev dev' : UsbDevice}
    (h : PmmInv b s.pmm L out)
    (hrun : configureMsd b C fuel foundMsd dev s = some (r, dev', s')) : SamePages b L out s s' := by
  unfold configureMsd at hrun
  split at hrun
  · obtain ⟨rfl, rfl, rfl⟩ := hrun
    exact ⟨h, rfl⟩
  · obtain ⟨⟨r₁, s₁⟩, h₁, hrun⟩ := Option.bind_eq_some_iff.mp hrun
    have hsame₁ := usbControlTransfer_same hb h offList_zero h₁
    dsimp only at hrun
    split at hrun
    · obtain ⟨rfl, rfl, rfl⟩ := hrun
      exact hsame₁
    · obtain ⟨⟨r₂, s₂⟩, h₂, hrun⟩ := Option.bind_eq_some_iff.mp hrun
      have hsame₂ := usbControlTransfer_same (s := s₁.delay C 100000) hb hsame₁.1 offList_zero h₂
      obtain ⟨rfl, rfl, rfl⟩ := hrun
      exact hsame₁.trans hsame₂

/-- Freeing the page when the calls in between have kept the others. -/
theorem SamePages.free (hb : b.Ok) (h : SamePages b L (page :: out) s s') :
    SamePages b (page :: L) out s (s'.free b page) :=
  ⟨inv_free hb h.1, h.2⟩

/-- The length of the descriptor of the configuration is cut to what fits in a page. -/
theorem configTotal_le (w : BitVec 16) : (if w > 1024 then 1024 else w).toNat ≤ 4096 := by
  split
  · decide
  · next hw =>
    have hle : w.toNat ≤ 1024 := BitVec.not_lt.mp hw
    omega

theorem findMassStorageDevice_same (hb : b.Ok) {fuel : Nat} {dev dev' : UsbDevice}
    (h : PmmInv b s.pmm L out)
    (hrun : findMassStorageDevice b C fuel dev s = some (r, dev', s')) : SamePages b L out s s' := by
  obtain hpalloc | ⟨page, L', pmm, rfl, hpalloc, hne, hmem, hinv⟩ := palloc_cases hb h
  · simp only [findMassStorageDevice, hpalloc, if_true] at hrun
    obtain ⟨rfl, rfl, rfl⟩ := hrun
    exact ⟨h, rfl⟩
  · simp only [findMassStorageDevice, hpalloc, hne, if_false] at hrun
    have hpage : page ∈ page :: out := List.mem_cons_self
    have haligned : PageAligned page := held_aligned (s := { s with pmm := pmm }) hinv hpage
    have hclear : PmmInv b { pmm with mem := fill pmm.mem page 4096 0 } L' (page :: out) :=
      hinv.frame_page hpage fun _ hx => fill_page_outside haligned le_rfl hx
    -- The calls one after the other; each exit frees the page.
    obtain ⟨⟨r₁, s₁⟩, h₁, hrun⟩ := Option.bind_eq_some_iff.mp hrun
    have hsame₁ : SamePages b L' (page :: out) s s₁ :=
      usbGetDescriptor_same
        (s := { s with pmm := { pmm with mem := fill pmm.mem page 4096 0 }, pidRn := 18 }) hb hclear
        hpage (by decide) h₁
    dsimp only at hrun
    split at hrun
    · obtain ⟨rfl, rfl, rfl⟩ := hrun
      exact hsame₁.free hb
    obtain ⟨⟨r₂, s₂⟩, h₂, hrun⟩ := Option.bind_eq_some_iff.mp hrun
    have hsame₂ : SamePages b L' (page :: out) s s₂ :=
      hsame₁.trans (usbSetAddress_same (s := { s₁ with pidRn := 19 }) hb hsame₁.1 h₂)
    dsimp only at hrun
    split at hrun
    · obtain ⟨rfl, rfl, rfl⟩ := hrun
      exact hsame₂.free hb
    obtain ⟨⟨r₃, s₃⟩, h₃, hrun⟩ := Option.bind_eq_some_iff.mp hrun
    have hsame₃ : SamePages b L' (page :: out) s s₃ :=
      hsame₂.trans (usbGetDescriptor_same (s := { s₂ with pidRn := 20 }) hb hsame₂.1 hpage
        (by decide) h₃)
    dsimp only at hrun
    split at hrun
    · obtain ⟨rfl, rfl, rfl⟩ := hrun
      exact hsame₃.free hb
    obtain ⟨⟨r₄, s₄⟩, h₄, hrun⟩ := Option.bind_eq_some_iff.mp hrun
    have hsame₄ : SamePages b L' (page :: out) s s₄ :=
      hsame₃.trans (usbGetDescriptor_same (s := { s₃ with pidRn := 21 }) hb hsame₃.1 hpage
        (configTotal_le _) h₄)
    dsimp only at hrun
    split at hrun
    · obtain ⟨rfl, rfl, rfl⟩ := hrun
      exact hsame₄.free hb
    · have hfree : SamePages b (page :: L') out s (Ehci.free b { s₄ with pidRn := 22 } page) :=
        hsame₄.free hb
      exact hfree.trans (configureMsd_same hb hfree.1 hrun)

theorem msdReadSector_same (hb : b.Ok) {fuel : Nat} {dev : UsbDevice} {lba : BitVec 32} {data : Word}
    (h : PmmInv b s.pmm L out) (hhead : s.asyncListHead = 0 ∨ HeadHeld b s out)
    (hbuf : OffList L (b.deref data) 512)
    (hrun : msdReadSector b C fuel dev lba data s = some (r, s')) : SamePages b L out s s' := by
  obtain hpalloc | ⟨page, L', pmm, rfl, hpalloc, hne, hmem, hinv⟩ := palloc_cases hb h
  · simp only [msdReadSector, hpalloc, if_true] at hrun
    obtain ⟨rfl, rfl⟩ := hrun
    exact ⟨h, rfl⟩
  · simp only [msdReadSector, hpalloc, hne, if_false] at hrun
    have hpage : page ∈ page :: out := List.mem_cons_self
    have haligned : PageAligned page := held_aligned (s := { s with pmm := pmm }) hinv hpage
    have hsetup : PmmInv b { pmm with mem := cbwSetup page (s.globalTag + 1) lba pmm.mem } L'
        (page :: out) :=
      hinv.frame_page hpage fun _ hx => cbwSetup_outside haligned hx
    have hhead' : ∀ {s₁ : Ehci σ}, s₁.asyncListHead = s.asyncListHead →
        s₁.asyncListHead = 0 ∨ HeadHeld b s₁ (page :: out) := by
      intro s₁ hs₁
      rcases hhead with h0 | ⟨f, hf, hs⟩
      · exact Or.inl (hs₁.trans h0)
      · exact Or.inr ⟨f, List.mem_cons_of_mem page hf, hs₁.trans hs⟩
    have hcsw : b.deref (page + b.hhdmOffset + 32) = page + BitVec.ofNat 64 32 :=
      b.deref_add_offset page 32
    obtain ⟨⟨r₁, s₁⟩, h₁, hrun⟩ := Option.bind_eq_some_iff.mp hrun
    have hsame₁ : SamePages b L' (page :: out) s s₁ := by
      refine ehciSubmitBulkSimple_same
        (s := { s with
          pmm := { pmm with mem := cbwSetup page (s.globalTag + 1) lba pmm.mem }
          globalTag := s.globalTag + 1 }) hb hsetup (hhead' rfl) ?_ h₁
      rw [Limine.deref_add]
      exact offList_page_start (s := { s with pmm := pmm }) hinv hpage (by decide)
    dsimp only at hrun
    split at hrun
    · obtain ⟨rfl, rfl⟩ := hrun
      exact hsame₁.free hb
    obtain ⟨⟨r₂, s₂⟩, h₂, hrun⟩ := Option.bind_eq_some_iff.mp hrun
    have hsame₂ : SamePages b L' (page :: out) s s₂ :=
      hsame₁.trans (ehciSubmitBulkSimple_same hb hsame₁.1 (hhead' hsame₁.2) hbuf.tail h₂)
    dsimp only at hrun
    split at hrun
    · obtain ⟨rfl, rfl⟩ := hrun
      exact hsame₂.free hb
    obtain ⟨⟨r₃, s₃⟩, h₃, hrun⟩ := Option.bind_eq_some_iff.mp hrun
    have hclear : PmmInv b (s₂.setMem (fill s₂.mem (page + 32) 13 0)).pmm L' (page :: out) :=
      inv_setMem_page hsame₂.1 hpage fun x hx => fill_outside (o := 32) haligned (by decide) hx
    have hsame₃ : SamePages b L' (page :: out) s s₃ := by
      refine hsame₂.trans (ehciSubmitBulkSimple_same
        (s := s₂.setMem (fill s₂.mem (page + 32) 13 0)) hb hclear (hhead' hsame₂.2) ?_ h₃)
      rw [hcsw]
      exact offList_page (s := { s with pmm := pmm }) hinv hpage (by decide)
    dsimp only at hrun
    split at hrun
    · obtain ⟨rfl, rfl⟩ := hrun
      exact hsame₃.free hb
    · (repeat' split at hrun) <;>
        (obtain ⟨rfl, rfl⟩ := hrun; exact hsame₃.free hb)

end Page

/-! ### Every reachable state -/

/-- A call of one of the four functions. -/
inductive EhciCall
  | submitBulkSimple (devaddr epAddr : BitVec 8) (data len : Word) (dirIn : Bool)
      (timeout : BitVec 32)
  | controlTransfer (devaddr : BitVec 8) (setup : Option UsbCtrlSetup) (data : Word)
      (dataLen : BitVec 16)
  | findMassStorageDevice (dev : UsbDevice)
  | msdReadSector (dev : UsbDevice) (lba : BitVec 32) (data : Word)

namespace EhciCall

def run (b : Limine) (C : Ehc σ) (fuel : Nat) (s : Ehci σ) : EhciCall → Option (Int × Ehci σ)
  | .submitBulkSimple devaddr epAddr data len dirIn timeout =>
    ehciSubmitBulkSimple b C fuel devaddr epAddr data len dirIn timeout s
  | .controlTransfer devaddr setup data dataLen =>
    usbControlTransfer b C fuel devaddr setup data dataLen s
  | .findMassStorageDevice dev =>
    (Drivers.findMassStorageDevice b C fuel dev s).map fun (r, _, s) => (r, s)
  | .msdReadSector dev lba data => Drivers.msdReadSector b C fuel dev lba data s

/-- The buffer of the caller, as a physical address and a length. -/
def buffer (b : Limine) : EhciCall → Word × Nat
  | .submitBulkSimple _ _ data len _ _ => (b.deref data, len.toNat)
  | .controlTransfer _ _ data dataLen => (b.deref data, controlLen data dataLen)
  | .findMassStorageDevice _ => (0, 0)
  | .msdReadSector _ _ data => (b.deref data, 512)

end EhciCall

/-- The driver and the pages that are held, by its callers or for the schedule. -/
structure EhciRun (σ : Type*) where
  ehci : Ehci σ
  held : List Word

/-- A buffer that is the caller's to give: where it is memory of the allocator, the page is
held. -/
def CallerOwns (b : Limine) (held : List Word) (buffer : Word × Nat) : Prop :=
  ∀ x, InRange buffer.1 buffer.2 x → b.UsableFrame (pageOf x) → pageOf x ∈ held

/-- One step: of a client, which leaves the page of the schedule alone, or of the driver. -/
inductive EhciStep (b : Limine) (C : Ehc σ) : EhciRun σ → EhciRun σ → Prop
  | client {x : EhciRun σ} {r : PmmRun} : PmmStep b ⟨x.ehci.pmm, x.held⟩ r →
      (∀ f ∈ x.held, x.ehci.asyncListHead = f + b.hhdmOffset → f ∈ r.held) →
      EhciStep b C x ⟨{ x.ehci with pmm := r.pmm }, r.held⟩
  | init {x : EhciRun σ} : EhciStep b C x ⟨(ehciInitAsyncList b C x.ehci).2,
      if (palloc b x.ehci.pmm).1 = 0 then x.held else (palloc b x.ehci.pmm).1 :: x.held⟩
  | call {x : EhciRun σ} {c : EhciCall} {fuel : Nat} {r : Int} {s : Ehci σ} :
      CallerOwns b x.held (c.buffer b) → c.run b C fuel x.ehci = some (r, s) →
      EhciStep b C x ⟨s, x.held⟩

/-- The driver before anything has been set up. -/
def ehciStart (pmm : Pmm) (dev : σ) : Ehci σ := ⟨pmm, 0, 0, 0x1000, 0, none, dev⟩

/-- What holds in every state. -/
def EhciInv (b : Limine) (x : EhciRun σ) (L : List Word) : Prop :=
  PmmInv b x.ehci.pmm L x.held ∧ (x.ehci.asyncListHead = 0 ∨ HeadHeld b x.ehci x.held)

section Run

variable {x y : EhciRun σ} {L : List Word}

theorem CallerOwns.offList {pmm : Pmm} {held : List Word} (h : PmmInv b pmm L held)
    {buffer : Word × Nat} (hbuf : CallerOwns b held buffer) : OffList L buffer.1 buffer.2 := by
  intro a ha hL
  exact h.not_mem_out hL (hbuf a ha ((h.usable _).mpr (List.mem_append_left held hL)))

theorem EhciCall.run_same (hb : b.Ok) {c : EhciCall} {fuel : Nat} {r : Int} {s' : Ehci σ}
    (h : EhciInv b x L) (hbuf : CallerOwns b x.held (c.buffer b))
    (hrun : c.run b C fuel x.ehci = some (r, s')) : SamePages b L x.held x.ehci s' := by
  have hoff := hbuf.offList h.1
  cases c with
  | submitBulkSimple devaddr epAddr data len dirIn timeout =>
    exact ehciSubmitBulkSimple_same hb h.1 h.2 hoff hrun
  | controlTransfer devaddr setup data dataLen => exact usbControlTransfer_same hb h.1 hoff hrun
  | findMassStorageDevice dev =>
    obtain ⟨⟨r', dev', s''⟩, hfind, heq⟩ := Option.map_eq_some_iff.mp hrun
    obtain ⟨rfl, rfl⟩ := Prod.mk.inj heq
    exact findMassStorageDevice_same hb h.1 hfind
  | msdReadSector dev lba data => exact msdReadSector_same hb h.1 h.2 hoff hrun

theorem ehciInitAsyncList_head {s : Ehci σ} (h : (palloc b s.pmm).1 ≠ 0) :
    (ehciInitAsyncList b C s).2.asyncListHead = (palloc b s.pmm).1 + b.hhdmOffset := by
  unfold ehciInitAsyncList
  dsimp only
  rw [if_neg h]

/-- `ehci_init_async_list` keeps the page it takes. -/
theorem ehciInitAsyncList_inv (hb : b.Ok) (h : EhciInv b x L) :
    ∃ L', EhciInv b ⟨(ehciInitAsyncList b C x.ehci).2,
      if (palloc b x.ehci.pmm).1 = 0 then x.held else (palloc b x.ehci.pmm).1 :: x.held⟩ L' := by
  obtain hpalloc | ⟨page, L', pmm, rfl, hpalloc, hne, hmem, hinv⟩ := palloc_cases hb h.1
  · simp only [ehciInitAsyncList, hpalloc, if_true]
    exact ⟨L, h⟩
  · simp only [ehciInitAsyncList, hpalloc, hne, if_false]
    refine ⟨L', ?_, Or.inr ⟨page, List.mem_cons_self, rfl⟩⟩
    have haligned := held_aligned (s := { x.ehci with pmm := pmm }) hinv List.mem_cons_self
    refine hinv.frame_page List.mem_cons_self fun a ha => ?_
    rw [pokes_outside haligned (by simp) ha, fill_page_outside haligned le_rfl ha]

theorem EhciStep.inv (hb : b.Ok) (hstep : EhciStep b C x y) (h : EhciInv b x L) :
    ∃ L', EhciInv b y L' := by
  cases hstep with
  | client hclient hkeep =>
    obtain ⟨L', h'⟩ := hclient.inv hb h.1
    refine ⟨L', h', ?_⟩
    rcases h.2 with h0 | ⟨f, hf, hs⟩
    · exact Or.inl h0
    · exact Or.inr ⟨f, hkeep f hf hs, hs⟩
  | init => exact ehciInitAsyncList_inv hb h
  | call hbuf hrun =>
    obtain ⟨hpmm, hhead⟩ := EhciCall.run_same hb h hbuf hrun
    refine ⟨L, hpmm, ?_⟩
    rcases h.2 with h0 | ⟨f, hf, hs⟩
    · exact Or.inl (hhead.trans h0)
    · exact Or.inr ⟨f, hf, hhead.trans hs⟩

theorem ehci_run_inv (hb : b.Ok) (hrun : Relation.ReflTransGen (EhciStep b C) x y)
    (h : EhciInv b x L) : ∃ L', EhciInv b y L' := by
  induction hrun with
  | refl => exact ⟨L, h⟩
  | tail _ hstep ih =>
    obtain ⟨L', h'⟩ := ih
    exact hstep.inv hb h'

theorem ehciStart_inv (hb : b.Ok) (mem : Mem) {pmm : Pmm} (hinit : pmmInit b mem = some pmm)
    (dev : σ) : ∃ L, EhciInv b ⟨ehciStart pmm dev, []⟩ L := by
  obtain ⟨s, L, hs, hinv, _⟩ := pmmInit_inv hb mem
  obtain rfl := Option.some.inj (hinit.symm.trans hs)
  exact ⟨L, hinv, Or.inl rfl⟩

/-- **A call leaves the free pages as it found them**, in the same order and counted the
same, from every state that is reached and whatever the controller and the clock do. -/
theorem ehci_calls_keep_pages (hb : b.Ok) (mem : Mem) {pmm : Pmm} (hinit : pmmInit b mem = some pmm)
    (dev : σ) (hreach : Relation.ReflTransGen (EhciStep b C) ⟨ehciStart pmm dev, []⟩ x)
    (c : EhciCall) (hbuf : CallerOwns b x.held (c.buffer b)) {fuel : Nat} {r : Int} {s' : Ehci σ}
    (hrun : c.run b C fuel x.ehci = some (r, s')) :
    (∃ L, FreeList b x.ehci.pmm L ∧ FreeList b s'.pmm L) ∧
      s'.pmm.pmmFreePages = x.ehci.pmm.pmmFreePages := by
  obtain ⟨L₀, h₀⟩ := ehciStart_inv hb mem hinit dev
  obtain ⟨L, h⟩ := ehci_run_inv hb hreach h₀
  have hsame := EhciCall.run_same hb h hbuf hrun
  refine ⟨⟨L, h.1.list, hsame.1.list⟩, ?_⟩
  apply BitVec.eq_of_toNat_eq
  rw [hsame.1.list.free, h.1.list.free]

end Run

/-- A controller that answers nothing, with a clock that runs fast. -/
def exampleEhc : Ehc (BitVec 32) where
  read _ dev := (0, dev)
  write _ _ dev := dev
  getTimeMs dev := (dev, dev + 10000)
  udelay _ dev := dev
  dma _ m dev := (m, dev)

/-- `usb_set_address`, as the first call. -/
def exampleSetAddress : EhciCall := .controlTransfer 0 (some ⟨0x00, 0x05, 1, 0, 0⟩) 0 0

theorem exampleSetAddress_returns {s : Ehci (BitVec 32)} (hdev : s.dev = 0) :
    ∃ r s', exampleSetAddress.run b exampleEhc 1 s = some (r, s') := by
  have hflush : ehciFlushAsync exampleEhc 0 = (0, 0) := rfl
  have hlate : BitVec.setWidth 64 (0 + 10000 : BitVec 32) - BitVec.setWidth 64 (0 : BitVec 32) >
      (5000 : Word) := by decide
  simp only [exampleSetAddress, EhciCall.run, usbControlTransfer, hdev, hflush]
  split
  · exact ⟨_, _, rfl⟩
  · simp only [ne_eq, not_true, if_false, controlWait]
    split
    · exact ⟨_, _, if_pos hlate⟩
    · exact ⟨_, _, rfl⟩

theorem ehci_calls_keep_pages_exampleMap :
    ∃ pmm r s', pmmInit exampleMap (fun _ => 0) = some pmm ∧
      exampleSetAddress.run exampleMap exampleEhc 1 (ehciStart pmm 0) = some (r, s') ∧
      (∃ L, FreeList exampleMap pmm L ∧ FreeList exampleMap s'.pmm L) ∧
      s'.pmm.pmmFreePages = pmm.pmmFreePages := by
  obtain ⟨pmm, _, hinit, _⟩ := pmmInit_inv exampleMap_ok (fun _ => 0)
  obtain ⟨r, s', hrun⟩ := exampleSetAddress_returns (b := exampleMap) (s := ehciStart pmm 0) rfl
  have hbuf : CallerOwns exampleMap [] (exampleSetAddress.buffer exampleMap) :=
    fun _ h => absurd h (Nat.not_lt_zero _)
  exact ⟨pmm, r, s', hinit, hrun, ehci_calls_keep_pages exampleMap_ok (fun _ => 0) hinit 0 .refl
    exampleSetAddress hbuf hrun⟩

end AncoreOS.Drivers
