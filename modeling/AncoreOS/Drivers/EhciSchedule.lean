import AncoreOS.Drivers.EhciPages

/-!
# The asynchronous schedule

The controller starts at the address that was last written to `ASYNCLISTADDR` and follows the
first word of each queue head.  After `ehci_init_async_list` there is one queue head, which
points to itself; a bulk transfer hangs its own behind it and takes it out again.

A control transfer writes the address of its own queue head to `ASYNCLISTADDR` and then frees
the page, but leaves the register as it is (`control_dangles`).  As long as no control
transfer gets that far, and the schedule is in the first four gigabytes, every queue head the
controller finds is in a page that is held (`schedule_held`).
-/

namespace AncoreOS.Drivers

open ByteMemory AncoreOS.Mm Relation

variable {σ : Type*} {b : Limine} {C : Ehc σ}

/-! ### What the controller reaches -/

/-- The controller goes on from the queue head at `a` to the one at `a'`: bit 0 of the link is
clear, and its low five bits are not part of the address. -/
def Follows (m : Mem) (a a' : BitVec 32) : Prop :=
  load32 m (a.setWidth 64) &&& 0x1 = 0 ∧ a' = load32 m (a.setWidth 64) &&& ~~~0x1F#32

/-- No queue head that the controller reaches is in a page of the list. -/
def ScheduleOff (s : Ehci σ) (L : List Word) : Prop :=
  ∀ addr, s.asyncListAddr = some addr →
    ∀ a, ReflTransGen (Follows s.mem) (addr &&& ~~~0x1F#32) a → pageOf (a.setWidth 64) ∉ L

/-- No queue head that the controller reaches is in a page of the free list. -/
def ScheduleHeld (b : Limine) (s : Ehci σ) : Prop :=
  ∃ L, FreeList b s.pmm L ∧ ScheduleOff s L

/-- The controller reads the horizontal link of a queue head and does not write it. -/
def Ehc.KeepsLinks (C : Ehc σ) : Prop :=
  ∀ page m dev x, InRange page 4 x → (C.dma page m dev).1 x = m x

inductive ScheduleCall
  | client (r : PmmRun)
  | initAsyncList
  | controlTransfer (fuel : Nat) (devaddr : BitVec 8) (setup : Option UsbCtrlSetup) (data : Word)
      (dataLen : BitVec 16)
  | submitBulkSimple (fuel : Nat) (devaddr epAddr : BitVec 8) (data len : Word) (dirIn : Bool)
      (timeout : BitVec 32)

/-- The buffer is the caller's, and not in the page of the schedule. -/
def BufferApart (b : Limine) (x : EhciRun σ) (buffer : Word × Nat) : Prop :=
  CallerOwns b x.held buffer ∧
    ∀ a, InRange buffer.1 buffer.2 a → x.ehci.asyncListHead ≠ pageOf a + b.hhdmOffset

/-- One call, and what it returns to. -/
inductive ScheduleStep (b : Limine) (C : Ehc σ) : EhciRun σ → ScheduleCall → EhciRun σ → Prop
  | client {x : EhciRun σ} {r : PmmRun} : PmmStep b ⟨x.ehci.pmm, x.held⟩ r →
      (∀ f ∈ x.held, x.ehci.asyncListHead = f + b.hhdmOffset →
        f ∈ r.held ∧ ∀ a, pageOf a = f → r.pmm.mem a = x.ehci.mem a) →
      ScheduleStep b C x (.client r) ⟨{ x.ehci with pmm := r.pmm }, r.held⟩
  | initAsyncList {x : EhciRun σ} : ScheduleStep b C x .initAsyncList
      ⟨(ehciInitAsyncList b C x.ehci).2,
        if (palloc b x.ehci.pmm).1 = 0 then x.held else (palloc b x.ehci.pmm).1 :: x.held⟩
  | controlTransfer {x : EhciRun σ} {fuel : Nat} {devaddr : BitVec 8} {setup : Option UsbCtrlSetup}
      {data : Word} {dataLen : BitVec 16} {r : Int} {s : Ehci σ} :
      BufferApart b x (b.deref data, controlLen data dataLen) →
      usbControlTransfer b C fuel devaddr setup data dataLen x.ehci = some (r, s) →
      ScheduleStep b C x (.controlTransfer fuel devaddr setup data dataLen) ⟨s, x.held⟩
  | submitBulkSimple {x : EhciRun σ} {fuel : Nat} {devaddr epAddr : BitVec 8} {data len : Word}
      {dirIn : Bool} {timeout : BitVec 32} {r : Int} {s : Ehci σ} :
      BufferApart b x (b.deref data, len.toNat) →
      ehciSubmitBulkSimple b C fuel devaddr epAddr data len dirIn timeout x.ehci = some (r, s) →
      ScheduleStep b C x (.submitBulkSimple fuel devaddr epAddr data len dirIn timeout) ⟨s, x.held⟩

/-- A schedule is only set up in the first four gigabytes, and no control transfer gets past
`ehci_flush_async`. -/
def ScheduleCall.Sound (b : Limine) (C : Ehc σ) (x : EhciRun σ) : ScheduleCall → Prop
  | .client _ => True
  | .initAsyncList => (palloc b x.ehci.pmm).1.toNat < 2 ^ 32
  | .controlTransfer _ _ setup _ _ =>
    setup = none ∨ (palloc b x.ehci.pmm).1 = 0 ∨ (ehciFlushAsync C x.ehci.dev).1 ≠ 0
  | .submitBulkSimple .. => True

def SoundStep (b : Limine) (C : Ehc σ) (x y : EhciRun σ) : Prop :=
  ∃ c : ScheduleCall, c.Sound b C x ∧ ScheduleStep b C x c y

/-! ### The schedule as it is set up -/

/-- One queue head that points to itself, in a page that is held. -/
structure SelfLinked (b : Limine) (x : EhciRun σ) (addr : BitVec 32) (f : Word) : Prop where
  held : f ∈ x.held
  head : x.ehci.asyncListHead = f + b.hhdmOffset
  low : f.toNat < 2 ^ 32
  addr : addr = f.setWidth 32
  link : load32 x.ehci.mem f = f.setWidth 32 ||| 0x2

/-- What holds in every state of a run of sound steps. -/
structure ScheduleInv (b : Limine) (x : EhciRun σ) (L : List Word) : Prop where
  pmm : PmmInv b x.ehci.pmm L x.held
  unset : x.ehci.asyncListAddr = none → x.ehci.asyncListHead = 0
  set : ∀ addr, x.ehci.asyncListAddr = some addr → ∃ f, SelfLinked b x addr f

section Inv

variable {x y : EhciRun σ} {L : List Word}

theorem ScheduleInv.ehciInv (h : ScheduleInv b x L) : EhciInv b x L := by
  refine ⟨h.pmm, ?_⟩
  cases haddr : x.ehci.asyncListAddr with
  | none => exact Or.inl (h.unset haddr)
  | some addr =>
    obtain ⟨f, hf⟩ := h.set addr haddr
    exact Or.inr ⟨f, hf.held, hf.head⟩

/-- A page in the first four gigabytes is its own low half. -/
theorem setWidth_low {f : Word} (hlow : f.toNat < 2 ^ 32) : (f.setWidth 32).setWidth 64 = f := by
  apply BitVec.eq_of_toNat_eq
  rw [BitVec.toNat_setWidth, BitVec.toNat_setWidth]
  omega

theorem link_masks {f : Word} (hf : PageAligned f) :
    (f.setWidth 32 ||| 0x2) &&& 0x1 = 0 ∧ (f.setWidth 32 ||| 0x2) &&& ~~~0x1F#32 = f.setWidth 32 ∧
      f.setWidth 32 &&& ~~~0x1F#32 = f.setWidth 32 := by
  have hcut : ∀ c : Word, f.setWidth 32 &&& c.setWidth 32 = (f &&& c).setWidth 32 := by
    intro c
    rw [BitVec.setWidth_and]
  have hlow : f.setWidth 32 &&& 0x1 = 0 := by
    have h := hcut 0x1
    rw [hf.and_low (by decide)] at h
    exact h
  have hself : f.setWidth 32 &&& ~~~0x1F#32 = f.setWidth 32 := by
    have h := hcut (~~~0x1F)
    rw [hf.and_eq, show ~~~0xFFF#64 &&& ~~~0x1F = ~~~0xFFF#64 by decide] at h
    rw [show f &&& ~~~0xFFF#64 = f from pageOf_eq_self hf] at h
    exact h
  refine ⟨?_, ?_, hself⟩
  · rw [BitVec.and_or_distrib_right, hlow]
    decide
  · rw [BitVec.and_or_distrib_right, hself]
    simp

theorem ScheduleInv.off (h : ScheduleInv b x L) : ScheduleOff x.ehci L := by
  intro addr haddr a hreach
  obtain ⟨f, hf⟩ := h.set addr haddr
  have haligned : PageAligned f := held_aligned h.pmm hf.held
  obtain ⟨_, hmask, hself⟩ := link_masks haligned
  rw [hf.addr, hself] at hreach
  have hfix : a = f.setWidth 32 := by
    induction hreach with
    | refl => rfl
    | tail _ hstep ih =>
      rw [hstep.2, ih, setWidth_low hf.low, hf.link, hmask]
  rw [hfix, setWidth_low hf.low, pageOf_eq_self haligned]
  exact h.pmm.not_mem_of_mem_out hf.held

/-! ### Steps -/

theorem initAsyncList_inv (hb : b.Ok) (hlow : (palloc b x.ehci.pmm).1.toNat < 2 ^ 32)
    (h : ScheduleInv b x L) :
    ∃ L', ScheduleInv b ⟨(ehciInitAsyncList b C x.ehci).2,
      if (palloc b x.ehci.pmm).1 = 0 then x.held else (palloc b x.ehci.pmm).1 :: x.held⟩ L' := by
  obtain ⟨L', hinv⟩ := ehciInitAsyncList_inv (C := C) hb h.ehciInv
  obtain hpalloc | ⟨page, L'', pmm, rfl, hpalloc, hne, hmem, _⟩ := palloc_cases hb h.pmm
  · simp only [ehciInitAsyncList, hpalloc, if_true]
    exact ⟨L, h⟩
  · simp only [ehciInitAsyncList, hpalloc, hne, if_false] at hinv hlow ⊢
    refine ⟨L', hinv.1, fun hnone => absurd hnone (Option.some_ne_none _), ?_⟩
    rintro addr ⟨⟩
    refine ⟨page, ⟨List.mem_cons_self, rfl, hlow, rfl, ?_⟩⟩
    show load32 (pokes page _ _) page = _
    refine (congrArg (load32 _) (BitVec.add_zero page).symm).trans ?_
    rw [load32_pokes_eq_foldl (by simp) rfl (by decide)]
    simp

/-- What a transfer leaves alone. -/
theorem transfer_outside {s : Ehci σ} {page buf : Word} {len : Nat} {a : Word}
    (ha : ¬TransferRegion page buf len a) : (s.transfer C page buf len).mem a = s.mem a :=
  if_neg ha

/-- A control transfer that does not get past `ehci_flush_async` leaves the register alone, and
memory outside of the region of the transfer. -/
theorem usbControlTransfer_flushed (hb : b.Ok) {s s' : Ehci σ} {out : List Word} {fuel : Nat}
    {devaddr : BitVec 8} {setup : Option UsbCtrlSetup} {data : Word} {dataLen : BitVec 16} {r : Int}
    (h : PmmInv b s.pmm L out)
    (hsound : setup = none ∨ (palloc b s.pmm).1 = 0 ∨ (ehciFlushAsync C s.dev).1 ≠ 0)
    (hrun : usbControlTransfer b C fuel devaddr setup data dataLen s = some (r, s')) :
    s'.asyncListAddr = s.asyncListAddr ∧ ∀ a, pageOf a ∉ L →
      ¬InRange (b.deref data) (controlLen data dataLen) a → s'.mem a = s.mem a := by
  cases setup with
  | none =>
    obtain ⟨rfl, rfl⟩ := Prod.mk.inj (Option.some.inj hrun)
    exact ⟨rfl, fun _ _ _ => rfl⟩
  | some setup =>
    obtain hpalloc | ⟨page, L', pmm, rfl, hpalloc, hne, hmem, hinv⟩ := palloc_cases hb h
    · simp only [usbControlTransfer, hpalloc, if_true] at hrun
      obtain ⟨rfl, rfl⟩ := Prod.mk.inj (Option.some.inj hrun)
      exact ⟨rfl, fun _ _ _ => rfl⟩
    · have hflush : (ehciFlushAsync C s.dev).1 ≠ 0 := by
        rcases hsound with hnone | hzero | hflush
        · exact absurd hnone (Option.some_ne_none _)
        · rw [hpalloc] at hzero
          exact absurd hzero hne
        · exact hflush
      have haligned : PageAligned page :=
        held_aligned (s := { s with pmm := pmm }) hinv List.mem_cons_self
      simp only [usbControlTransfer, hpalloc, hne, if_false, if_pos hflush] at hrun
      obtain ⟨rfl, rfl⟩ := Prod.mk.inj (Option.some.inj hrun)
      refine ⟨rfl, fun a ha hbuf => ?_⟩
      have hap : pageOf a ≠ page := fun hap => ha (hap ▸ List.mem_cons_self)
      show (pfree b _ page).mem a = _
      rw [pfree_mem haligned hap]
      show (Ehci.transfer C page _ _ _).mem a = _
      rw [transfer_outside (by rintro (h | h); exacts [hap h, hbuf h])]
      show controlSetup page devaddr setup data dataLen pmm.mem a = _
      rw [controlSetup_outside haligned hap, hmem]
      rfl

theorem transfer_link (hkeeps : C.KeepsLinks) (s : Ehci σ) (page buf : Word) (len : Nat) :
    load32 (s.transfer C page buf len).mem page = load32 s.mem page := by
  refine load32_congr fun a ha => ?_
  show (if TransferRegion page buf len a then (C.dma page s.mem s.dev).1 a else s.mem a) = s.mem a
  split
  · exact hkeeps page s.mem s.dev a ha
  · rfl

/-- Taking the queue head out puts its link back into the head of the schedule. -/
theorem bulkUnlink_link (hkeeps : C.KeepsLinks) {s : Ehci σ} {page buf f : Word} {len : Nat}
    (hpage : PageAligned page) (hf : PageAligned f) (hne : f ≠ page)
    (hhead : s.asyncListHead = f + b.hhdmOffset) :
    load32 (bulkUnlink b C page buf len s).mem f = load32 s.mem page := by
  have hderef : b.deref (s.transfer C page buf len).asyncListHead = f := by
    show b.deref s.asyncListHead = f
    rw [hhead, Limine.deref_add]
  have hfree : load32 (bulkUnlink b C page buf len s).mem f =
      load32 (store32 (s.transfer C page buf len).mem f (load32 (s.transfer C page buf len).mem page))
        f := by
    refine load32_congr fun a ha => ?_
    have hap : pageOf a ≠ page := by
      rw [pageOf_of_inRange_start hf ha (by decide)]
      exact hne
    show (pfree b _ page).mem a = _
    rw [pfree_mem hpage hap, ← hderef]
    rfl
  rw [hfree, load32_store32_same, transfer_link hkeeps]

theorem Waits.link (hkeeps : C.KeepsLinks) {s s₁ : Ehci σ} {page buf : Word} {len : Nat}
    (hwait : Waits C page buf len s s₁) : load32 s₁.mem page = load32 s.mem page := by
  induction hwait with
  | refl => rfl
  | @transfer s₁ _ ih => exact (transfer_link hkeeps s₁ page buf len).trans ih
  | device dev _ ih => exact ih

theorem bulkWait_link (hkeeps : C.KeepsLinks) {s s' : Ehci σ} {page buf f : Word} {len fuel : Nat}
    {start timeout : BitVec 32} {r : Int} (hpage : PageAligned page) (hf : PageAligned f)
    (hne : f ≠ page) (hhead : s.asyncListHead = f + b.hhdmOffset)
    (hrun : bulkWait b C page buf len start timeout fuel s = some (r, s')) :
    s'.asyncListAddr = s.asyncListAddr ∧ load32 s'.mem f = load32 s.mem page := by
  obtain ⟨s₁, hwait, rfl⟩ := bulkWait_waits fuel s hrun
  refine ⟨hwait.asyncListAddr, ?_⟩
  rw [bulkUnlink_link hkeeps hpage hf hne (hwait.asyncListHead.trans hhead), hwait.link hkeeps]

/-- A bulk transfer leaves the register alone and the link of the schedule as it was. -/
theorem ehciSubmitBulkSimple_link (hb : b.Ok) (hkeeps : C.KeepsLinks) {s s' : Ehci σ}
    {out : List Word} {f : Word} {fuel : Nat} {devaddr epAddr : BitVec 8} {data len : Word}
    {dirIn : Bool} {timeout : BitVec 32} {r : Int} (h : PmmInv b s.pmm L out) (hf : f ∈ out)
    (hhead : s.asyncListHead = f + b.hhdmOffset)
    (hrun : ehciSubmitBulkSimple b C fuel devaddr epAddr data len dirIn timeout s = some (r, s')) :
    s'.asyncListAddr = s.asyncListAddr ∧ load32 s'.mem f = load32 s.mem f := by
  unfold ehciSubmitBulkSimple at hrun
  split at hrun
  · obtain ⟨rfl, rfl⟩ := Prod.mk.inj (Option.some.inj hrun)
    exact ⟨rfl, rfl⟩
  · obtain hpalloc | ⟨page, L', pmm, rfl, hpalloc, hne, hmem, hinv⟩ := palloc_cases hb h
    · simp only [hpalloc, if_true] at hrun
      obtain ⟨rfl, rfl⟩ := Prod.mk.inj (Option.some.inj hrun)
      exact ⟨rfl, rfl⟩
    · simp only [hpalloc, hne, if_false] at hrun
      have hfne : f ≠ page := by
        rintro rfl
        exact h.not_mem_of_mem_out hf List.mem_cons_self
      have hpage : PageAligned page :=
        held_aligned (s := { s with pmm := pmm }) hinv List.mem_cons_self
      have haligned : PageAligned f := held_aligned h hf
      have hderef : b.deref s.asyncListHead = f := by rw [hhead, Limine.deref_add]
      have hword : ∀ a, InRange f 4 a → pageOf a = f := fun a ha =>
        pageOf_of_inRange_start haligned ha (by decide)
      have hpageWord : ∀ a, InRange page 4 a → pageOf a = page := fun a ha =>
        pageOf_of_inRange_start hpage ha (by decide)
      obtain ⟨haddr, hlink⟩ := bulkWait_link hkeeps hpage haligned hfne (by exact hhead) hrun
      refine ⟨haddr, hlink.trans ?_⟩
      -- The link of the new queue head is the one that the head of the schedule had.
      show load32 (store32 (store32 (bulkSetup page _ devaddr epAddr len dirIn pmm.mem) page
        (load32 (bulkSetup page _ devaddr epAddr len dirIn pmm.mem) (b.deref s.asyncListHead)))
        (b.deref s.asyncListHead) _) page = _
      rw [hderef]
      have hother : ∀ (m : Mem) (v : BitVec 32), load32 (store32 m f v) page = load32 m page := by
        intro m v
        refine load32_congr fun a ha => store_apply_of_not_inRange fun haf => hfne ?_
        rw [← hword a haf, hpageWord a ha]
      rw [hother, load32_store32_same]
      refine load32_congr fun a ha => ?_
      rw [bulkSetup_outside hpage (by rw [hword a ha]; exact hfne), hmem]
      rfl

theorem ScheduleStep.inv (hb : b.Ok) (hkeeps : C.KeepsLinks) {c : ScheduleCall}
    (hsound : c.Sound b C x) (hstep : ScheduleStep b C x c y) (h : ScheduleInv b x L) :
    ∃ L', ScheduleInv b y L' := by
  cases hstep with
  | client hclient hapart =>
    obtain ⟨L', h'⟩ := hclient.inv hb h.pmm
    refine ⟨L', h', h.unset, fun addr haddr => ?_⟩
    obtain ⟨f, hf⟩ := h.set addr haddr
    obtain ⟨hheld, hmem⟩ := hapart f hf.held hf.head
    refine ⟨f, hheld, hf.head, hf.low, hf.addr, (load32_congr fun a ha => ?_).trans hf.link⟩
    exact hmem a (pageOf_of_inRange_start (held_aligned h.pmm hf.held) ha (by decide))
  | initAsyncList => exact initAsyncList_inv hb hsound h
  | controlTransfer hbuf hrun =>
    have hsame := usbControlTransfer_same hb h.pmm (hbuf.1.offList h.pmm) hrun
    obtain ⟨haddr, hmem⟩ := usbControlTransfer_flushed hb h.pmm hsound hrun
    refine ⟨L, hsame.1, fun hnone => hsame.2.trans (h.unset (haddr ▸ hnone)), fun addr hset => ?_⟩
    obtain ⟨f, hf⟩ := h.set addr (haddr ▸ hset)
    refine ⟨f, hf.held, hsame.2.trans hf.head, hf.low, hf.addr,
      (load32_congr fun a ha => ?_).trans hf.link⟩
    have hap := pageOf_of_inRange_start (held_aligned h.pmm hf.held) ha (by decide)
    refine hmem a (hap ▸ h.pmm.not_mem_of_mem_out hf.held) fun hin => ?_
    exact hbuf.2 a hin (hap ▸ hf.head)
  | submitBulkSimple hbuf hrun =>
    have hsame := ehciSubmitBulkSimple_same hb h.pmm h.ehciInv.2 (hbuf.1.offList h.pmm) hrun
    cases haddr : x.ehci.asyncListAddr with
    | none =>
      have hnull := h.unset haddr
      rw [ehciSubmitBulkSimple, if_pos hnull] at hrun
      obtain ⟨rfl, rfl⟩ := Prod.mk.inj (Option.some.inj hrun)
      exact ⟨L, h⟩
    | some addr =>
      obtain ⟨f, hf⟩ := h.set addr haddr
      obtain ⟨hkeep, hlink⟩ := ehciSubmitBulkSimple_link hb hkeeps h.pmm hf.held hf.head hrun
      refine ⟨L, hsame.1, fun hnone => ?_, fun addr' haddr' => ?_⟩
      · rw [hkeep, haddr] at hnone
        exact absurd hnone (Option.some_ne_none addr)
      · rw [hkeep, haddr] at haddr'
        obtain rfl := Option.some.inj haddr'
        exact ⟨f, hf.held, hsame.2.trans hf.head, hf.low, hf.addr, hlink.trans hf.link⟩

/-! ### Runs -/

theorem schedule_run_inv (hb : b.Ok) (hkeeps : C.KeepsLinks)
    (hrun : ReflTransGen (SoundStep b C) x y) (h : ScheduleInv b x L) : ∃ L', ScheduleInv b y L' := by
  induction hrun with
  | refl => exact ⟨L, h⟩
  | tail _ hstep ih =>
    obtain ⟨L', h'⟩ := ih
    obtain ⟨c, hsound, hstep⟩ := hstep
    exact hstep.inv hb hkeeps hsound h'

theorem scheduleStart_inv (hb : b.Ok) (mem : Mem) {pmm : Pmm} (hinit : pmmInit b mem = some pmm)
    (dev : σ) : ∃ L, ScheduleInv b ⟨ehciStart pmm dev, []⟩ L := by
  obtain ⟨L, hinv⟩ := ehciStart_inv hb mem hinit dev
  refine ⟨L, hinv.1, fun _ => rfl, fun addr haddr => ?_⟩
  exact absurd haddr (Option.some_ne_none addr).symm

/-- **Every queue head that the controller finds is in a page that is held**, in every state of a
run in which the schedule is below four gigabytes and no control transfer starts it. -/
theorem schedule_held (hb : b.Ok) (hkeeps : C.KeepsLinks) (mem : Mem) {pmm : Pmm}
    (hinit : pmmInit b mem = some pmm) (dev : σ)
    (hrun : ReflTransGen (SoundStep b C) ⟨ehciStart pmm dev, []⟩ y) : ScheduleHeld b y.ehci := by
  obtain ⟨L₀, h₀⟩ := scheduleStart_inv hb mem hinit dev
  obtain ⟨L, h⟩ := schedule_run_inv hb hkeeps hrun h₀
  exact ⟨L, h.pmm.list, h.off⟩

end Inv

/-- A bulk transfer of no bytes. -/
def exampleBulk : ScheduleCall := .submitBulkSimple 1 1 0x81 0 0 true 1000

theorem exampleEhc_keepsLinks : exampleEhc.KeepsLinks := fun _ _ _ _ _ => rfl

theorem exampleBulk_returns {s : Ehci (BitVec 32)} (hdev : s.dev = 0) :
    ∃ r s', ehciSubmitBulkSimple b exampleEhc 1 1 0x81 0 0 true 1000 s = some (r, s') := by
  have hlate : (10000 : BitVec 32) - 0 > 1000 := by decide
  unfold ehciSubmitBulkSimple
  split
  · exact ⟨_, _, rfl⟩
  · dsimp only
    split
    · exact ⟨_, _, rfl⟩
    · simp only [bulkWait]
      split
      · exact ⟨_, _, rfl⟩
      · split
        · exact ⟨_, _, rfl⟩
        · refine ⟨_, _, if_pos ?_⟩
          simp only [exampleEhc, Ehci.transfer, Ehci.setMem, hdev]
          exact hlate

/-- `ehci_init_async_list` as the first call. -/
def exampleScheduled (pmm : Pmm) : EhciRun (BitVec 32) :=
  ⟨(ehciInitAsyncList exampleMap exampleEhc (ehciStart pmm 0)).2,
    if (palloc exampleMap pmm).1 = 0 then [] else [(palloc exampleMap pmm).1]⟩

theorem exampleScheduled_dev (pmm : Pmm) : (exampleScheduled pmm).ehci.dev = 0 := by
  unfold exampleScheduled ehciInitAsyncList
  dsimp only
  split <;> rfl

theorem exampleMap_palloc_low {pmm : Pmm} {L : List Word} (h : PmmInv exampleMap pmm L []) :
    (palloc exampleMap pmm).1.toNat < 2 ^ 32 := by
  cases L with
  | nil =>
    rw [h.list.palloc_nil]
    exact Nat.two_pow_pos 32
  | cons f L =>
    obtain ⟨_, hrun, _⟩ := h.palloc
    have hf := exampleMap_usable ((h.usable f).mpr (List.mem_cons_self))
    rw [hrun]
    show f.toNat < 2 ^ 32
    omega

/-- The schedule is set up and used for a bulk transfer. -/
theorem schedule_held_exampleMap :
    ∃ pmm r s, pmmInit exampleMap (fun _ => 0) = some pmm ∧
      ReflTransGen (SoundStep exampleMap exampleEhc) ⟨ehciStart pmm 0, []⟩
        (exampleScheduled pmm) ∧
      ehciSubmitBulkSimple exampleMap exampleEhc 1 1 0x81 0 0 true 1000
        (exampleScheduled pmm).ehci = some (r, s) ∧ ScheduleHeld exampleMap s := by
  obtain ⟨pmm, L, hinit, hinv, _⟩ := pmmInit_inv exampleMap_ok (fun _ => 0)
  obtain ⟨r, s, hbulk⟩ := exampleBulk_returns (b := exampleMap) (exampleScheduled_dev pmm)
  have hset : SoundStep exampleMap exampleEhc ⟨ehciStart pmm 0, []⟩ (exampleScheduled pmm) :=
    ⟨.initAsyncList, exampleMap_palloc_low hinv, .initAsyncList⟩
  have hbuf : BufferApart exampleMap (exampleScheduled pmm) (exampleMap.deref 0, 0) :=
    ⟨fun _ h => absurd h (Nat.not_lt_zero _), fun _ h => absurd h (Nat.not_lt_zero _)⟩
  have hsent : SoundStep exampleMap exampleEhc (exampleScheduled pmm)
      ⟨s, (exampleScheduled pmm).held⟩ :=
    ⟨exampleBulk, trivial, .submitBulkSimple hbuf hbulk⟩
  have hrun : ReflTransGen (SoundStep exampleMap exampleEhc) ⟨ehciStart pmm 0, []⟩
      (exampleScheduled pmm) := .single hset
  exact ⟨pmm, r, s, hinit, hrun, hbulk, schedule_held exampleMap_ok exampleEhc_keepsLinks
    (fun _ => 0) hinit 0 (hrun.tail hsent)⟩

/-! ### A control transfer -/

section Control

variable {s s' : Ehci σ} {L out : List Word} {f : Word} {r : Int}

/-- A control transfer that passes `ehci_flush_async` leaves its own queue head in the register
and the page of it at the front of the free list. -/
theorem control_dangles (hb : b.Ok) {fuel : Nat} {devaddr : BitVec 8} {setup : UsbCtrlSetup}
    {data : Word} {dataLen : BitVec 16} (h : PmmInv b s.pmm (f :: L) out)
    (hbuf : OffList (f :: L) (b.deref data) (controlLen data dataLen))
    (hflush : (ehciFlushAsync C s.dev).1 = 0)
    (hrun : usbControlTransfer b C fuel devaddr (some setup) data dataLen s = some (r, s')) :
    s'.asyncListAddr = some ((f + b.hhdmOffset).setWidth 32) ∧ FreeList b s'.pmm (f :: L) := by
  refine ⟨?_, (usbControlTransfer_same hb h hbuf hrun).1.list⟩
  obtain ⟨pmm, hpalloc, _⟩ := h.palloc
  have hne : f ≠ 0 := h.ne_zero hb List.mem_cons_self
  simp only [usbControlTransfer, hpalloc, hne, if_false, hflush, ne_eq, not_true] at hrun
  obtain ⟨s₁, hwait, rfl⟩ := controlWait_waits fuel _ hrun
  exact hwait.asyncListAddr

end Control

theorem exampleMap_frames : ∀ f ∈ [0x2000, 0x3000], exampleMap.UsableFrame f := by
  intro f hf
  refine ⟨⟨0x1100, 0x2F00, 0⟩, List.mem_cons_self, rfl, ?_⟩
  fin_cases hf <;> decide

theorem exampleMap_start : ∃ pmm L, pmmInit exampleMap (fun _ => 0) = some pmm ∧
    PmmInv exampleMap pmm L [] ∧ 2 ≤ L.length := by
  obtain ⟨pmm, L, hinit, hinv, _⟩ := pmmInit_inv exampleMap_ok (fun _ => 0)
  exact ⟨pmm, L, hinit, hinv, hinv.frames_length_le (by decide) exampleMap_frames⟩

/-- One of the two frames is free after the schedule has been set up. -/
theorem exampleScheduled_free (pmm : Pmm) {L : List Word}
    (h : PmmInv exampleMap (exampleScheduled pmm).ehci.pmm L (exampleScheduled pmm).held) :
    ∃ f L', L = f :: L' := by
  have hlen : 2 ≤ L.length + (exampleScheduled pmm).held.length :=
    h.frames_length_le (by decide) exampleMap_frames
  have hheld : (exampleScheduled pmm).held.length ≤ 1 := by
    unfold exampleScheduled
    dsimp only
    split
    · exact Nat.zero_le 1
    · exact le_rfl
  exact List.exists_cons_of_ne_nil (List.ne_nil_of_length_pos (by omega))

/-- `usb_set_address` after the schedule has been set up: the controller is left with a queue head
in a free page. -/
theorem exampleControl_not_held :
    ∃ pmm y, pmmInit exampleMap (fun _ => 0) = some pmm ∧
      ReflTransGen (fun x y => ∃ c, ScheduleStep exampleMap exampleEhc x c y)
        ⟨ehciStart pmm 0, []⟩ y ∧ ¬ScheduleHeld exampleMap y.ehci := by
  obtain ⟨pmm, L, hinit, hinv, _⟩ := pmmInit_inv exampleMap_ok (fun _ => 0)
  obtain ⟨L₀, h₀⟩ := ehciStart_inv exampleMap_ok (fun _ => 0) hinit (0 : BitVec 32)
  obtain ⟨L₁, h₁⟩ := ehciInitAsyncList_inv (C := exampleEhc) exampleMap_ok h₀
  obtain ⟨f, L', rfl⟩ := exampleScheduled_free pmm h₁.1
  obtain ⟨r, s, hcall⟩ := exampleSetAddress_returns (b := exampleMap) (exampleScheduled_dev pmm)
  have hreturns : usbControlTransfer exampleMap exampleEhc 1 0 (some ⟨0x00, 0x05, 1, 0, 0⟩) 0 0
      (exampleScheduled pmm).ehci = some (r, s) := hcall
  have hbuf : BufferApart exampleMap (exampleScheduled pmm)
      (exampleMap.deref 0, controlLen 0 0) :=
    ⟨fun _ h => absurd h (Nat.not_lt_zero _), fun _ h => absurd h (Nat.not_lt_zero _)⟩
  have hset : ∃ c, ScheduleStep exampleMap exampleEhc ⟨ehciStart pmm 0, []⟩ c
      (exampleScheduled pmm) := ⟨_, .initAsyncList⟩
  have hcontrol : ∃ c, ScheduleStep exampleMap exampleEhc (exampleScheduled pmm) c
      ⟨s, (exampleScheduled pmm).held⟩ := ⟨_, .controlTransfer hbuf hreturns⟩
  refine ⟨pmm, ⟨s, (exampleScheduled pmm).held⟩, hinit, (ReflTransGen.single hset).tail hcontrol, ?_⟩
  rintro ⟨L, hlist, hoff⟩
  have hflush : (ehciFlushAsync exampleEhc (exampleScheduled pmm).ehci.dev).1 = 0 := by
    rw [exampleScheduled_dev]
    rfl
  obtain ⟨haddr, hfree⟩ := control_dangles exampleMap_ok h₁.1
    (fun _ h => absurd h (Nat.not_lt_zero _)) hflush hreturns
  have hmem : f ∈ L := hfree.front_mem hlist
  have hf := exampleMap_usable ((h₁.1.usable f).mpr (List.mem_append_left _ List.mem_cons_self))
  refine hoff _ haddr _ .refl ?_
  have hpage : pageOf ((((f + exampleMap.hhdmOffset).setWidth 32) &&& ~~~0x1F#32).setWidth 64) = f := by
    rcases hf with hf | hf
    · obtain rfl : f = 0x2000 := BitVec.eq_of_toNat_eq hf
      decide
    · obtain rfl : f = 0x3000 := BitVec.eq_of_toNat_eq hf
      decide
  rw [hpage]
  exact hmem

end AncoreOS.Drivers
