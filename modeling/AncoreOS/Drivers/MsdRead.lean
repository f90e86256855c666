import AncoreOS.Drivers.EhciFrame

/-!
# Reading a sector over bulk-only transport

`msd_read_sector` sends a command block wrapper, receives the sector, and receives a status
wrapper, with three bulk transfers (`MsdPhases`).  It asks the status wrapper for its signature,
its tag and its status (`msdReadSector_zero_iff`), and not for `data_residue`.

`MsdRun` is a run of the driver with the calls that were made.  `global_tag` counts them, so that
the tags of up to `2 ^ 32` calls differ (`MsdRun.tags`), and the wrapper in memory still has the
tag of its call when the status arrives (`MsdPhases.tag`).  Each call is right if and only if the
device does not leave a residue behind a status that stands for success (`msd_reads_right_iff`).
-/

namespace AncoreOS.Drivers

open ByteMemory AncoreOS.Mm Relation

variable {σ : Type*} {b : Limine} {C : Ehc σ}

/-! ### The wrappers -/

/-- A number in big-endian bytes. -/
def bigEndian (bs : List (BitVec 8)) : Nat := bs.foldl (fun n b => 256 * n + b.toNat) 0

/-- The bytes 2 to 5 of the command block, which starts at offset 15 of the wrapper. -/
def cbwLba (m : Mem) (page : Word) : Nat :=
  bigEndian ([17, 18, 19, 20].map fun o => m (page + BitVec.ofNat 64 o))

def cbwTag (m : Mem) (page : Word) : BitVec 32 := load32 m (page + 4)

/-- `struct CSW`. -/
structure Csw where
  signature : BitVec 32
  tag : BitVec 32
  dataResidue : BitVec 32
  status : BitVec 8
  deriving DecidableEq, Repr

/-- The status wrapper in the page. -/
def cswAt (m : Mem) (page : Word) : Csw :=
  ⟨load32 m (page + 32), load32 m (page + 36), load32 m (page + 40), m (page + 44)⟩

section Wrappers

variable {page : Word} {m : Mem} {tag lba : BitVec 32} {o : Nat}

theorem bigEndian_shifts (x : BitVec 32) :
    bigEndian [(x >>> 24).setWidth 8, (x >>> 16).setWidth 8, (x >>> 8).setWidth 8, x.setWidth 8] =
      x.toNat := by
  have := x.isLt
  simp only [bigEndian, List.foldl_cons, List.foldl_nil, BitVec.toNat_setWidth, BitVec.toNat_ushiftRight,
    Nat.shiftRight_eq_div_pow]
  omega

theorem cbwSetup_lba : cbwLba (cbwSetup page tag lba m) page = lba.toNat := by
  rw [← bigEndian_shifts lba, cbwLba]
  simp only [List.map_cons, List.map_nil, cbwSetup]
  rw [pokePageBytes_apply (by simp) (by decide), pokePageBytes_apply (by simp) (by decide),
    pokePageBytes_apply (by simp) (by decide), pokePageBytes_apply (by simp) (by decide)]
  rfl

theorem cbwSetup_tag : cbwTag (cbwSetup page tag lba m) page = tag := by
  have hword : load32 (cbwSetup page tag lba m) (page + BitVec.ofNat 64 4) = tag := by
    unfold cbwSetup
    rw [load32_congr (m := pokes page [(0, cbwSignature), (4, tag), (8, 512)] (fill m page 31 0)),
      load32_pokes_eq_foldl (by simp) (by decide) (by decide)]
    · rfl
    · intro x hx
      obtain ⟨j, hj, rfl⟩ := eq_add_of_inRange hx
      rw [BitVec.add_assoc, ← BitVec.ofNat_add, pokePageBytes_apply (by simp) (by omega)]
      have hne : ∀ k, 12 ≤ k → k ≠ 4 + j := fun k hk => by omega
      simp [hne]
  exact hword

end Wrappers

/-! ### One call -/

/-- A call that has returned, with the driver before and after it. -/
structure MsdRead (σ : Type*) where
  before : Ehci σ
  fuel : Nat
  dev : UsbDevice
  lba : BitVec 32
  data : Word
  result : Int
  after : Ehci σ

/-- The page for the wrappers, and the driver when it sends the command, if there is a page. -/
def msdCommand (b : Limine) (lba : BitVec 32) (s : Ehci σ) : Option (Word × Ehci σ) :=
  let (page, pmm) := palloc b s.pmm
  if page = 0 then none
  else some (page, { s with
    pmm := { pmm with mem := cbwSetup page (s.globalTag + 1) lba pmm.mem }
    globalTag := s.globalTag + 1 })

namespace MsdRead

variable (b C) in
/-- The call is one of `msd_read_sector`. -/
def Runs (c : MsdRead σ) : Prop :=
  msdReadSector b C c.fuel c.dev c.lba c.data c.before = some (c.result, c.after)

variable (b) in
/-- The tag that the call sends, if it sends a command. -/
def sentTag (c : MsdRead σ) : Option (BitVec 32) :=
  (msdCommand b c.lba c.before).map fun x => cbwTag x.2.mem x.1

variable (b C) in
/-- The three phases have succeeded: the driver when it sends the command, after that, after the
data, and when it has the status. -/
structure Phases (c : MsdRead σ) (page : Word) (s₁ s₂ s₃ s₄ : Ehci σ) : Prop where
  command : msdCommand b c.lba c.before = some (page, s₁)
  cbw : msdSendCbw b C c.fuel c.dev (page + b.hhdmOffset) s₁ = some (0, s₂)
  data : ehciSubmitBulkSimple b C c.fuel c.dev.address c.dev.bulkIn.addr c.data 512 true 1000 s₂ =
    some (0, s₃)
  csw : msdReceiveCsw b C c.fuel c.dev (page + b.hhdmOffset + 32)
    (s₃.setMem (fill s₃.mem (page + 32) 13 0)) = some (0, s₄)

variable (b C) in
/-- The command that the call sends is for its sector, and the call returns `0` only if the three
phases have succeeded with a status wrapper for this command that reports no error and no
residue. -/
structure Right (c : MsdRead σ) : Prop where
  sends : ∀ page s₁, msdCommand b c.lba c.before = some (page, s₁) →
    cbwLba s₁.mem page = c.lba.toNat
  returns : c.result = 0 → ∃ page s₁ s₂ s₃ s₄, c.Phases b C page s₁ s₂ s₃ s₄ ∧
    cswAt s₄.mem page = ⟨cswSignature, cbwTag s₁.mem page, 0, 0⟩

variable (b C) in
/-- The status wrapper of the call has no residue where it has the right signature and tag, and no
error. -/
def Delivered (c : MsdRead σ) : Prop :=
  ∀ page s₁ s₂ s₃ s₄, c.Phases b C page s₁ s₂ s₃ s₄ → (cswAt s₄.mem page).signature = cswSignature →
    (cswAt s₄.mem page).tag = cbwTag s₁.mem page → (cswAt s₄.mem page).status = 0 →
    (cswAt s₄.mem page).dataResidue = 0

variable {c : MsdRead σ}

/-- A call that returns another result has not taken this exit. -/
theorem of_ite_some {q : Prop} [Decidable q] {r r' : Int} {s s' : Ehci σ}
    {next : Option (Int × Ehci σ)} (h : (if ¬q then some (r, s) else next) = some (r', s'))
    (hne : r ≠ r') : q ∧ next = some (r', s') := by
  split at h
  · exact absurd (Prod.mk.inj (Option.some.inj h)).1 hne
  · rename_i hq
    exact ⟨not_not.mp hq, h⟩

/-- The call comes in a state that is reached, with a buffer that is the caller's. -/
structure Sound (b : Limine) (c : MsdRead σ) (held : List Word) : Prop where
  inv : ∃ L, EhciInv b ⟨c.before, held⟩ L
  owns : CallerOwns b held (b.deref c.data, 512)

theorem Phases.unique {page page' : Word} {s₁ s₂ s₃ s₄ s₁' s₂' s₃' s₄' : Ehci σ}
    (h : c.Phases b C page s₁ s₂ s₃ s₄) (h' : c.Phases b C page' s₁' s₂' s₃' s₄') :
    page = page' ∧ s₁ = s₁' ∧ s₄ = s₄' := by
  obtain ⟨rfl, rfl⟩ := Prod.mk.inj (Option.some.inj (h.command.symm.trans h'.command))
  obtain ⟨-, rfl⟩ := Prod.mk.inj (Option.some.inj (h.cbw.symm.trans h'.cbw))
  obtain ⟨-, rfl⟩ := Prod.mk.inj (Option.some.inj (h.data.symm.trans h'.data))
  obtain ⟨-, rfl⟩ := Prod.mk.inj (Option.some.inj (h.csw.symm.trans h'.csw))
  exact ⟨rfl, rfl, rfl⟩

/-- The call after the command has been put together. -/
theorem msdReadSector_of_command {page : Word} {s₁ : Ehci σ}
    (hcommand : msdCommand b c.lba c.before = some (page, s₁)) :
    msdReadSector b C c.fuel c.dev c.lba c.data c.before =
    ((msdSendCbw b C c.fuel c.dev (page + b.hhdmOffset) s₁).bind fun x =>
      if x.1 ≠ 0 then some (-2, x.2.free b page)
      else (ehciSubmitBulkSimple b C c.fuel c.dev.address c.dev.bulkIn.addr c.data 512 true 1000
          x.2).bind fun x =>
        if x.1 ≠ 0 then some (-3, x.2.free b page)
        else (msdReceiveCsw b C c.fuel c.dev (page + b.hhdmOffset + 32)
            (x.2.setMem (fill x.2.mem (page + 32) 13 0))).bind fun x =>
          if x.1 ≠ 0 then some (-4, x.2.free b page)
          else if (cswAt x.2.mem page).signature ≠ cswSignature then some (-5, x.2.free b page)
          else if (cswAt x.2.mem page).tag ≠ cbwTag x.2.mem page then some (-6, x.2.free b page)
          else if (cswAt x.2.mem page).status ≠ 0 then some (-7, x.2.free b page)
          else some (0, x.2.free b page)) := by
  unfold msdCommand at hcommand
  unfold msdReadSector
  dsimp only at hcommand ⊢
  split at hcommand
  · exact absurd hcommand.symm (Option.some_ne_none _)
  · rename_i hpage
    obtain ⟨rfl, rfl⟩ := Prod.mk.inj (Option.some.inj hcommand)
    rw [if_neg hpage]
    rfl

theorem Runs.of_no_command (hrun : c.Runs b C) (hcommand : msdCommand b c.lba c.before = none) :
    c.result = -1 ∧ c.after.globalTag = c.before.globalTag := by
  unfold msdCommand at hcommand
  unfold Runs msdReadSector at hrun
  dsimp only at hcommand hrun
  split at hcommand
  · rename_i hpage
    rw [if_pos hpage] at hrun
    obtain ⟨hresult, hafter⟩ := Prod.mk.inj (Option.some.inj hrun)
    exact ⟨hresult.symm, hafter ▸ rfl⟩
  · exact absurd hcommand (Option.some_ne_none _)

/-- **What a call that returns `0` has seen.** -/
theorem Runs.zero_iff (hrun : c.Runs b C) : c.result = 0 ↔
    ∃ page s₁ s₂ s₃ s₄, c.Phases b C page s₁ s₂ s₃ s₄ ∧ (cswAt s₄.mem page).signature = cswSignature ∧
      (cswAt s₄.mem page).tag = cbwTag s₄.mem page ∧ (cswAt s₄.mem page).status = 0 := by
  constructor
  · intro hzero
    cases hcommand : msdCommand b c.lba c.before with
    | none =>
      rw [(hrun.of_no_command hcommand).1] at hzero
      exact absurd hzero (by decide)
    | some x =>
      obtain ⟨page, s₁⟩ := x
      have hcall := (msdReadSector_of_command hcommand).symm.trans hrun
      rw [hzero] at hcall
      obtain ⟨⟨r₁, s₂⟩, hcbw, hcall⟩ := Option.bind_eq_some_iff.mp hcall
      obtain ⟨h₁, hcall⟩ := of_ite_some hcall (by decide)
      obtain ⟨⟨r₂, s₃⟩, hdata, hcall⟩ := Option.bind_eq_some_iff.mp hcall
      obtain ⟨h₂, hcall⟩ := of_ite_some hcall (by decide)
      obtain ⟨⟨r₃, s₄⟩, hcsw, hcall⟩ := Option.bind_eq_some_iff.mp hcall
      obtain ⟨h₃, hcall⟩ := of_ite_some hcall (by decide)
      obtain ⟨hsignature, hcall⟩ := of_ite_some hcall (by decide)
      obtain ⟨htag, hcall⟩ := of_ite_some hcall (by decide)
      obtain ⟨hstatus, -⟩ := of_ite_some hcall (by decide)
      dsimp only at h₁ h₂ h₃
      subst h₁ h₂ h₃
      exact ⟨page, s₁, s₂, s₃, s₄, ⟨hcommand, hcbw, hdata, hcsw⟩, hsignature, htag, hstatus⟩
  · rintro ⟨page, s₁, s₂, s₃, s₄, h, hsignature, htag, hstatus⟩
    have hcall := (msdReadSector_of_command h.command).symm.trans hrun
    simp only [h.cbw, h.data, h.csw, Option.bind_some, ne_eq, not_true, if_false, hsignature, htag,
      hstatus] at hcall
    exact (Prod.mk.inj (Option.some.inj hcall)).1.symm

/-! ### The wrapper during the call -/

/-- The command block wrapper is in the page, and the schedule in another one. -/
structure Commanded (b : Limine) (L held : List Word) (f page : Word) (s : Ehci σ) : Prop where
  inv : PmmInv b s.pmm L (page :: held)
  mem : f ∈ held
  head : s.asyncListHead = f + b.hhdmOffset

section Commanded

variable {L held : List Word} {f page : Word} {s s' : Ehci σ} {devaddr epAddr : BitVec 8}
  {data size : Word} {dirIn : Bool} {fuel : Nat} {x : Word}

theorem Commanded.ne (h : Commanded b L held f page s) : page ≠ f := by
  rintro rfl
  have hnodup := (List.nodup_append.mp h.inv.nodup).2.1
  exact (List.nodup_cons.mp hnodup).1 h.mem

theorem Commanded.not_free (h : Commanded b L held f page s) : page ∉ L :=
  fun hL => h.inv.not_mem_of_mem_out List.mem_cons_self hL

theorem Commanded.aligned (h : Commanded b L held f page s) : PageAligned page :=
  held_aligned h.inv List.mem_cons_self

theorem Commanded.clear (h : Commanded b L held f page s) :
    Commanded b L held f page (s.setMem (fill s.mem (page + 32) 13 0)) :=
  ⟨inv_setMem_page h.inv List.mem_cons_self fun _ hx =>
    fill_outside (o := 32) h.aligned (by decide) hx, h.mem, h.head⟩

/-- One of the transfers of the call. -/
theorem Commanded.bulk (hb : b.Ok) (h : Commanded b L held f page s)
    (hbuf : OffList L (b.deref data) size.toNat)
    (hrun : ehciSubmitBulkSimple b C fuel devaddr epAddr data size dirIn 1000 s = some (0, s')) :
    Commanded b L held f page s' := by
  have hheld : HeadHeld b s (page :: held) := ⟨f, List.mem_cons_of_mem page h.mem, h.head⟩
  have hsame := ehciSubmitBulkSimple_same hb h.inv (Or.inr hheld) hbuf hrun
  exact ⟨hsame.1, h.mem, hsame.2.trans h.head⟩

/-- A byte of the page during a transfer that does not write it. -/
theorem Commanded.bulk_mem (hb : b.Ok) (h : Commanded b L held f page s)
    (hrun : ehciSubmitBulkSimple b C fuel devaddr epAddr data size dirIn 1000 s = some (0, s'))
    (hx : pageOf x = page)
    (hbuf : ¬InRange (b.deref data) size.toNat x ∨
      C.SendsOut ∧ ∀ page m, IsOut (load32 (bulkSetup page (b.deref data) devaddr epAddr size dirIn m)
        (page + 24))) : s'.mem x = s.mem x :=
  bulk_keeps hb h.inv (List.mem_cons_of_mem page h.mem) h.head hrun (hx ▸ h.not_free) (hx ▸ h.ne) hbuf

theorem cbw_offList (h : Commanded b L held f page s) :
    OffList L (b.deref (page + b.hhdmOffset)) (31 : Word).toNat := by
  rw [Limine.deref_add]
  exact offList_page_start h.inv List.mem_cons_self (by decide)

end Commanded

theorem msdCommand_inv (hb : b.Ok) {L held : List Word} {s s₁ : Ehci σ} {lba : BitVec 32} {page : Word}
    (h : PmmInv b s.pmm L held) (hcommand : msdCommand b lba s = some (page, s₁)) :
    ∃ L', L = page :: L' ∧ PmmInv b s₁.pmm L' (page :: held) ∧ s₁.asyncListHead = s.asyncListHead ∧
      s₁.globalTag = s.globalTag + 1 ∧ s₁.mem = cbwSetup page (s.globalTag + 1) lba s.mem := by
  unfold msdCommand at hcommand
  obtain hpalloc | ⟨f, L', pmm, rfl, hpalloc, hne, hmem, hinv⟩ := palloc_cases hb h
  · rw [hpalloc] at hcommand
    exact absurd hcommand.symm (Option.some_ne_none _)
  · rw [hpalloc] at hcommand
    dsimp only at hcommand
    rw [if_neg hne] at hcommand
    obtain ⟨rfl, rfl⟩ := Prod.mk.inj (Option.some.inj hcommand)
    refine ⟨L', rfl, ?_, rfl, rfl, congrArg (cbwSetup f (s.globalTag + 1) lba) hmem⟩
    have haligned : PageAligned f := ((h.usable f).mpr List.mem_cons_self).aligned
    exact hinv.frame_page List.mem_cons_self fun _ hx => cbwSetup_outside haligned hx

theorem sendCbw_isOut {page buf : Word} {devaddr epAddr : BitVec 8} {m : Mem} :
    IsOut (load32 (bulkSetup page buf devaddr epAddr 31 false m) (page + 24)) := by
  have htoken : load32 (bulkSetup page buf devaddr epAddr 31 false m) (page + 24) = bulkToken 31 false :=
    (congrArg Qtd.token bulkSetup_overlay).trans bulkSetup_token
  rw [htoken]
  decide

/-- **When the status has arrived, the wrapper still has the tag of the call.** -/
theorem Phases.tag (hb : b.Ok) (hC : C.SendsOut) {held : List Word} (hc : c.Sound b held) {page : Word}
    {s₁ s₂ s₃ s₄ : Ehci σ} (h : c.Phases b C page s₁ s₂ s₃ s₄) :
    cbwTag s₄.mem page = cbwTag s₁.mem page := by
  obtain ⟨L, hinv, hhead⟩ := hc.inv
  obtain ⟨L', rfl, hinv₁, hhead₁, -, -⟩ := msdCommand_inv hb hinv h.command
  have hcsw : b.deref (page + b.hhdmOffset + 32) = page + BitVec.ofNat 64 32 :=
    b.deref_add_offset page 32
  obtain ⟨f, hf, hhead⟩ := hhead.resolve_left (hhead₁ ▸ bulk_head h.cbw)
  have hone : Commanded b L' held f page s₁ := ⟨hinv₁, hf, hhead₁.trans hhead⟩
  have hbuf : OffList L' (b.deref c.data) 512 := (hc.owns.offList hinv).tail
  have htwo : Commanded b L' held f page s₂ :=
    hone.bulk hb (cbw_offList hone) h.cbw
  have hthree : Commanded b L' held f page s₃ := htwo.bulk hb hbuf h.data
  refine load32_congr fun x hx => ?_
  have hx' : InRange (page + BitVec.ofNat 64 4) 4 x := hx
  have hpage : pageOf x = page := pageOf_of_inRange hone.aligned hx' (by decide)
  have howned : ¬InRange (b.deref c.data) 512 x := fun hin => by
    have husable : b.UsableFrame (pageOf x) := by
      rw [hpage]
      exact (hinv.usable page).mpr List.mem_cons_self
    exact hinv.not_mem_of_mem_out (hpage ▸ hc.owns x hin husable) List.mem_cons_self
  have hstatus : ¬InRange (page + BitVec.ofNat 64 32) 13 x :=
    not_inRange_of_offset hx' (by decide) (by decide) (by decide)
  calc s₄.mem x = fill s₃.mem (page + 32) 13 0 x :=
        hthree.clear.bulk_mem hb h.csw hpage (Or.inl (by rw [hcsw]; exact hstatus))
    _ = s₃.mem x := fill_apply_of_not_inRange hstatus
    _ = s₂.mem x := htwo.bulk_mem hb h.data hpage (Or.inl howned)
    _ = s₁.mem x := hone.bulk_mem hb h.cbw hpage (Or.inr ⟨hC, fun _ _ => sendCbw_isOut⟩)

/-- The command of a call: the block is for its sector, and the tag is the next one. -/
theorem Sound.command (hb : b.Ok) {held : List Word} (hc : c.Sound b held) {page : Word} {s₁ : Ehci σ}
    (hcommand : msdCommand b c.lba c.before = some (page, s₁)) :
    cbwLba s₁.mem page = c.lba.toNat ∧ cbwTag s₁.mem page = c.before.globalTag + 1 := by
  obtain ⟨L, hinv, -⟩ := hc.inv
  obtain ⟨_, -, -, -, -, hmem⟩ := msdCommand_inv hb hinv hcommand
  rw [hmem]
  exact ⟨cbwSetup_lba, cbwSetup_tag⟩

/-- **A call is right if and only if no residue comes with a status that stands for success.** -/
theorem Sound.right_iff (hb : b.Ok) (hC : C.SendsOut) {held : List Word} (hc : c.Sound b held)
    (hrun : c.Runs b C) : c.Right b C ↔ c.Delivered b C := by
  constructor
  · intro h page s₁ s₂ s₃ s₄ hphases hsignature htag hstatus
    have hzero : c.result = 0 := hrun.zero_iff.mpr
      ⟨page, s₁, s₂, s₃, s₄, hphases, hsignature, htag.trans (hphases.tag hb hC hc).symm, hstatus⟩
    obtain ⟨page', s₁', s₂', s₃', s₄', hphases', hcsw⟩ := h.returns hzero
    obtain ⟨rfl, rfl, rfl⟩ := hphases.unique hphases'
    rw [hcsw]
  · intro h
    refine ⟨fun page s₁ hcommand => (hc.command hb hcommand).1, fun hzero => ?_⟩
    obtain ⟨page, s₁, s₂, s₃, s₄, hphases, hsignature, htag, hstatus⟩ := hrun.zero_iff.mp hzero
    have htag' := htag.trans (hphases.tag hb hC hc)
    refine ⟨page, s₁, s₂, s₃, s₄, hphases, ?_⟩
    have hresidue := h page s₁ s₂ s₃ s₄ hphases hsignature htag' hstatus
    rw [← hsignature, ← htag', ← hstatus, ← hresidue]

end MsdRead

/-! ### Runs -/

/-- A step of a client or of the driver, but for a call of `msd_read_sector`. -/
inductive OtherStep (b : Limine) (C : Ehc σ) : EhciRun σ → EhciRun σ → Prop
  | client {x : EhciRun σ} {r : PmmRun} : PmmStep b ⟨x.ehci.pmm, x.held⟩ r →
      (∀ f ∈ x.held, x.ehci.asyncListHead = f + b.hhdmOffset → f ∈ r.held) →
      OtherStep b C x ⟨{ x.ehci with pmm := r.pmm }, r.held⟩
  | init {x : EhciRun σ} : OtherStep b C x ⟨(ehciInitAsyncList b C x.ehci).2,
      if (palloc b x.ehci.pmm).1 = 0 then x.held else (palloc b x.ehci.pmm).1 :: x.held⟩
  | call {x : EhciRun σ} {c : EhciCall} {fuel : Nat} {r : Int} {s : Ehci σ} :
      (∀ dev lba data, c ≠ .msdReadSector dev lba data) → CallerOwns b x.held (c.buffer b) →
      c.run b C fuel x.ehci = some (r, s) → OtherStep b C x ⟨s, x.held⟩

/-- A run of the driver, with the calls of `msd_read_sector` in it. -/
inductive MsdRun (b : Limine) (C : Ehc σ) (x₀ : EhciRun σ) : List (MsdRead σ) → EhciRun σ → Prop
  | start : MsdRun b C x₀ [] x₀
  | other {calls : List (MsdRead σ)} {x y : EhciRun σ} : MsdRun b C x₀ calls x → OtherStep b C x y →
      MsdRun b C x₀ calls y
  | read {calls : List (MsdRead σ)} {x : EhciRun σ} {c : MsdRead σ} : MsdRun b C x₀ calls x →
      c.before = x.ehci → CallerOwns b x.held (b.deref c.data, 512) → c.Runs b C →
      MsdRun b C x₀ (calls ++ [c]) ⟨c.after, x.held⟩

section Run

variable {x x₀ y : EhciRun σ} {calls : List (MsdRead σ)} {c : MsdRead σ} {L : List Word}

theorem OtherStep.toStep (h : OtherStep b C x y) : EhciStep b C x y := by
  cases h with
  | client hclient hkeep => exact .client hclient hkeep
  | init => exact .init
  | call _ hbuf hrun => exact .call hbuf hrun

theorem OtherStep.globalTag (h : OtherStep b C x y) : y.ehci.globalTag = x.ehci.globalTag := by
  cases h with
  | client _ _ => rfl
  | init =>
    unfold ehciInitAsyncList
    dsimp only
    split <;> rfl
  | @call c _ _ _ hread _ hrun =>
    cases c with
    | submitBulkSimple => exact ehciSubmitBulkSimple_globalTag hrun
    | controlTransfer => exact usbControlTransfer_globalTag hrun
    | findMassStorageDevice =>
      obtain ⟨⟨_, _, _⟩, hfind, heq⟩ := Option.map_eq_some_iff.mp hrun
      obtain ⟨rfl, rfl⟩ := Prod.mk.inj heq
      exact findMassStorageDevice_globalTag hfind
    | msdReadSector dev lba data => exact absurd rfl (hread dev lba data)

/-- A call as a step of the driver. -/
theorem MsdRead.Runs.toStep (hrun : c.Runs b C) (hbefore : c.before = x.ehci)
    (hbuf : CallerOwns b x.held (b.deref c.data, 512)) : EhciStep b C x ⟨c.after, x.held⟩ := by
  have hcall : EhciCall.run b C c.fuel x.ehci (.msdReadSector c.dev c.lba c.data) =
      some (c.result, c.after) := by
    unfold MsdRead.Runs at hrun
    rw [EhciCall.run, ← hbefore, hrun]
  exact .call (c := .msdReadSector c.dev c.lba c.data) hbuf hcall

theorem msdCommand_globalTag {lba : BitVec 32} {s s₁ : Ehci σ} {page : Word}
    (hcommand : msdCommand b lba s = some (page, s₁)) : s₁.globalTag = s.globalTag + 1 := by
  unfold msdCommand at hcommand
  dsimp only at hcommand
  split at hcommand
  · exact absurd hcommand.symm (Option.some_ne_none _)
  · obtain ⟨rfl, rfl⟩ := Prod.mk.inj (Option.some.inj hcommand)
    rfl

/-- A call that sends a command leaves its number in the counter. -/
theorem MsdRead.Runs.globalTag (hrun : c.Runs b C) {page : Word} {s₁ : Ehci σ}
    (hcommand : msdCommand b c.lba c.before = some (page, s₁)) :
    c.after.globalTag = c.before.globalTag + 1 := by
  rw [← msdCommand_globalTag hcommand]
  have hcall := (msdReadSector_of_command hcommand).symm.trans hrun
  obtain ⟨⟨r₁, s₂⟩, hcbw, hcall⟩ := Option.bind_eq_some_iff.mp hcall
  have htag₂ := ehciSubmitBulkSimple_globalTag hcbw
  dsimp only at hcall
  split at hcall
  · obtain ⟨-, hafter⟩ := Prod.mk.inj (Option.some.inj hcall)
    exact hafter ▸ htag₂
  obtain ⟨⟨r₂, s₃⟩, hdata, hcall⟩ := Option.bind_eq_some_iff.mp hcall
  have htag₃ := (ehciSubmitBulkSimple_globalTag hdata).trans htag₂
  dsimp only at hcall
  split at hcall
  · obtain ⟨-, hafter⟩ := Prod.mk.inj (Option.some.inj hcall)
    exact hafter ▸ htag₃
  obtain ⟨⟨r₃, s₄⟩, hcsw, hcall⟩ := Option.bind_eq_some_iff.mp hcall
  have htag₄ := (ehciSubmitBulkSimple_globalTag hcsw).trans htag₃
  dsimp only at hcall
  (repeat' split at hcall) <;>
    (obtain ⟨-, hafter⟩ := Prod.mk.inj (Option.some.inj hcall); exact hafter ▸ htag₄)

theorem MsdRun.inv (hb : b.Ok) (hrun : MsdRun b C x₀ calls x) (h : EhciInv b x₀ L) :
    (∃ L', EhciInv b x L') ∧ ∀ c ∈ calls, c.Runs b C ∧ ∃ held, c.Sound b held := by
  induction hrun with
  | start => exact ⟨⟨L, h⟩, fun _ hc => absurd hc List.not_mem_nil⟩
  | other _ hstep ih =>
    obtain ⟨⟨L', h'⟩, hcalls⟩ := ih
    exact ⟨hstep.toStep.inv hb h', hcalls⟩
  | @read calls x c _ hbefore hbuf hruns ih =>
    obtain ⟨⟨L', h'⟩, hcalls⟩ := ih
    refine ⟨(hruns.toStep hbefore hbuf).inv hb h', fun c' hc' => ?_⟩
    obtain hc' | hc' := List.mem_append.mp hc'
    · exact hcalls c' hc'
    · obtain rfl := List.mem_singleton.mp hc'
      exact ⟨hruns, x.held, ⟨L', hbefore ▸ h'⟩, hbuf⟩

/-- The tags of a run are the numbers of the counter, one after the other. -/
theorem MsdRun.tags (hb : b.Ok) (hrun : MsdRun b C x₀ calls x) (h : EhciInv b x₀ L) :
    ∃ n ≤ calls.length, x.ehci.globalTag = x₀.ehci.globalTag + BitVec.ofNat 32 n ∧
      calls.filterMap (MsdRead.sentTag b) =
        (List.range n).map fun k => x₀.ehci.globalTag + BitVec.ofNat 32 (k + 1) := by
  induction hrun with
  | start => exact ⟨0, le_rfl, (BitVec.add_zero _).symm, rfl⟩
  | other _ hstep ih =>
    obtain ⟨n, hn, htag, htags⟩ := ih
    exact ⟨n, hn, hstep.globalTag.trans htag, htags⟩
  | @read calls x c hrun' hbefore hbuf hruns ih =>
    obtain ⟨n, hn, htag, htags⟩ := ih
    obtain ⟨⟨L', h'⟩, -⟩ := hrun'.inv hb h
    have hsound : c.Sound b x.held := ⟨⟨L', hbefore ▸ h'⟩, hbuf⟩
    cases hcommand : msdCommand b c.lba c.before with
    | none =>
      have hnone : c.sentTag b = none := by rw [MsdRead.sentTag, hcommand]; rfl
      refine ⟨n, by rw [List.length_append]; omega, ?_, ?_⟩
      · exact (hruns.of_no_command hcommand).2.trans (hbefore ▸ htag)
      · rw [List.filterMap_append, htags, List.filterMap_cons_none hnone, List.filterMap_nil,
          List.append_nil]
    | some p =>
      obtain ⟨page, s₁⟩ := p
      have hnext : c.before.globalTag + 1 = x₀.ehci.globalTag + BitVec.ofNat 32 (n + 1) := by
        rw [hbefore, htag, BitVec.add_assoc, BitVec.ofNat_add]
        rfl
      have hsome : c.sentTag b = some (x₀.ehci.globalTag + BitVec.ofNat 32 (n + 1)) := by
        rw [← hnext, ← (hsound.command hb hcommand).2, MsdRead.sentTag, hcommand]
        rfl
      refine ⟨n + 1, by rw [List.length_append]; exact Nat.add_le_add_right hn 1, ?_, ?_⟩
      · exact (hruns.globalTag hcommand).trans hnext
      · rw [List.filterMap_append, htags, List.filterMap_cons_some hsome, List.filterMap_nil,
          List.range_succ, List.map_append, List.map_singleton]

theorem MsdRun.tags_nodup (hb : b.Ok) (hrun : MsdRun b C x₀ calls x) (h : EhciInv b x₀ L)
    (hlen : calls.length < 2 ^ 32) : (calls.filterMap (MsdRead.sentTag b)).Nodup := by
  obtain ⟨n, hn, -, htags⟩ := hrun.tags hb h
  rw [htags]
  refine List.Nodup.map_on ?_ List.nodup_range
  intro i hi j hj heq
  have hlt := List.mem_range.mp hi
  have hlt' := List.mem_range.mp hj
  have hoff := congrArg BitVec.toNat ((BitVec.add_right_inj _).mp heq)
  rw [BitVec.toNat_ofNat, BitVec.toNat_ofNat, Nat.mod_eq_of_lt (by omega),
    Nat.mod_eq_of_lt (by omega)] at hoff
  exact Nat.succ.inj hoff

/-- **Every call of a run is right, with a tag of its own, if and only if no device leaves a residue
behind a status that stands for success.** -/
theorem msd_reads_right_iff (hb : b.Ok) (hC : C.SendsOut) (mem : Mem) {pmm : Pmm}
    (hinit : pmmInit b mem = some pmm) (dev : σ) (hrun : MsdRun b C ⟨ehciStart pmm dev, []⟩ calls x)
    (hlen : calls.length < 2 ^ 32) :
    ((∀ c ∈ calls, c.Right b C) ∧ (calls.filterMap (MsdRead.sentTag b)).Nodup) ↔
      ∀ c ∈ calls, c.Delivered b C := by
  obtain ⟨L, h⟩ := ehciStart_inv hb mem hinit dev
  obtain ⟨-, hsound⟩ := hrun.inv hb h
  constructor
  · intro hright c hc
    obtain ⟨hruns, held, hc'⟩ := hsound c hc
    exact (hc'.right_iff hb hC hruns).mp (hright.1 c hc)
  · intro hdelivered
    refine ⟨fun c hc => ?_, hrun.tags_nodup hb h hlen⟩
    obtain ⟨hruns, held, hc'⟩ := hsound c hc
    exact (hc'.right_iff hb hC hruns).mpr (hdelivered c hc)

end Run

/-! ### A device that leaves a residue -/

/-- A map with three frames. -/
def exampleMsdMap : Limine where
  entries := [⟨0x2000, 0x3000, 0⟩]
  hhdmOffset := 0xFFFF800000000000

theorem exampleMsdMap_usable {f : Word} (h : exampleMsdMap.UsableFrame f) :
    f = 0x2000 ∨ f = 0x3000 ∨ f = 0x4000 := by
  obtain ⟨e, he, ht, ha, h₁, h₂⟩ := h
  simp only [exampleMsdMap, List.mem_cons, List.not_mem_nil, or_false] at he
  subst he
  rw [PageAligned] at ha
  rw [show (0x2000 : Word).toNat = 0x2000 from rfl] at h₁ h₂
  rw [show (0x3000 : Word).toNat = 0x3000 from rfl] at h₂
  bv_omega

theorem exampleMsdMap_frames : ∀ f ∈ [0x2000, 0x3000, 0x4000], exampleMsdMap.UsableFrame f := by
  intro f hf
  refine ⟨⟨0x2000, 0x3000, 0⟩, List.mem_cons_self, rfl, ?_⟩
  fin_cases hf <;> decide

theorem exampleMsdMap_ok : exampleMsdMap.Ok where
  disjoint := by simp [exampleMsdMap]
  bounded := by simp [exampleMsdMap]
  pageZero := fun h => by
    have := exampleMsdMap_usable h
    simp at this
  hhdm := fun f h => by
    obtain rfl | rfl | rfl := exampleMsdMap_usable h <;> decide

/-- What the device answers to an IN transfer: a status wrapper for the first command, without an
error and with a residue of all 512 bytes. -/
def residueData (page : Word) (m : Mem) : Mem :=
  if IsOut (load32 m (page + 24)) then m
  else pokes ((load32 m (page + 28)).setWidth 64) [(0, cswSignature), (4, 0x1001), (8, 512)] m

/-- Every transfer ends at once, without an error. -/
def exampleResidue : Ehc Unit where
  read _ dev := (0, dev)
  write _ _ dev := dev
  getTimeMs dev := (0, dev)
  udelay _ dev := dev
  dma page m dev :=
    (store32 (residueData page m) (page + 24) (load32 m (page + 24) &&& ~~~(1#32 <<< 7)), dev)

theorem isOut_clear (token : BitVec 32) : IsOut (token &&& ~~~(1#32 <<< 7)) ↔ IsOut token := by
  unfold IsOut
  rw [BitVec.and_assoc, show ~~~(1#32 <<< 7) &&& 3#32 <<< 8 = 3#32 <<< 8 by decide]

theorem exampleResidue_sendsOut : exampleResidue.SendsOut where
  pid page m dev h := by
    show IsOut (load32 (store32 _ _ _) _)
    rw [load32_store32_same]
    exact (isOut_clear _).mpr h
  reads page m dev x hpage h hx :=
    (store32_outside (o := 24) hpage (by decide) hx).trans (congrFun (if_pos h) x)

section Residue

variable {page buf data size x : Word} {len fuel : Nat} {devaddr epAddr : BitVec 8} {dirIn : Bool}
  {s s₁ s' : Ehci Unit} {L out held : List Word} {f : Word} {m : Mem}

theorem residue_token (hpage : PageAligned page) :
    load32 (s.transfer exampleResidue page buf len).mem (page + 24) =
      load32 s.mem (page + 24) &&& ~~~(1#32 <<< 7) :=
  (load32_transfer (o := 24) hpage (by decide) s).trans (load32_store32_same _ _ _)

/-- Every transfer succeeds. -/
theorem residue_returns (hb : b.Ok) {w : Word} (h : MsdRead.Commanded b (page :: L) held f w s)
    (devaddr epAddr : BitVec 8) (data size : Word) (dirIn : Bool) :
    ∃ s', ehciSubmitBulkSimple b exampleResidue 1 devaddr epAddr data size dirIn 1000 s = some (0, s') := by
  obtain ⟨pmm, hpalloc, -, -⟩ := h.inv.palloc
  have hpage : PageAligned page := ((h.inv.usable page).mpr List.mem_cons_self).aligned
  have hne : page ≠ 0 := h.inv.ne_zero hb List.mem_cons_self
  have hfusable : b.UsableFrame f :=
    (h.inv.usable f).mpr (List.mem_append_right _ (List.mem_cons_of_mem w h.mem))
  have hhead : s.asyncListHead ≠ 0 := h.head ▸ hb.hhdm f hfusable
  obtain ⟨s₁, hstart⟩ : ∃ s₁, bulkStart b exampleResidue devaddr epAddr data size dirIn s =
      some (page, _, s₁) := bulkStart_of_ready hhead hpalloc hne
  have htrace : bulkTrace b exampleResidue devaddr epAddr data size dirIn s = some _ :=
    congrArg (Option.map fun x : Word × BitVec 32 × Ehci Unit =>
      pollTrace exampleResidue x.1 (b.deref data) size.toNat x.2.1 x.2.2) hstart
  have hidle : ¬Active (load32 (s₁.transfer exampleResidue page (b.deref data) size.toNat).mem
      (page + 24)) := by
    rw [residue_token hpage, Active, BitVec.and_assoc,
      show ~~~(1#32 <<< 7) &&& 1#32 <<< 7 = 0#32 by decide]
    exact not_not.mpr BitVec.and_zero
  have hends : BulkTrace.Ends (pollTrace exampleResidue page (b.deref data) size.toNat
      (exampleResidue.getTimeMs s.dev).1 s₁) 1000 0 :=
    BulkTrace.ends_zero.mpr fun hon => hidle hon.1
  obtain ⟨s', hrun⟩ := submit_of_ends htrace hends Nat.one_pos
  exact ⟨s', hrun.trans (congrArg (fun r => some (r, s')) (bulkResult_idle hidle))⟩

/-- What holds while the status is waited for: it is an IN transfer into the buffer, and the byte for
the status is clear. -/
structure AwaitsStatus (page a : Word) (m : Mem) : Prop where
  dirIn : ¬IsOut (load32 m (page + 24))
  buffer : (load32 m (page + 28)).setWidth 64 = a
  status : m (a + 12) = 0

theorem residue_byte (h : AwaitsStatus page buf s.mem) (hpage : PageAligned page) (hx : pageOf x ≠ page)
    (hbuf : InRange buf len x) : (s.transfer exampleResidue page buf len).mem x =
      pokes buf [(0, cswSignature), (4, 0x1001), (8, 512)] s.mem x := by
  have hdata : residueData page s.mem = pokes buf [(0, cswSignature), (4, 0x1001), (8, 512)] s.mem := by
    rw [residueData, if_neg h.dirIn, h.buffer]
  refine (if_pos (Or.inr hbuf)).trans ?_
  exact (store32_outside (o := 24) hpage (by decide) hx).trans (congrFun hdata x)

/-- The words of the answer are in the first 12 bytes. -/
theorem residue_pokes (hx : ¬InRange buf 12 x) :
    pokes buf [(0, cswSignature), (4, 0x1001), (8, 512)] m x = m x :=
  pokes_of_not_inRange (by simp) (by decide) hx

theorem not_inRange_status (a : Word) : ¬InRange a 12 (a + BitVec.ofNat 64 12) := by
  rw [InRange, BitVec.add_comm, BitVec.add_sub_cancel]
  decide

/-- The wait for the status starts. -/
theorem AwaitsStatus.of_started {a : Word}
    (h : BulkStarted b devaddr epAddr data 13 true f page s s₁) (hdata : b.deref data = a)
    (hlow : (a.setWidth 32).setWidth 64 = a) (hapage : pageOf (a + 12) ≠ page)
    (haf : pageOf (a + 12) ≠ f) (hclear : s.mem (a + 12) = 0) : AwaitsStatus page a s₁.mem := by
  have hwords := h.words
  rw [hdata] at hwords
  refine ⟨?_, ?_, (h.outside _ hapage haf).trans hclear⟩
  · have htoken : load32 s₁.mem (page + 24) = bulkToken 13 true :=
      (hwords 24 (by decide) (by decide)).trans
        ((congrArg Qtd.token bulkSetup_overlay).trans bulkSetup_token)
    rw [htoken]
    decide
  · have hbuffer : load32 s₁.mem (page + 28) = a.setWidth 32 :=
      (hwords 28 (by decide) (by decide)).trans
        ((congrArg (fun q : Qtd => q.buffer 0) bulkSetup_overlay).trans (bulkSetup_buffer 0))
    rw [hbuffer]
    exact hlow

theorem AwaitsStatus.transfer (hpage : PageAligned page)
    (hapart : ∀ x, InRange buf 13 x → pageOf x ≠ page) (h : AwaitsStatus page buf s.mem) :
    AwaitsStatus page buf (s.transfer exampleResidue page buf 13).mem := by
  have hin : InRange buf 13 (buf + BitVec.ofNat 64 12) := inRange_add (by decide) (by decide)
  refine ⟨?_, ?_, ?_⟩
  · rw [residue_token hpage, isOut_clear]
    exact h.dirIn
  · have hdata : load32 (residueData page s.mem) (page + BitVec.ofNat 64 28) =
        load32 s.mem (page + BitVec.ofNat 64 28) := by
      rw [residueData, if_neg h.dirIn, h.buffer]
      refine load32_congr fun x hx => residue_pokes fun hin => ?_
      have hmore : InRange buf 13 x := lt_trans hin (by decide)
      exact hapart x hmore (pageOf_of_inRange hpage hx (by decide))
    have hword : load32 (s.transfer exampleResidue page buf 13).mem (page + 28) =
        load32 s.mem (page + BitVec.ofNat 64 28) :=
      (load32_transfer (o := 28) hpage (by decide) s).trans
        ((load32_store32_offset (o := 24) _ (by decide) (by decide) (by decide)).trans hdata)
    rw [hword]
    exact h.buffer
  · exact (residue_byte h hpage (hapart _ hin) hin).trans
      ((residue_pokes (not_inRange_status buf)).trans h.status)

theorem AwaitsStatus.waits (hpage : PageAligned page)
    (hapart : ∀ x, InRange buf 13 x → pageOf x ≠ page) (h : AwaitsStatus page buf s.mem)
    (hwait : Waits exampleResidue page buf 13 s s₁) : AwaitsStatus page buf s₁.mem := by
  induction hwait with
  | refl => exact h
  | transfer _ ih => exact ih.transfer hpage hapart
  | device _ _ ih => exact ih

/-- The answer, once the controller has worked on the transfer. -/
theorem AwaitsStatus.answer (hpage : PageAligned page)
    (hapart : ∀ x, InRange buf 13 x → pageOf x ≠ page) (h : AwaitsStatus page buf s.mem)
    (hm : ∀ x, InRange buf 13 x → m x = (s.transfer exampleResidue page buf 13).mem x) :
    load32 m (buf + BitVec.ofNat 64 0) = cswSignature ∧ load32 m (buf + BitVec.ofNat 64 4) = 0x1001 ∧
      load32 m (buf + BitVec.ofNat 64 8) = 512 ∧ m (buf + BitVec.ofNat 64 12) = 0 := by
  have hword : ∀ o, o % 4 = 0 → o + 4 ≤ 13 → load32 m (buf + BitVec.ofNat 64 o) =
      [(0, cswSignature), (4, 0x1001#32), (8, 512#32)].foldl (fun v w => if w.1 = o then w.2 else v)
        (load32 s.mem (buf + BitVec.ofNat 64 o)) := by
    intro o ho ho'
    rw [← load32_pokes_eq_foldl (by simp) ho (by omega)]
    refine load32_congr fun x hx => ?_
    have hin : InRange buf 13 x := hx.of_offset ho' (by decide)
    rw [hm _ hin]
    exact residue_byte h hpage (hapart _ hin) hin
  have hin : InRange buf 13 (buf + BitVec.ofNat 64 12) := inRange_add (by decide) (by decide)
  refine ⟨hword 0 (by decide) (by decide), hword 4 (by decide) (by decide),
    hword 8 (by decide) (by decide), ?_⟩
  rw [hm _ hin]
  exact (h.transfer hpage hapart).status

/-- The status wrapper that the call receives. -/
theorem residue_csw (hb : b.Ok) {w : Word} {dev : UsbDevice}
    (h : MsdRead.Commanded b (page :: L) held f w s)
    (hlow : ((w + BitVec.ofNat 64 32).setWidth 32).setWidth 64 = w + BitVec.ofNat 64 32)
    (hclear : s.mem (w + BitVec.ofNat 64 44) = 0)
    (hrun : msdReceiveCsw b exampleResidue 1 dev (w + b.hhdmOffset + 32) s = some (0, s')) :
    cswAt s'.mem w = ⟨cswSignature, 0x1001, 512, 0⟩ := by
  have hderef : b.deref (w + b.hhdmOffset + 32) = w + BitVec.ofNat 64 32 := b.deref_add_offset w 32
  have hf : f ∈ w :: held := List.mem_cons_of_mem w h.mem
  obtain ⟨page', start, s₁, s₂, hstart, hwait, rfl⟩ := bulk_ends hrun
  obtain ⟨⟨L', hL⟩, hstarted⟩ := bulkStart_started hb h.inv hf h.head hstart
  obtain ⟨rfl, rfl⟩ := List.cons.inj hL
  have hpage : PageAligned page := ((h.inv.usable page).mpr List.mem_cons_self).aligned
  have hfpage : PageAligned f := held_aligned h.inv hf
  have hw : ∀ x, InRange (w + BitVec.ofNat 64 32) 13 x → pageOf x = w := fun x hx =>
    pageOf_of_inRange h.aligned hx (by decide)
  have hne : w ≠ page := fun hwp => h.not_free (hwp ▸ List.mem_cons_self)
  have hapart : ∀ x, InRange (w + BitVec.ofNat 64 32) 13 x → pageOf x ≠ page := fun x hx =>
    (hw x hx).trans_ne hne
  rw [hderef] at hwait ⊢
  have hin : InRange (w + BitVec.ofNat 64 32) 13 (w + BitVec.ofNat 64 32 + BitVec.ofNat 64 12) :=
    inRange_add (by decide) (by decide)
  have haddr : ∀ o, w + BitVec.ofNat 64 32 + BitVec.ofNat 64 o = w + BitVec.ofNat 64 (32 + o) := by
    intro o
    rw [BitVec.add_assoc, ← BitVec.ofNat_add]
  have hawaits : AwaitsStatus page (w + BitVec.ofNat 64 32) s₁.mem :=
    .of_started hstarted hderef hlow (hapart _ hin) ((hw _ hin).trans_ne h.ne)
      ((congrArg s.mem (haddr 12)).trans hclear)
  have hm : ∀ x, InRange (w + BitVec.ofNat 64 32) 13 x →
      (bulkUnlink b exampleResidue page (w + BitVec.ofNat 64 32) 13 s₂).mem x =
        (s₂.transfer exampleResidue page (w + BitVec.ofNat 64 32) 13).mem x := fun x hx =>
    bulkUnlink_mem hpage hfpage (hwait.asyncListHead.trans (hstarted.asyncListHead.trans h.head))
      (hapart x hx) ((hw x hx).trans_ne h.ne)
  obtain ⟨hsignature, htag, hresidue, hstatus⟩ := (hawaits.waits hpage hapart hwait).answer hpage hapart hm
  rw [haddr] at hsignature htag hresidue hstatus
  exact congr (congr (congr (congrArg Csw.mk hsignature) htag) hresidue) hstatus

end Residue

/-- The schedule of the driver is in one of the three frames, and the other two are free. -/
theorem exampleMsd_ready : ∃ pmm x f w p L, pmmInit exampleMsdMap (fun _ => 0) = some pmm ∧
    MsdRun exampleMsdMap exampleResidue ⟨ehciStart pmm (), []⟩ [] x ∧ x.ehci.globalTag = 0x1000 ∧
    x.held = [f] ∧ x.ehci.asyncListHead = f + exampleMsdMap.hhdmOffset ∧
    PmmInv exampleMsdMap x.ehci.pmm (w :: p :: L) x.held := by
  obtain ⟨pmm, L, hinit, hinv, _⟩ := pmmInit_inv exampleMsdMap_ok (fun _ => 0)
  obtain ⟨L₀, h₀⟩ := ehciStart_inv exampleMsdMap_ok (fun _ => 0) hinit ()
  obtain ⟨L₁, h₁, -⟩ := ehciInitAsyncList_inv (C := exampleResidue) exampleMsdMap_ok h₀
  have hfree : 3 ≤ L.length := hinv.frames_length_le (by decide) exampleMsdMap_frames
  have hpalloc : (palloc exampleMsdMap pmm).1 ≠ 0 :=
    hinv.palloc_ne_zero exampleMsdMap_ok (by omega)
  have hstep : OtherStep exampleMsdMap exampleResidue ⟨ehciStart pmm (), []⟩ _ := .init
  have hheld : (if (palloc exampleMsdMap (ehciStart pmm ()).pmm).1 = 0 then []
      else [(palloc exampleMsdMap (ehciStart pmm ()).pmm).1]) = [(palloc exampleMsdMap pmm).1] :=
    if_neg hpalloc
  have hlen : 3 ≤ L₁.length + [(palloc exampleMsdMap pmm).1].length :=
    hheld ▸ h₁.frames_length_le (by decide) exampleMsdMap_frames
  obtain ⟨w, p, L₂, rfl⟩ : ∃ w p L₂, L₁ = w :: p :: L₂ := by
    cases L₁ with
    | nil => exact absurd hlen (by simp)
    | cons w L₁ =>
      cases L₁ with
      | nil => exact absurd hlen (by simp)
      | cons p L₁ => exact ⟨w, p, L₁, rfl⟩
  exact ⟨pmm, _, _, w, p, L₂, hinit, .other .start hstep, hstep.globalTag, hheld,
    ehciInitAsyncList_head hpalloc, h₁⟩

/-- The disk, with its endpoints. -/
def exampleMsd : UsbDevice := ⟨1, 1, ⟨0x81, 512, 2⟩, ⟨0x02, 512, 2⟩, 0⟩

/-- The buffer is in no frame of the map. -/
theorem exampleMsd_owns (held : List Word) :
    CallerOwns exampleMsdMap held (exampleMsdMap.deref (0x7000 + exampleMsdMap.hhdmOffset), 512) := by
  intro x hx husable
  rw [Limine.deref_add] at hx
  have hpage : pageOf x = 0x7000 := pageOf_of_inRange_start (by decide) hx (by decide)
  rw [hpage] at husable
  obtain h | h | h := exampleMsdMap_usable husable <;> exact absurd h (by decide)

theorem exampleMsd_low {w : Word} (hw : exampleMsdMap.UsableFrame w) :
    ((w + BitVec.ofNat 64 32).setWidth 32).setWidth 64 = w + BitVec.ofNat 64 32 := by
  obtain rfl | rfl | rfl := exampleMsdMap_usable hw <;> decide

/-- The three phases one after the other: each returns `0`, and the last one leaves the answer. -/
theorem exampleMsd_phases {w p f : Word} {L held : List Word} {s₁ : Ehci Unit}
    (hone : MsdRead.Commanded exampleMsdMap (p :: L) held f w s₁)
    (hbuf : OffList (p :: L) (exampleMsdMap.deref (0x7000 + exampleMsdMap.hhdmOffset)) 512) :
    ∃ s₂ s₃ s₄, msdSendCbw exampleMsdMap exampleResidue 1 exampleMsd (w + exampleMsdMap.hhdmOffset) s₁ =
        some (0, s₂) ∧
      ehciSubmitBulkSimple exampleMsdMap exampleResidue 1 exampleMsd.address exampleMsd.bulkIn.addr
        (0x7000 + exampleMsdMap.hhdmOffset) 512 true 1000 s₂ = some (0, s₃) ∧
      msdReceiveCsw exampleMsdMap exampleResidue 1 exampleMsd (w + exampleMsdMap.hhdmOffset + 32)
        (s₃.setMem (fill s₃.mem (w + 32) 13 0)) = some (0, s₄) ∧
      cswAt s₄.mem w = ⟨cswSignature, 0x1001, 512, 0⟩ := by
  have hw : exampleMsdMap.UsableFrame w :=
    (hone.inv.usable w).mpr (List.mem_append_right _ List.mem_cons_self)
  obtain ⟨s₂, hcbw⟩ := residue_returns exampleMsdMap_ok hone exampleMsd.address
    exampleMsd.bulkOut.addr (w + exampleMsdMap.hhdmOffset) 31 false
  have htwo := hone.bulk exampleMsdMap_ok (MsdRead.cbw_offList hone) hcbw
  obtain ⟨s₃, hdata⟩ := residue_returns exampleMsdMap_ok htwo exampleMsd.address
    exampleMsd.bulkIn.addr (0x7000 + exampleMsdMap.hhdmOffset) 512 true
  have hthree := htwo.bulk exampleMsdMap_ok hbuf hdata
  obtain ⟨s₄, hcsw⟩ := residue_returns exampleMsdMap_ok hthree.clear exampleMsd.address
    exampleMsd.bulkIn.addr (w + exampleMsdMap.hhdmOffset + 32) 13 true
  have hzero : (s₃.setMem (fill s₃.mem (w + 32) 13 0)).mem (w + BitVec.ofNat 64 44) = 0 := by
    have hin : InRange (w + BitVec.ofNat 64 32) 13 (w + BitVec.ofNat 64 32 + BitVec.ofNat 64 12) :=
      inRange_add (by decide) (by decide)
    rw [BitVec.add_assoc] at hin
    exact fill_apply_of_inRange hin
  exact ⟨s₂, s₃, s₄, hcbw, hdata, hcsw,
    residue_csw exampleMsdMap_ok hthree.clear (exampleMsd_low hw) hzero hcsw⟩

/-- The first call returns `0`, and the device has delivered nothing. -/
theorem exampleMsd_read : ∃ pmm x c page s₁ s₂ s₃ s₄, pmmInit exampleMsdMap (fun _ => 0) = some pmm ∧
    MsdRun exampleMsdMap exampleResidue ⟨ehciStart pmm (), []⟩ [c] x ∧ c.result = 0 ∧
    c.Phases exampleMsdMap exampleResidue page s₁ s₂ s₃ s₄ ∧ (cswAt s₄.mem page).dataResidue = 512 := by
  obtain ⟨pmm, x, f, w, p, L, hinit, hrun, htag, hheld, hhead, hinv⟩ := exampleMsd_ready
  obtain ⟨pmm₁, hpalloc, -, -⟩ := hinv.palloc
  have hne : w ≠ 0 := hinv.ne_zero exampleMsdMap_ok List.mem_cons_self
  obtain ⟨s₁, hcommand⟩ : ∃ s₁, msdCommand exampleMsdMap 0 x.ehci = some (w, s₁) := by
    unfold msdCommand
    rw [hpalloc]
    exact ⟨_, if_neg hne⟩
  obtain ⟨_, hL, hinv₁, hhead₁, -, -⟩ := MsdRead.msdCommand_inv exampleMsdMap_ok hinv hcommand
  obtain ⟨-, rfl⟩ := List.cons.inj hL
  rw [hheld] at hinv₁
  have hone : MsdRead.Commanded exampleMsdMap (p :: L) [f] f w s₁ :=
    ⟨hinv₁, List.mem_singleton_self f, hhead₁.trans hhead⟩
  have hbuf := ((exampleMsd_owns x.held).offList hinv).tail
  obtain ⟨s₂, s₃, s₄, hcbw, hdata, hcsw, hanswer⟩ := exampleMsd_phases hone hbuf
  obtain ⟨c, hc⟩ : ∃ c : MsdRead Unit, c = ⟨x.ehci, 1, exampleMsd, 0,
    0x7000 + exampleMsdMap.hhdmOffset, 0, s₄.free exampleMsdMap w⟩ := ⟨_, rfl⟩
  have hphases : c.Phases exampleMsdMap exampleResidue w s₁ s₂ s₃ s₄ := by
    subst hc
    exact ⟨hcommand, hcbw, hdata, hcsw⟩
  have hsound : c.Sound exampleMsdMap x.held := by
    subst hc
    exact ⟨⟨_, hinv, Or.inr ⟨f, hheld ▸ List.mem_singleton_self f, hhead⟩⟩, exampleMsd_owns x.held⟩
  have hcbwTag : cbwTag s₄.mem w = 0x1001 := by
    rw [hphases.tag exampleMsdMap_ok exampleResidue_sendsOut hsound,
      (hsound.command exampleMsdMap_ok hphases.command).2, hc, htag]
    rfl
  have hruns : c.Runs exampleMsdMap exampleResidue := by
    refine (MsdRead.msdReadSector_of_command hphases.command).trans ?_
    simp only [hphases.cbw, hphases.data, hphases.csw, Option.bind_some, ne_eq, not_true, if_false,
      hanswer, hcbwTag]
    rw [hc]
  have hread : MsdRun exampleMsdMap exampleResidue ⟨ehciStart pmm (), []⟩ [c] ⟨c.after, x.held⟩ :=
    hrun.read (by rw [hc]) hsound.owns hruns
  exact ⟨pmm, _, c, w, s₁, s₂, s₃, s₄, hinit, hread, by rw [hc], hphases, by rw [hanswer]⟩

theorem msd_reads_right_iff_exampleMsd : ∃ pmm x calls, pmmInit exampleMsdMap (fun _ => 0) = some pmm ∧
    MsdRun exampleMsdMap exampleResidue ⟨ehciStart pmm (), []⟩ calls x ∧ calls.length = 1 ∧
    (((∀ c ∈ calls, c.Right exampleMsdMap exampleResidue) ∧
        (calls.filterMap (MsdRead.sentTag exampleMsdMap)).Nodup) ↔
      ∀ c ∈ calls, c.Delivered exampleMsdMap exampleResidue) := by
  obtain ⟨pmm, x, c, _, _, _, _, _, hinit, hrun, -⟩ := exampleMsd_read
  exact ⟨pmm, x, [c], hinit, hrun, rfl, msd_reads_right_iff exampleMsdMap_ok exampleResidue_sendsOut
    (fun _ => 0) hinit () hrun (by simp)⟩

/-- The call returns `0` for a sector of which no byte has been delivered. -/
theorem exampleMsd_not_right :
    ¬∀ (C : Ehc Unit), C.SendsOut → ∀ (pmm : Pmm) (calls : List (MsdRead Unit)) (x : EhciRun Unit),
      pmmInit exampleMsdMap (fun _ => 0) = some pmm →
      MsdRun exampleMsdMap C ⟨ehciStart pmm (), []⟩ calls x → calls.length < 2 ^ 32 →
      (∀ c ∈ calls, c.Right exampleMsdMap C) ∧
        (calls.filterMap (MsdRead.sentTag exampleMsdMap)).Nodup := by
  intro h
  obtain ⟨pmm, x, c, page, s₁, s₂, s₃, s₄, hinit, hrun, hzero, hphases, hresidue⟩ := exampleMsd_read
  have hright := (h exampleResidue exampleResidue_sendsOut pmm [c] x hinit hrun (by simp)).1 c
    (List.mem_singleton_self c)
  obtain ⟨page', s₁', s₂', s₃', s₄', hphases', hcsw⟩ := hright.returns hzero
  obtain ⟨rfl, rfl, rfl⟩ := hphases.unique hphases'
  have hnone : (cswAt s₄.mem page).dataResidue = 0 := by rw [hcsw]
  exact absurd (hnone.symm.trans hresidue) (by decide)

end AncoreOS.Drivers
