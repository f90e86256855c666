import AncoreOS.Mm.VmmRefine

/-!
# Tables the kernel did not build

`vmm_init` takes over the tables of the bootloader, and these may hold huge
pages and entries with high bits.  `map_page` and `unmap_page` read every present
entry as a table at `entry & ~0xFFF`, so below a huge page they take its data
frame for a table and write to it.

`inherited_frameSafe` says when they do no harm: on a walk without such entries,
and for `map_page` with frames enough, they write to page tables only and change
the hardware's translation of no other page.
-/

namespace AncoreOS.Mm

open ByteMemory Radix

variable {b : Limine} {s s' : Vmm} {L out : List Word}

/-- The call that took `s` to `s'` for the page of `virt` did no harm: it wrote to
page tables only, those of `s` or frames it allocated for one, and the hardware
translates every other page as before. -/
def FrameSafe (b : Limine) (s s' : Vmm) (virt : Word) : Prop :=
  (∃ ev, s'.log = ev ++ s.log ∧ ∀ e ∈ ev, ∀ x, e.Writes x →
    (∃ p, p.length ≤ 3 ∧ s.node b decHw p = some (pageOf x)) ∨
      (pageOf x ≠ 0 ∧ .palloc (pageOf x) ∈ ev)) ∧
  ∀ v, pageNumber v ≠ pageNumber virt →
    mmuWalk s'.pmm.mem (s'.root b) v = mmuWalk s.pmm.mem (s.root b) v

/-- Along the indices, from depth `d` on, no present entry is a huge page or has a
bit above the physical address. -/
def PlainPath (ent : Word → BitVec 9 → Word) : Nat → Word → List (BitVec 9) → Prop
  | _, _, [] => True
  | d, f, i :: is => ent f i &&& ptePresent ≠ 0 →
    (d ≠ 0 → ent f i &&& pteHuge = 0) ∧ ent f i &&& 0xFFF0000000000000 = 0 ∧
      PlainPath ent (d + 1) (ent f i &&& ~~~0xFFF) is

theorem and_addressMask_of_high {e : Word} (h : e &&& 0xFFF0000000000000 = 0) :
    e &&& addressMask = e &&& ~~~0xFFF := by
  have hmask : (~~~0xFFF : Word) = addressMask ||| 0xFFF0000000000000 := by decide
  have hsplit : e &&& (addressMask ||| 0xFFF0000000000000) =
      (e &&& addressMask) ||| (e &&& 0xFFF0000000000000) := BitVec.and_or_distrib_left
  rw [hmask, hsplit, h]
  exact BitVec.or_zero.symm

theorem PlainPath.clean {ent : Word → BitVec 9 → Word} :
    ∀ {is : List (BitVec 9)} {d : Nat} {f : Word}, PlainPath ent d f is → Clean decHw ent d f is := by
  intro is
  induction is with
  | nil => intro _ _ _; exact trivial
  | cons i is ih =>
    intro d f h hpres
    obtain ⟨hhuge, hhigh, hbelow⟩ := h hpres
    refine ⟨?_, ih hbelow⟩
    rw [decHw, if_neg hpres, if_neg (fun hd => hd.2 (hhuge hd.1)), and_addressMask_of_high hhigh]

section Inherited

variable (hb : b.Ok) (hphys : ∀ f, b.UsableFrame f → f.toNat < 2 ^ 52)
  (h : Sound b decHw s L out) (virt : Word)
  (hplain : PlainPath s.ent 0 (s.root b) (upperPath virt))

include hb hphys h hplain in
theorem mapPage_frameSafe (phys flags : Word)
    (hneed : needed s.ent (s.root b) (upperPath virt) ≤ L.length) :
    FrameSafe b s (s.mapPage b virt phys flags) virt := by
  have hdec := decoder_decHw hphys
  obtain ⟨s₁, pt, L', out', ev, hs₁, hgrows, hnode, hrun⟩ :=
    mapPage_spec hb hdec h virt phys flags hplain.clean hneed
  have htable : ∀ p f, p.length ≤ 3 → s₁.node b decHw p = some f →
      (∃ q, q.length ≤ 3 ∧ s.node b decHw q = some f) ∨ (f ≠ 0 ∧ .palloc f ∈ ev) := by
    intro p f hp hn
    rcases hgrows.fresh p f hp hn with hold | ⟨hL, _, hev, _⟩
    · exact Or.inl ⟨p, hp, hold⟩
    · exact Or.inr ⟨h.pmm.ne_zero hb hL, hev⟩
  constructor
  · refine ⟨.store (pt + 8 * (virt.extractLsb' 12 9).setWidth 64)
      (phys ||| flags ||| ptePresent) :: ev, ?_, fun e he x hx => ?_⟩
    · rw [hrun, List.cons_append, ← hgrows.log]
      rfl
    · have hpage : ∃ p, p.length ≤ 3 ∧ s₁.node b decHw p = some (pageOf x) := by
        rcases List.mem_cons.mp he with rfl | he
        · refine ⟨(upperPath virt).reverse, le_rfl, ?_⟩
          rw [pageOf_of_slot (hs₁.aligned _ _ le_rfl hnode) hx]
          exact hnode
        · exact (hgrows.safe e he).2 x hx
      obtain ⟨p, hp, hn⟩ := hpage
      exact (htable p _ hp hn).imp_right (And.imp_right (List.mem_cons_of_mem _))
  · intro v hv
    rw [mmuWalk_eq_find, mmuWalk_eq_find,
      mapPage_find hb hdec h virt phys flags hplain.clean hneed v, if_neg hv]

include hphys h hplain in
theorem unmapPage_frameSafe : FrameSafe b s (s.unmapPage b virt) virt := by
  have hdec := decoder_decHw hphys
  constructor
  · rcases unmapPage_spec hdec h virt hplain.clean with ⟨hrun, _⟩ | ⟨pt, hnode, hrun⟩
    · exact ⟨[], by rw [hrun]; rfl, fun e he => absurd he List.not_mem_nil⟩
    · refine ⟨[.store (pt + 8 * (virt.extractLsb' 12 9).setWidth 64) 0], by rw [hrun]; rfl,
        fun e he x hx => Or.inl ⟨(upperPath virt).reverse, le_rfl, ?_⟩⟩
      rw [List.mem_singleton.mp he] at hx
      rw [pageOf_of_slot (h.aligned _ _ le_rfl hnode) hx]
      exact hnode
  · intro v hv
    rw [mmuWalk_eq_find, mmuWalk_eq_find, unmapPage_find hdec h virt hplain.clean v, if_neg hv]

include hb hphys h hplain in
/-- **On a plain walk inherited tables are safe**, from `map_page` when the frames
suffice and from `unmap_page` always. -/
theorem inherited_frameSafe :
    (∀ phys flags, needed s.ent (s.root b) (upperPath virt) ≤ (pmmGetFreePages s.pmm).toNat →
      FrameSafe b s (s.mapPage b virt phys flags) virt) ∧
    FrameSafe b s (s.unmapPage b virt) virt := by
  refine ⟨fun phys flags hneed => ?_, unmapPage_frameSafe hphys h virt hplain⟩
  have hfree : (pmmGetFreePages s.pmm).toNat = L.length := h.pmm.list.free
  exact mapPage_frameSafe hb hphys h virt hplain phys flags (hfree ▸ hneed)

end Inherited

/-! ### A walk the kernel takes further than the hardware -/

theorem descend_of_tableBelow {u D : Word} (hoff : s.hhdmOffset = b.hhdmOffset) :
    ∀ (is : List (BitVec 9)) (f : Word), tableBelow s.ent f is = some D →
      descend b u s (f + b.hhdmOffset) is = (D + b.hhdmOffset, s) := by
  intro is
  induction is with
  | nil =>
    intro f hD
    rw [tableBelow, Option.some_inj] at hD
    rw [descend, hD]
  | cons i is ih =>
    intro f hD
    rw [tableBelow] at hD
    split at hD
    · exact absurd hD.symm (Option.some_ne_none D)
    · next hpres =>
      rw [descend, nextTable_present hoff hpres]
      exact ih _ hD

theorem pageAligned_of_tableBelow {D f : Word} {ent : Word → BitVec 9 → Word} :
    ∀ (is : List (BitVec 9)), PageAligned f → tableBelow ent f is = some D → PageAligned D := by
  intro is
  induction is generalizing f with
  | nil =>
    intro hf hD
    rw [tableBelow, Option.some_inj] at hD
    rwa [← hD]
  | cons i is ih =>
    intro hf hD
    rw [tableBelow] at hD
    split at hD
    · exact absurd hD.symm (Option.some_ne_none D)
    · exact ih (pageAligned_pageOf _) hD

/-- Both calls write to the frame the kernel takes for the page table of `virt`.  If
that is no table of the hardware's, neither is safe. -/
theorem not_frameSafe_of_tableBelow {virt D : Word} (hoff : s.hhdmOffset = b.hhdmOffset)
    (hroot : PageAligned (s.root b))
    (hD : tableBelow s.ent (s.root b) (upperPath virt) = some D)
    (hno : ∀ p, p.length ≤ 3 → s.node b decHw p ≠ some D) :
    (∀ phys flags, ¬ FrameSafe b s (s.mapPage b virt phys flags) virt) ∧
      ¬ FrameSafe b s (s.unmapPage b virt) virt := by
  have haligned := pageAligned_of_tableBelow (upperPath virt) hroot hD
  have hbad : ∀ v, ¬ FrameSafe b s (setSlot s D (virt.extractLsb' 12 9) v) virt := by
    rintro v ⟨⟨ev, hlog, hwrites⟩, _⟩
    have hev : ev = [.store (D + 8 * (virt.extractLsb' 12 9).setWidth 64) v] :=
      List.append_cancel_right (hlog.symm.trans (List.singleton_append).symm)
    have hin : VmmEvent.Writes (.store (D + 8 * (virt.extractLsb' 12 9).setWidth 64) v)
        (D + 8 * (virt.extractLsb' 12 9).setWidth 64) := inRange_self (by decide)
    have hpage := pageOf_of_slot haligned hin
    rcases hwrites _ (by rw [hev]; exact List.mem_cons_self) _ hin with ⟨p, hp, hn⟩ | ⟨_, hpalloc⟩
    · rw [hpage] at hn
      exact hno p hp hn
    · rw [hev] at hpalloc
      simp at hpalloc
  refine ⟨fun phys flags => ?_, ?_⟩
  · rw [mapPage_eq, s.kernelPml4_eq b, descend_of_tableBelow hoff (upperPath virt) _ hD,
      Vmm.setEntry_eq]
    exact hbad _
  · rw [unmapPage_eq hoff, hD]
    exact hbad 0

/-! ### Tables with a 2 MiB page -/

/-- The memory a bootloader leaves: a PML4, a PDPT and a PD, with one 2 MiB page at
the virtual address `0x200000`. -/
def exampleBoot : Mem :=
  store64 (store64 (store64 (fun _ => 0)
    (0x8000 + 8 * (0 : BitVec 9).setWidth 64) 0x9003)
    (0x9000 + 8 * (0 : BitVec 9).setWidth 64) 0xA003)
    (0xA000 + 8 * (1 : BitVec 9).setWidth 64) 0x200083

theorem slot_zero (f : Word) (i : BitVec 9) : slot (fun _ => 0) f i = 0 :=
  load64_eq_zero (fun _ _ => rfl)

theorem exampleBoot_slot (i : BitVec 9) :
    slot exampleBoot 0x8000 i = (if i = 0 then 0x9003 else 0) ∧
    slot exampleBoot 0x9000 i = (if i = 0 then 0xA003 else 0) ∧
    slot exampleBoot 0xA000 i = (if i = 1 then 0x200083 else 0) := by
  have h8 : PageAligned 0x8000 := by decide
  have h9 : PageAligned 0x9000 := by decide
  have hA : PageAligned 0xA000 := by decide
  refine ⟨?_, ?_, ?_⟩
  · rw [exampleBoot, slot_store_of_ne hA h8 (fun h => absurd h (by decide)),
      slot_store_of_ne h9 h8 (fun h => absurd h (by decide))]
    split
    · next hi => rw [hi, slot_store_same]
    · next hi => rw [slot_store_of_ne_index hi, slot_zero]
  · rw [exampleBoot, slot_store_of_ne hA h9 (fun h => absurd h (by decide))]
    split
    · next hi => rw [hi, slot_store_same]
    · next hi =>
      rw [slot_store_of_ne_index hi, slot_store_of_ne h8 h9 (fun h => absurd h (by decide)),
        slot_zero]
  · rw [exampleBoot]
    split
    · next hi => rw [hi, slot_store_same]
    · next hi =>
      rw [slot_store_of_ne_index hi, slot_store_of_ne h9 hA (fun h => absurd h (by decide)),
        slot_store_of_ne h8 hA (fun h => absurd h (by decide)), slot_zero]

/-- The three tables of the bootloader, as they stand in the machine. -/
structure BootTables (s : Vmm) : Prop where
  root : s.root exampleRam = 0x8000
  pml4 : ∀ i, s.ent 0x8000 i = if i = 0 then 0x9003 else 0
  pdpt : ∀ i, s.ent 0x9000 i = if i = 0 then 0xA003 else 0
  pd : ∀ i, s.ent 0xA000 i = if i = 1 then 0x200083 else 0

theorem BootTables.node_eq (h : BootTables s) {p : List (BitVec 9)} {f : Word}
    (hn : s.node exampleRam decHw p = some f) :
    (p = [] ∧ f = 0x8000) ∨ (p = [0] ∧ f = 0x9000) ∨ (p = [0, 0] ∧ f = 0xA000) := by
  have hblank : ∀ d, decHw d 0 = none := fun d => if_pos (by decide)
  have hhuge : decHw 2 0x200083 = none := by decide
  induction p generalizing f with
  | nil => exact Or.inl ⟨rfl, (Option.some.inj hn).symm.trans h.root⟩
  | cons i p ih =>
    obtain ⟨t, ht, hd⟩ := exists_parent hn
    rcases ih ht with ⟨rfl, rfl⟩ | ⟨rfl, rfl⟩ | ⟨rfl, rfl⟩
    · rw [h.pml4 i] at hd
      split at hd
      · next hi => exact Or.inr (Or.inl ⟨by rw [hi], (Option.some.inj hd).symm⟩)
      · exact absurd (hd.symm.trans (hblank _)) (Option.some_ne_none f)
    · rw [h.pdpt i] at hd
      split at hd
      · next hi => exact Or.inr (Or.inr ⟨by rw [hi], (Option.some.inj hd).symm⟩)
      · exact absurd (hd.symm.trans (hblank _)) (Option.some_ne_none f)
    · -- the PD holds the huge page and nothing else
      rw [h.pd i] at hd
      split at hd
      · exact absurd (hd.symm.trans hhuge) (Option.some_ne_none f)
      · exact absurd (hd.symm.trans (hblank _)) (Option.some_ne_none f)

theorem BootTables.sound (h : BootTables s) (hinv : PmmInv exampleRam s.pmm L [])
    (hoff : s.hhdmOffset = exampleRam.hhdmOffset) : Sound exampleRam decHw s L [] := by
  have hL : ∀ f ∈ L, f ∈ [0x1000, 0x2000, 0x3000, 0x4000] := fun f hf =>
    (exampleRam_usable f).mp ((hinv.usable f).mpr (List.mem_append_left [] hf))
  refine ⟨hinv, hoff, fun p q f _ _ hp hq => ?_, fun p f _ hn => ?_, fun p f _ hn hf => ?_⟩
  · rcases h.node_eq hp with ⟨rfl, rfl⟩ | ⟨rfl, rfl⟩ | ⟨rfl, rfl⟩ <;>
      rcases h.node_eq hq with ⟨rfl, he⟩ | ⟨rfl, he⟩ | ⟨rfl, he⟩ <;>
      first | rfl | exact absurd he (by decide)
  · rcases h.node_eq hn with ⟨_, rfl⟩ | ⟨_, rfl⟩ | ⟨_, rfl⟩ <;> decide
  · have := hL f hf
    rcases h.node_eq hn with ⟨_, rfl⟩ | ⟨_, rfl⟩ | ⟨_, rfl⟩ <;> exact absurd this (by decide)

theorem exampleBoot_start :
    ∃ pmm L, pmmInit exampleRam exampleBoot = some pmm ∧
      BootTables (vmmStart exampleRam pmm 0x8000) ∧
      Sound exampleRam decHw (vmmStart exampleRam pmm 0x8000) L [] ∧ 4 ≤ L.length := by
  obtain ⟨pmm, L, hinit, hinv, hkeep⟩ := pmmInit_inv exampleRam_ok exampleBoot
  have hslot : ∀ f i, PageAligned f → f ∉ [0x1000, 0x2000, 0x3000, 0x4000] →
      (vmmStart exampleRam pmm 0x8000).ent f i = slot exampleBoot f i := by
    intro f i hf hno
    rw [vmmStart_ent]
    refine slot_congr hf (fun x hx => hkeep x (fun hL => hno ?_))
    rw [hx] at hL
    exact (exampleRam_usable f).mp ((hinv.usable f).mpr (List.mem_append_left [] hL))
  have hboot : BootTables (vmmStart exampleRam pmm 0x8000) := by
    refine ⟨vmmStart_root _ _ _, fun i => ?_, fun i => ?_, fun i => ?_⟩
    · rw [hslot _ i (by decide) (by decide), (exampleBoot_slot i).1]
    · rw [hslot _ i (by decide) (by decide), (exampleBoot_slot i).2.1]
    · rw [hslot _ i (by decide) (by decide), (exampleBoot_slot i).2.2]
  exact ⟨pmm, L, hinit, hboot, hboot.sound hinv rfl,
    hinv.frames_length_le (by decide) fun f => (exampleRam_usable f).mpr⟩

/-- Beside the huge page, at `0x400000`, the inherited tables are safe. -/
theorem inherited_frameSafe_exampleBoot :
    ∃ pmm, pmmInit exampleRam exampleBoot = some pmm ∧
      FrameSafe exampleRam (vmmStart exampleRam pmm 0x8000)
        ((vmmStart exampleRam pmm 0x8000).mapPage exampleRam 0x400000 0x600000 3) 0x400000 ∧
      FrameSafe exampleRam (vmmStart exampleRam pmm 0x8000)
        ((vmmStart exampleRam pmm 0x8000).unmapPage exampleRam 0x400000) 0x400000 := by
  obtain ⟨pmm, L, hinit, hboot, hsound, hlen⟩ := exampleBoot_start
  have hphys : ∀ f, exampleRam.UsableFrame f → f.toNat < 2 ^ 52 := by
    intro f hf
    rw [exampleRam_usable] at hf
    fin_cases hf <;> decide
  have hplain : PlainPath (vmmStart exampleRam pmm 0x8000).ent 0
      ((vmmStart exampleRam pmm 0x8000).root exampleRam) (upperPath 0x400000) := by
    rw [hboot.root, show upperPath 0x400000 = [0, 0, 2] by decide, PlainPath, hboot.pml4]
    refine fun _ => ⟨fun hd => absurd rfl hd, by decide, ?_⟩
    rw [show (if (0 : BitVec 9) = 0 then (0x9003 : Word) else 0) &&& ~~~0xFFF = 0x9000 by decide,
      PlainPath, hboot.pdpt]
    refine fun _ => ⟨fun _ => by decide, by decide, ?_⟩
    rw [show (if (0 : BitVec 9) = 0 then (0xA003 : Word) else 0) &&& ~~~0xFFF = 0xA000 by decide,
      PlainPath, hboot.pd]
    exact fun hpres => absurd (by decide) hpres
  obtain ⟨hmap, hunmap⟩ := inherited_frameSafe exampleRam_ok hphys hsound 0x400000 hplain
  refine ⟨pmm, hinit, hmap 0x600000 3 ?_, hunmap⟩
  have hfree : (pmmGetFreePages (vmmStart exampleRam pmm 0x8000).pmm).toNat = L.length :=
    hsound.pmm.list.free
  rw [hfree]
  exact (needed_le _ _ _).trans (le_trans (by decide) hlen)

/-- In the huge page itself, at `0x201000`, both calls write into its data. -/
theorem exampleBoot_not_frameSafe :
    ∃ pmm L, pmmInit exampleRam exampleBoot = some pmm ∧
      Sound exampleRam decHw (vmmStart exampleRam pmm 0x8000) L [] ∧
      ¬ FrameSafe exampleRam (vmmStart exampleRam pmm 0x8000)
        ((vmmStart exampleRam pmm 0x8000).mapPage exampleRam 0x201000 0x600000 3) 0x201000 ∧
      ¬ FrameSafe exampleRam (vmmStart exampleRam pmm 0x8000)
        ((vmmStart exampleRam pmm 0x8000).unmapPage exampleRam 0x201000) 0x201000 := by
  obtain ⟨pmm, L, hinit, hboot, hsound, hlen⟩ := exampleBoot_start
  have hD : tableBelow (vmmStart exampleRam pmm 0x8000).ent
      ((vmmStart exampleRam pmm 0x8000).root exampleRam) (upperPath 0x201000) = some 0x200000 := by
    rw [hboot.root, show upperPath 0x201000 = [0, 0, 1] by decide, tableBelow, hboot.pml4,
      if_neg (by decide),
      show (if (0 : BitVec 9) = 0 then (0x9003 : Word) else 0) &&& ~~~0xFFF = 0x9000 by decide,
      tableBelow, hboot.pdpt, if_neg (by decide),
      show (if (0 : BitVec 9) = 0 then (0xA003 : Word) else 0) &&& ~~~0xFFF = 0xA000 by decide,
      tableBelow, hboot.pd, if_neg (by decide), tableBelow,
      show (if (1 : BitVec 9) = 1 then (0x200083 : Word) else 0) &&& ~~~0xFFF = 0x200000 by decide]
  have hno : ∀ p, p.length ≤ 3 →
      (vmmStart exampleRam pmm 0x8000).node exampleRam decHw p ≠ some 0x200000 := by
    intro p _ hn
    rcases hboot.node_eq hn with ⟨_, he⟩ | ⟨_, he⟩ | ⟨_, he⟩ <;> exact absurd he (by decide)
  obtain ⟨hmap, hunmap⟩ := not_frameSafe_of_tableBelow rfl
    (by rw [hboot.root]; decide) hD hno
  exact ⟨pmm, L, hinit, hsound, hmap 0x600000 3, hunmap⟩

end AncoreOS.Mm
