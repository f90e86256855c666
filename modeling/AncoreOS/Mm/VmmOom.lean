import AncoreOS.Mm.PmmRun
import AncoreOS.Mm.VmmDescend

/-!
# `map_page` without free frames

`alloc_table` does not look at what `palloc` returns.  When the free list runs
out in the middle of a `map_page`, the table is made in physical frame `0`: the
frame is cleared, and a present entry that points to it is stored.

`mapPage_palloc_zero_iff` says when that happens, from the state before the
call: exactly when the walk of `virt` is short of more tables than there are free
frames.  `mapPage_oomSafe_iff` is the consequence for the property one would
want of a failed allocation.
-/

namespace AncoreOS.Mm

open ByteMemory Radix

variable {b : Limine} {s : Vmm} {L out : List Word} {f u : Word}

/-- None of the tables the kernel's mask reads along the indices is free. -/
def PathApart (ent : Word → BitVec 9 → Word) (L : List Word) : Word → List (BitVec 9) → Prop
  | f, [] => f ∉ L
  | f, i :: is => f ∉ L ∧
    (ent f i &&& ptePresent ≠ 0 → PathApart ent L (ent f i &&& ~~~0xFFF) is)

theorem pathApart_of_blank {ent : Word → BitVec 9 → Word} (hf : f ∉ L)
    (hblank : ∀ i, ent f i = 0) (is : List (BitVec 9)) : PathApart ent L f is := by
  cases is with
  | nil => exact hf
  | cons i is => exact ⟨hf, fun hpres => absurd (by rw [hblank i]; decide) hpres⟩

/-- What the log of a descent says of a failed `palloc`: frame `0` is cleared, and
an entry that points to it is stored. -/
def FailuresLinked (u : Word) (ev : List VmmEvent) : Prop :=
  .palloc 0 ∈ ev → .memset 0 4096 ∈ ev ∧ ∃ a, .store a (tableEntry 0 u) ∈ ev

theorem palloc_zero_mem_link {ev : List VmmEvent} {a v g : Word} :
    .palloc 0 ∈ ev ++ [.store a v, .memset g 4096, .palloc g] ↔ .palloc 0 ∈ ev ∨ g = 0 := by
  rw [List.mem_append]
  refine or_congr_right ⟨fun h => ?_, fun h => by simp [h]⟩
  simp only [List.mem_cons, reduceCtorEq, VmmEvent.palloc.injEq, List.not_mem_nil, or_false,
    false_or] at h
  exact h.symm

/-- Whatever the state, a descent extends the log, and a `palloc` that fails is
followed by the two writes. -/
theorem descend_log (hoff : s.hhdmOffset = b.hhdmOffset) :
    ∀ (is : List (BitVec 9)) (f : Word),
      ∃ g s' ev, descend b u s (f + b.hhdmOffset) is = (g + b.hhdmOffset, s') ∧
        s'.log = ev ++ s.log ∧ FailuresLinked u ev := by
  intro is
  induction is generalizing s with
  | nil => exact fun f => ⟨f, s, [], rfl, rfl, fun h => by cases h⟩
  | cons i is ih =>
    intro f
    by_cases habs : s.ent f i &&& ptePresent = 0
    · rcases hp : palloc b s.pmm with ⟨g, pmm⟩
      have hoff' : (linkTable s pmm f i g u).hhdmOffset = b.hhdmOffset := hoff
      obtain ⟨g', s', ev, hrun, hlog, hfail⟩ := ih hoff' g
      refine ⟨g', s', ev ++ [.store (f + 8 * i.setWidth 64) (tableEntry g u), .memset g 4096,
        .palloc g], ?_, by rw [hlog]; simp [linkTable], fun h0 => ?_⟩
      · rw [descend, nextTable_absent hoff habs hp]
        exact hrun
      · rcases palloc_zero_mem_link.mp h0 with h0 | rfl
        · obtain ⟨hm, a, ha⟩ := hfail h0
          exact ⟨List.mem_append_left _ hm, a, List.mem_append_left _ ha⟩
        · exact ⟨by simp, f + 8 * i.setWidth 64, by simp⟩
    · obtain ⟨g', s', ev, hrun, hlog, hfail⟩ := ih hoff (s.ent f i &&& ~~~0xFFF)
      refine ⟨g', s', ev, ?_, hlog, hfail⟩
      rw [descend, nextTable_present hoff habs]
      exact hrun

/-- **A `palloc` of the descent fails exactly when more tables are missing than
frames are free.** -/
theorem descend_palloc_zero_iff (hb : b.Ok) :
    ∀ (is : List (BitVec 9)) (s : Vmm) (L out : List Word) (f : Word),
      PmmInv b s.pmm L out → s.hhdmOffset = b.hhdmOffset → PageAligned f →
      PathApart s.ent L f is →
      ∃ ev, (descend b u s (f + b.hhdmOffset) is).2.log = ev ++ s.log ∧
        (.palloc 0 ∈ ev ↔ L.length < needed s.ent f is) := by
  intro is
  induction is with
  | nil => exact fun s L out f _ _ _ _ => ⟨[], rfl, by simp [needed]⟩
  | cons i is ih =>
    intro s L out f hinv hoff hf hapart
    by_cases habs : s.ent f i &&& ptePresent = 0
    · rw [needed, if_pos habs]
      cases L with
      | nil =>
        -- the first `palloc` fails; what the others do does not matter
        have hp := hinv.list.palloc_nil
        have hoff' : (linkTable s s.pmm f i 0 u).hhdmOffset = b.hhdmOffset := hoff
        obtain ⟨_, s', ev, hrun, hlog, _⟩ := descend_log (u := u) hoff' is 0
        refine ⟨ev ++ [.store (f + 8 * i.setWidth 64) (tableEntry 0 u), .memset 0 4096, .palloc 0],
          ?_, by simp⟩
        rw [descend, nextTable_absent hoff habs hp, hrun, hlog]
        simp [linkTable]
      | cons g L =>
        obtain ⟨pmm, hp, hinv', _⟩ := hinv.palloc
        have hg : PageAligned g := hinv.list.aligned g List.mem_cons_self
        have hgL : g ∉ L := hinv'.not_mem_of_mem_out List.mem_cons_self
        have hfg : f ≠ g := fun he => hapart.1 (he ▸ List.mem_cons_self)
        have hfL : f ∉ L := fun h => hapart.1 (List.mem_cons_of_mem g h)
        have hblank : ∀ j, (linkTable s pmm f i g u).ent g j = 0 := linkTable_blank hf hg hfg
        obtain ⟨ev, hlog, hiff⟩ := ih (linkTable s pmm f i g u) L (g :: out) g
          (linkTable_inv hf hfL hinv') hoff hg (pathApart_of_blank hgL hblank is)
        refine ⟨ev ++ [.store (f + 8 * i.setWidth 64) (tableEntry g u), .memset g 4096, .palloc g],
          ?_, ?_⟩
        · rw [descend, nextTable_absent hoff habs hp, hlog]
          simp [linkTable]
        · have hg0 : g ≠ 0 := hinv.ne_zero hb List.mem_cons_self
          rw [palloc_zero_mem_link, or_iff_left hg0, hiff, needed_of_blank hblank,
            List.length_cons, Nat.add_lt_add_iff_right]
    · rw [needed, if_neg habs, descend, nextTable_present hoff habs]
      exact ih s L out _ hinv hoff (pageAligned_pageOf _) (hapart.2 habs)

/-! ### One call -/

def Vmm.clearLog (s : Vmm) : Vmm := { s with log := [] }

/-- The events of one call of `map_page`. -/
def Vmm.mapPageEvents (b : Limine) (s : Vmm) (virt phys flags : Word) : List VmmEvent :=
  (s.clearLog.mapPage b virt phys flags).log

/-- What a failed allocation should not do: write to frame `0`, store a present
entry that points there, or make two entries share a table. -/
def OomSafe (b : Limine) (s : Vmm) (virt phys flags : Word) : Prop :=
  .palloc 0 ∈ s.mapPageEvents b virt phys flags →
    (∀ e ∈ s.mapPageEvents b virt phys flags, ∀ x, e.Writes x → pageOf x ≠ 0) ∧
    (∀ a v, .store a v ∈ s.mapPageEvents b virt phys flags → v &&& ptePresent ≠ 0 →
      v &&& ~~~0xFFF ≠ 0) ∧
    (IsTree 3 decSw s.ent (s.root b) →
      IsTree 3 decSw (s.mapPage b virt phys flags).ent ((s.mapPage b virt phys flags).root b))

/-- The state is one `vmm_init` and the allocator can leave: the direct map is
known, the PML4 is a page, and the tables on the way to `virt` are not free. -/
structure OomReady (b : Limine) (s : Vmm) (L out : List Word) (virt : Word) : Prop where
  inv : PmmInv b s.pmm L out
  off : s.hhdmOffset = b.hhdmOffset
  root : PageAligned (s.root b)
  apart : PathApart s.ent L (s.root b) (upperPath virt)

theorem mapPageEvents_eq (hoff : s.hhdmOffset = b.hhdmOffset) (virt phys flags : Word) :
    ∃ a ev, s.mapPageEvents b virt phys flags = .store a (phys ||| flags ||| ptePresent) :: ev ∧
      (descend b (flags &&& pteUser) s.clearLog (s.root b + b.hhdmOffset)
        (upperPath virt)).2.log = ev ∧ FailuresLinked (flags &&& pteUser) ev := by
  have hoff' : s.clearLog.hhdmOffset = b.hhdmOffset := hoff
  obtain ⟨g, s', ev, hrun, hlog, hfail⟩ :=
    descend_log (u := flags &&& pteUser) hoff' (upperPath virt) (s.root b)
  have hlog' : s'.log = ev := hlog.trans (List.append_nil ev)
  refine ⟨g + 8 * (virt.extractLsb' 12 9).setWidth 64, ev, ?_, by rw [hrun]; exact hlog', hfail⟩
  have hpml4 : s.clearLog.kernelPml4 = s.root b + b.hhdmOffset := s.kernelPml4_eq b
  rw [Vmm.mapPageEvents, mapPage_eq, hpml4, hrun, Vmm.setEntry_eq, ← hlog']
  rfl

/-- **When `map_page` runs out of memory.** -/
theorem mapPage_palloc_zero_iff (hb : b.Ok) {virt : Word} (h : OomReady b s L out virt)
    (phys flags : Word) : .palloc 0 ∈ s.mapPageEvents b virt phys flags ↔
      L.length < needed s.ent (s.root b) (upperPath virt) := by
  obtain ⟨a, ev, hev, hlog, _⟩ := mapPageEvents_eq h.off virt phys flags
  obtain ⟨ev', hlog', hiff⟩ := descend_palloc_zero_iff (u := flags &&& pteUser) hb
    (upperPath virt) s.clearLog L out (s.root b) h.inv h.off h.root h.apart
  have he : ev' = ev := ((List.append_nil ev').symm.trans hlog'.symm).trans hlog
  rw [hev, ← he, List.mem_cons, or_iff_right (by simp)]
  exact hiff

/-- A failed allocation writes to frame `0`. -/
theorem not_oomSafe_of_palloc_zero (hoff : s.hhdmOffset = b.hhdmOffset) {virt phys flags : Word}
    (h0 : .palloc 0 ∈ s.mapPageEvents b virt phys flags) : ¬ OomSafe b s virt phys flags := by
  intro hsafe
  obtain ⟨a, ev, hev, _, hfail⟩ := mapPageEvents_eq hoff virt phys flags
  have h0' : .palloc 0 ∈ ev := by
    rw [hev] at h0
    simpa using h0
  have hmem : .memset 0 4096 ∈ s.mapPageEvents b virt phys flags := by
    rw [hev]
    exact List.mem_cons_of_mem _ (hfail h0').1
  have hzero : InRange 0 4096 (0 : Word) := (pageOf_eq_iff_inRange (by decide)).mp (by decide)
  exact (hsafe h0).1 _ hmem 0 hzero (by decide)

/-- **`map_page` meets the property exactly when the frames suffice.** -/
theorem mapPage_oomSafe_iff (hb : b.Ok) {virt : Word} (h : OomReady b s L out virt)
    (phys flags : Word) : OomSafe b s virt phys flags ↔
      needed s.ent (s.root b) (upperPath virt) ≤ (pmmGetFreePages s.pmm).toNat := by
  have hiff := mapPage_palloc_zero_iff hb h phys flags
  have hfree : (pmmGetFreePages s.pmm).toNat = L.length := h.inv.list.free
  rw [hfree]
  constructor
  · intro hsafe
    by_contra hlt
    exact not_oomSafe_of_palloc_zero h.off (hiff.mpr (by omega)) hsafe
  · intro hle h0
    exact absurd (hiff.mp h0) (by omega)

/-! ### A machine with two usable frames -/

theorem VmmStart.oomReady {pmm : Pmm} {cr3 : Word} (h : VmmStart b pmm cr3 L out) (virt : Word) :
    OomReady b (vmmStart b pmm cr3) L out virt := by
  refine ⟨h.inv, rfl, ?_, ?_⟩
  · rw [vmmStart_root]
    exact pageAligned_pageOf cr3
  · rw [vmmStart_root, vmmStart_ent]
    exact pathApart_of_blank h.apart h.blank (upperPath virt)

theorem exampleMap_not_usable : ¬ exampleMap.UsableFrame (pageOf 0x8000) := by
  intro h
  have := exampleMap_usable h
  revert this
  decide

theorem mapPage_oomSafe_iff_exampleMap :
    ∃ pmm L, pmmInit exampleMap (fun _ => 0) = some pmm ∧
      OomReady exampleMap (vmmStart exampleMap pmm 0x8000) L [] 0x400000 ∧
      (OomSafe exampleMap (vmmStart exampleMap pmm 0x8000) 0x400000 0x200000 3 ↔
        needed (vmmStart exampleMap pmm 0x8000).ent ((vmmStart exampleMap pmm 0x8000).root exampleMap)
          (upperPath 0x400000) ≤ (pmmGetFreePages (vmmStart exampleMap pmm 0x8000).pmm).toNat) := by
  obtain ⟨pmm, L, hinit, hstart⟩ := exists_vmmStart exampleMap_ok
    (fun _ _ => rfl) exampleMap_not_usable
  have hready := hstart.oomReady 0x400000
  exact ⟨pmm, L, hinit, hready, mapPage_oomSafe_iff exampleMap_ok hready 0x200000 3⟩

/-- Two frames are free and the first mapping needs three tables. -/
theorem exampleMap_not_oomSafe :
    ∃ pmm, pmmInit exampleMap (fun _ => 0) = some pmm ∧
      ¬ OomSafe exampleMap (vmmStart exampleMap pmm 0x8000) 0x400000 0x200000 3 := by
  obtain ⟨pmm, L, hinit, hstart⟩ := exists_vmmStart exampleMap_ok
    (fun _ _ => rfl) exampleMap_not_usable
  refine ⟨pmm, hinit, not_oomSafe_of_palloc_zero rfl ?_⟩
  rw [mapPage_palloc_zero_iff exampleMap_ok (hstart.oomReady 0x400000), vmmStart_root,
    vmmStart_ent, needed_of_blank hstart.blank]
  have hsub : L ⊆ [0x2000, 0x3000] := by
    intro f hf
    have := exampleMap_usable ((hstart.inv.usable f).mpr (List.mem_append_left [] hf))
    simpa [BitVec.toNat_eq] using this
  exact Nat.lt_succ_of_le (List.subperm_of_subset hstart.inv.list.nodup hsub).length_le

end AncoreOS.Mm
