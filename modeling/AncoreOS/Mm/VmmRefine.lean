import AncoreOS.Mm.VmmRun

/-!
# The page tables refine a flat map

The purpose of the four levels is a map from pages to leaf entries: `map_page`
sets one page and `unmap_page` clears one.  `PageMap` is that map and
`VmmOp.update` what an operation does to it.

`exec_refines` is the simulation, for either decoder: as long as the allocator
has the frames each `map_page` needs, the tables and the map stay in step.
`walk_refines` reads it off for the kernel's walk and for the hardware's.
-/

namespace AncoreOS.Mm

open ByteMemory Radix

variable {b : Limine} {dec : Nat → Word → Option Word} {s : Vmm} {L out : List Word}

/-! ### Operations -/

/-- A call of the virtual memory manager. -/
inductive VmmOp
  | map (virt phys flags : Word)
  | unmap (virt : Word)
  deriving DecidableEq, Repr

def VmmOp.exec (b : Limine) (s : Vmm) : VmmOp → Vmm
  | .map virt phys flags => s.mapPage b virt phys flags
  | .unmap virt => s.unmapPage b virt

def exec (b : Limine) (s : Vmm) (ops : List VmmOp) : Vmm := ops.foldl (VmmOp.exec b) s

/-- The allocator has the frames the operation needs. -/
def VmmOp.Enough (b : Limine) (s : Vmm) : VmmOp → Prop
  | .map virt _ _ => needed s.ent (s.root b) (upperPath virt) ≤ (pmmGetFreePages s.pmm).toNat
  | .unmap _ => True

/-- Each operation of the run meets a condition in the state it starts from. -/
def EachStep (b : Limine) (C : Vmm → VmmOp → Prop) : Vmm → List VmmOp → Prop
  | _, [] => True
  | s, op :: ops => C s op ∧ EachStep b C (op.exec b s) ops

/-- The abstract map: the last `map_page` of each page, if the page is mapped. -/
abbrev PageMap := BitVec 36 → Option (Word × Word)

def VmmOp.update (m : PageMap) : VmmOp → PageMap
  | .map virt phys flags => Function.update m (pageNumber virt) (some (phys, flags))
  | .unmap virt => Function.update m (pageNumber virt) none

def lastMap (ops : List VmmOp) : PageMap := ops.foldl VmmOp.update fun _ => none

/-- The leaf entry of a mapping. -/
def leafEntry (a : Word × Word) : Word := a.1 ||| a.2 ||| ptePresent

/-! ### The simulation -/

/-- The translations of the tables are the leaves of the map. -/
def Refines (b : Limine) (dec : Nat → Word → Option Word) (s : Vmm) (m : PageMap) : Prop :=
  ∀ v, s.find b dec (pathOf v) = (m (pageNumber v)).map fun a => (3, leafEntry a)

theorem VmmStart.refines {pmm : Pmm} {cr3 : Word} (hdec : Decoder b dec)
    (h : VmmStart b pmm cr3 L out) : Refines b dec (vmmStart b pmm cr3) fun _ => none := by
  intro v
  rw [Vmm.find, vmmStart_ent, vmmStart_root, find_pathOf, h.blank, hdec.absent 0 0 (by decide)]
  exact filter_absent 0 (by decide)

/-- **One operation keeps the tables and the map in step.** -/
theorem VmmOp.exec_refines (hb : b.Ok) (hdec : Decoder b dec) {m : PageMap} {held : List Word}
    (h : Joint b dec ⟨s, held⟩ L out) (hm : Refines b dec s m) (op : VmmOp)
    (henough : op.Enough b s) :
    (∃ L' out', Joint b dec ⟨op.exec b s, held⟩ L' out') ∧
      Refines b dec (op.exec b s) (op.update m) := by
  cases op with
  | map virt phys flags =>
    have hclean := h.clean_upperPath hdec virt
    have hneed : needed s.ent (s.root b) (upperPath virt) ≤ L.length := by
      rw [← h.sound.pmm.list.free]
      exact henough
    refine ⟨h.mapPage hb hdec virt phys flags hneed, fun v => ?_⟩
    rw [VmmOp.exec, mapPage_find hb hdec h.sound virt phys flags hclean hneed v, VmmOp.update]
    by_cases hv : pageNumber v = pageNumber virt
    · rw [if_pos hv, hv, Function.update_self]
      rfl
    · rw [if_neg hv, Function.update_of_ne hv]
      exact hm v
  | unmap virt =>
    have hclean := h.clean_upperPath hdec virt
    refine ⟨⟨L, out, h.unmapPage hdec virt⟩, fun v => ?_⟩
    rw [VmmOp.exec, unmapPage_find hdec h.sound virt hclean v, VmmOp.update]
    by_cases hv : pageNumber v = pageNumber virt
    · rw [if_pos hv, hv, Function.update_self]
      rfl
    · rw [if_neg hv, Function.update_of_ne hv]
      exact hm v

/-- **The simulation over a whole run.** -/
theorem exec_refines (hb : b.Ok) (hdec : Decoder b dec) {held : List Word} :
    ∀ (ops : List VmmOp) (s : Vmm) (L out : List Word) (m : PageMap),
      Joint b dec ⟨s, held⟩ L out → Refines b dec s m →
      EachStep b (fun s op => op.Enough b s) s ops →
      (∃ L' out', Joint b dec ⟨exec b s ops, held⟩ L' out') ∧
        Refines b dec (exec b s ops) (ops.foldl VmmOp.update m) := by
  intro ops
  induction ops with
  | nil => exact fun s L out m h hm _ => ⟨⟨L, out, h⟩, hm⟩
  | cons op ops ih =>
    intro s L out m h hm hsteps
    obtain ⟨⟨L', out', h'⟩, hm'⟩ := op.exec_refines hb hdec h hm hsteps.1
    exact ih (op.exec b s) L' out' (op.update m) h' hm' hsteps.2

theorem VmmStart.exec_refines (hb : b.Ok) (hdec : Decoder b dec) {pmm : Pmm} {cr3 : Word}
    (h : VmmStart b pmm cr3 L out) {ops : List VmmOp}
    (henough : EachStep b (fun s op => op.Enough b s) (vmmStart b pmm cr3) ops) :
    (∃ L' out', Joint b dec ⟨exec b (vmmStart b pmm cr3) ops, []⟩ L' out') ∧
      Refines b dec (exec b (vmmStart b pmm cr3) ops) (lastMap ops) :=
  Mm.exec_refines hb hdec ops _ L out _
    (h.joint hdec (List.forall_mem_nil _) List.nodup_nil List.not_mem_nil)
    (h.refines hdec) henough

/-- **After every sequence of calls the walk of an address is the leaf of its last
`map_page`.**  The kernel's walk needs nothing more; the hardware's also needs the
frames to have the physical addresses the hardware can hold. -/
theorem walk_refines (hb : b.Ok) {pmm : Pmm} {cr3 : Word} (h : VmmStart b pmm cr3 L out)
    (ops : List VmmOp)
    (henough : EachStep b (fun s op => op.Enough b s) (vmmStart b pmm cr3) ops) (v : Word) :
    walk (exec b (vmmStart b pmm cr3) ops).pmm.mem ((exec b (vmmStart b pmm cr3) ops).root b) v =
        (lastMap ops (pageNumber v)).map leafEntry ∧
      ((∀ f, b.UsableFrame f → f.toNat < 2 ^ 52) →
        mmuWalk (exec b (vmmStart b pmm cr3) ops).pmm.mem
            ((exec b (vmmStart b pmm cr3) ops).root b) v =
          (lastMap ops (pageNumber v)).map fun a => (3, leafEntry a)) := by
  constructor
  · have hm := (h.exec_refines hb (decoder_decSw b) henough).2 v
    rw [walk_eq_find, hm, Option.map_map]
    rfl
  · intro hphys
    rw [mmuWalk_eq_find]
    exact (h.exec_refines hb (decoder_decHw hphys) henough).2 v

/-! ### Two pages of one page table -/

/-- Where the tables of a path exist, none is missing. -/
theorem needed_eq_zero {g : Word} :
    ∀ (is p : List (BitVec 9)) (f : Word), s.node b decSw p = some f →
      s.node b decSw (is.reverse ++ p) = some g → needed s.ent f is = 0 := by
  intro is
  induction is with
  | nil => exact fun _ _ _ _ => rfl
  | cons i is ih =>
    intro p f hn hg
    rw [List.reverse_cons, List.append_assoc] at hg
    have hnode : s.node b decSw (i :: p) = decSw p.length (s.ent f i) := node_cons_of_some hn
    by_cases habs : s.ent f i &&& ptePresent = 0
    · have hnone : s.node b decSw (i :: p) = none := hnode.trans (if_pos habs)
      have hgone : s.node b decSw (is.reverse ++ i :: p) = none := node_append_of_none hnone _
      exact absurd (hg.symm.trans hgone) (Option.some_ne_none g)
    · rw [needed, if_neg habs]
      exact ih (i :: p) _ (hnode.trans (if_neg habs)) hg

theorem mapPage_needed (hb : b.Ok) (h : Sound b decSw s L out) (virt phys flags : Word)
    (hneed : needed s.ent (s.root b) (upperPath virt) ≤ L.length) :
    needed (s.mapPage b virt phys flags).ent ((s.mapPage b virt phys flags).root b)
      (upperPath virt) = 0 := by
  obtain ⟨s₁, pt, _, _, _, hs₁, _, hnode, hrun⟩ := mapPage_spec hb (decoder_decSw b) h virt phys
    flags (clean_decSw _ _ _ _) hneed
  rw [hrun]
  refine needed_eq_zero (g := pt) (upperPath virt) [] _ rfl ?_
  rw [List.append_nil, setSlot_node hs₁ hnode rfl (by simp [upperPath])]
  exact hnode

/-- Two pages of one page table fit into the four frames, in either order. -/
theorem exampleRam_enough {pmm : Pmm} (h : VmmStart exampleRam pmm 0x8000 L [])
    (hlen : 4 ≤ L.length) (phys flags : Word) :
    needed (vmmStart exampleRam pmm 0x8000).ent ((vmmStart exampleRam pmm 0x8000).root exampleRam)
        (upperPath 0x400000) ≤ L.length ∧
      (VmmOp.map 0x400000 phys flags).Enough exampleRam (vmmStart exampleRam pmm 0x8000) ∧
      ∀ phys' flags', (VmmOp.map 0x401000 phys' flags').Enough exampleRam
        ((vmmStart exampleRam pmm 0x8000).mapPage exampleRam 0x400000 phys flags) := by
  have hjoint := h.joint (decoder_decSw exampleRam) (List.forall_mem_nil _) List.nodup_nil
    List.not_mem_nil
  have hneed : needed (vmmStart exampleRam pmm 0x8000).ent
      ((vmmStart exampleRam pmm 0x8000).root exampleRam) (upperPath 0x400000) ≤ L.length := by
    rw [vmmStart_root, vmmStart_ent, needed_of_blank h.blank]
    exact le_trans (by decide) hlen
  refine ⟨hneed, ?_, fun phys' flags' => ?_⟩
  · show _ ≤ (pmmGetFreePages pmm).toNat
    rw [pmmGetFreePages, h.inv.list.free]
    exact hneed
  · have hsame : upperPath 0x401000 = upperPath 0x400000 := by decide
    show needed _ _ (upperPath 0x401000) ≤ _
    rw [hsame, mapPage_needed exampleRam_ok hjoint.sound _ _ _ hneed]
    exact Nat.zero_le _

/-- A kernel page, a user page beside it, and the kernel page again taken away. -/
def exampleOps : List VmmOp :=
  [.map 0x400000 0x200000 3, .map 0x401000 0x201000 7, .unmap 0x400000]

theorem walk_refines_exampleOps :
    ∃ pmm, pmmInit exampleRam (fun _ => 0) = some pmm ∧
      walk (exec exampleRam (vmmStart exampleRam pmm 0x8000) exampleOps).pmm.mem
          ((exec exampleRam (vmmStart exampleRam pmm 0x8000) exampleOps).root exampleRam) 0x401234 =
        some 0x201007 ∧
      walk (exec exampleRam (vmmStart exampleRam pmm 0x8000) exampleOps).pmm.mem
          ((exec exampleRam (vmmStart exampleRam pmm 0x8000) exampleOps).root exampleRam) 0x400234 =
        none := by
  obtain ⟨pmm, L, hinit, hstart, hlen⟩ := exampleRam_start
  obtain ⟨_, h₁, h₂⟩ := exampleRam_enough hstart hlen 0x200000 3
  have henough : EachStep exampleRam (fun s op => op.Enough exampleRam s)
      (vmmStart exampleRam pmm 0x8000) exampleOps := ⟨h₁, h₂ _ _, trivial, trivial⟩
  refine ⟨pmm, hinit, ?_, ?_⟩
  · rw [(walk_refines exampleRam_ok hstart exampleOps henough 0x401234).1]
    decide
  · rw [(walk_refines exampleRam_ok hstart exampleOps henough 0x400234).1]
    decide

end AncoreOS.Mm
