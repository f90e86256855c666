import AncoreOS.Mm.VmmDescend

/-!
# What `map_page` and `unmap_page` do to the translations

`mapPage_spec` and `unmapPage_spec` are the two specifications everything else
about the virtual memory manager rests on.  Both hold for either decoder, on a
path that is clean for it; for the kernel's own mask every path is clean.

`walk_eq_find` and `mmuWalk_eq_find` read the two walks of `Mm/Vmm.lean` as walks
of the radix table.
-/

namespace AncoreOS.Mm

open ByteMemory Radix

variable {b : Limine} {dec : Nat → Word → Option Word} {s : Vmm} {L out : List Word}
  {f v : Word} {i : BitVec 9} {p : List (BitVec 9)}

/-! ### The leaf -/

section Leaf

variable (h : Sound b dec s L out) (hn : s.node b dec p = some f) (hp : p.length = 3)

include h hn hp in
theorem setSlot_leaf : Leaf 3 dec s.ent (setSlot s f i v).ent (s.root b) p i f := by
  refine ⟨hn, hp, fun q f' j hq hn' hne => ?_, h.tree⟩
  exact slot_store_of_ne (h.aligned p f (by omega) hn) (h.aligned q f' hq hn') hne

include h hn hp in
theorem setSlot_node {q : List (BitVec 9)} (hq : q.length ≤ 3) :
    (setSlot s f i v).node b dec q = s.node b dec q :=
  (setSlot_leaf h hn hp).node_eq q hq

include h hn hp in
/-- Writing a leaf keeps the tables sound. -/
theorem setSlot_sound : Sound b dec (setSlot s f i v) L out := by
  refine ⟨h.pmm.frame (fun x hx => store_slot_apply (h.aligned p f (by omega) hn) ?_), h.off,
    (setSlot_leaf h hn hp).isTree, fun q f' hq hn' => ?_, fun q f' hq hn' => ?_⟩
  · rintro rfl
    exact h.apart p _ (by omega) hn hx
  · rw [setSlot_node h hn hp hq] at hn'
    exact h.aligned q f' hq hn'
  · rw [setSlot_node h hn hp hq] at hn'
    exact h.apart q f' hq hn'

include h hn hp in
/-- Writing a leaf changes the translations of one page. -/
theorem setSlot_find {q : List (BitVec 9)} (hq : q.length = 4) :
    (setSlot s f i v).find b dec q =
      if q = i :: p then (if isPresent v then some (3, v) else none) else s.find b dec q := by
  have hfind : (setSlot s f i v).find b dec q =
      if q = i :: p then (if isPresent ((setSlot s f i v).ent f i) then
        some (3, (setSlot s f i v).ent f i) else none) else s.find b dec q :=
    (setSlot_leaf h hn hp).find_eq q (by omega)
  rw [show (setSlot s f i v).ent f i = v from slot_store_same _ _ _ _] at hfind
  exact hfind

end Leaf

/-! ### `map_page` -/

theorem reverse_upperPath (v : Word) : v.extractLsb' 12 9 :: (upperPath v).reverse = pathOf v := rfl

theorem length_pathOf (v : Word) : (pathOf v).length = 4 := rfl

theorem isPresent_leaf (phys flags : Word) : isPresent (phys ||| flags ||| ptePresent) = true := by
  rw [isPresent, decide_eq_true_eq, BitVec.and_or_distrib_right]
  intro h
  have := congrArg (fun x => BitVec.getLsbD x 0) h
  simp [ptePresent] at this

/-- **`map_page` on a clean path with frames enough.**  The descent ends in a sound
state `s₁` that has the page table of `virt` and the translations of `s`, and the
leaf is written there. -/
theorem mapPage_spec (hb : b.Ok) (hdec : Decoder b dec) (h : Sound b dec s L out)
    (virt phys flags : Word) (hclean : Clean dec s.ent 0 (s.root b) (upperPath virt))
    (hneed : needed s.ent (s.root b) (upperPath virt) ≤ L.length) :
    ∃ s₁ pt L' out' ev, Sound b dec s₁ L' out' ∧
      Grows b dec (flags &&& pteUser) s s₁ L L' out out' ev ∧
      s₁.node b dec (upperPath virt).reverse = some pt ∧
      s.mapPage b virt phys flags =
        setSlot s₁ pt (virt.extractLsb' 12 9) (phys ||| flags ||| ptePresent) := by
  obtain ⟨pt, s₁, L', out', ev, hrun, hs₁, hnode, hgrows⟩ := descend_spec hb hdec
    (user_bit flags) (upperPath virt) s L out [] (s.root b) h rfl (by simp [upperPath]) hclean hneed
  rw [List.append_nil] at hnode
  refine ⟨s₁, pt, L', out', ev, hs₁, hgrows, hnode, ?_⟩
  rw [mapPage_eq, s.kernelPml4_eq b, hrun]
  exact Vmm.setEntry_eq _ _ _ _

theorem mapPage_sound (hb : b.Ok) (hdec : Decoder b dec) (h : Sound b dec s L out)
    (virt phys flags : Word) (hclean : Clean dec s.ent 0 (s.root b) (upperPath virt))
    (hneed : needed s.ent (s.root b) (upperPath virt) ≤ L.length) :
    ∃ L' out', Sound b dec (s.mapPage b virt phys flags) L' out' := by
  obtain ⟨s₁, pt, L', out', _, hs₁, _, hnode, hrun⟩ :=
    mapPage_spec hb hdec h virt phys flags hclean hneed
  rw [hrun]
  exact ⟨L', out', setSlot_sound hs₁ hnode rfl⟩

/-- The translations after `map_page`. -/
theorem mapPage_find (hb : b.Ok) (hdec : Decoder b dec) (h : Sound b dec s L out)
    (virt phys flags : Word) (hclean : Clean dec s.ent 0 (s.root b) (upperPath virt))
    (hneed : needed s.ent (s.root b) (upperPath virt) ≤ L.length) (w : Word) :
    (s.mapPage b virt phys flags).find b dec (pathOf w) =
      if pageNumber w = pageNumber virt then some (3, phys ||| flags ||| ptePresent)
      else s.find b dec (pathOf w) := by
  obtain ⟨s₁, pt, L', out', _, hs₁, hgrows, hnode, hrun⟩ :=
    mapPage_spec hb hdec h virt phys flags hclean hneed
  rw [hrun, setSlot_find hs₁ hnode rfl (length_pathOf w), reverse_upperPath, isPresent_leaf,
    if_pos rfl, hgrows.find _ (length_pathOf w)]
  simp only [pathOf_eq_iff]

/-! ### `unmap_page` -/

/-- The table below `f` along the indices, as the kernel's mask reads the entries. -/
def tableBelow (ent : Word → BitVec 9 → Word) : Word → List (BitVec 9) → Option Word
  | f, [] => some f
  | f, i :: is =>
    if ent f i &&& ptePresent = 0 then none else tableBelow ent (ent f i &&& ~~~0xFFF) is

theorem unmapPage_eq (hoff : s.hhdmOffset = b.hhdmOffset) (virt : Word) :
    s.unmapPage b virt =
      match tableBelow s.ent (s.root b) (upperPath virt) with
      | none => s
      | some pt => setSlot s pt (virt.extractLsb' 12 9) 0 := by
  rw [Vmm.unmapPage, s.kernelPml4_eq b, pml4Index_eq, pdptIndex_eq, pdIndex_eq, ptIndex_eq]
  simp only [Vmm.physToVirt, hoff, Vmm.entry_eq, Vmm.setEntry_eq, tableBelow, upperPath]
  split
  · rfl
  · split
    · rfl
    · split
      · rfl
      · rfl

/-- On a clean path, the table the kernel finds is the table of the path; when there
is none, the path has no translation. -/
theorem tableBelow_spec (hdec : Decoder b dec) :
    ∀ (is : List (BitVec 9)) (p : List (BitVec 9)) (f : Word), s.node b dec p = some f →
      Clean dec s.ent p.length f is →
      s.node b dec (is.reverse ++ p) = tableBelow s.ent f is ∧
        (tableBelow s.ent f is = none → ∀ q, s.find b dec (q ++ is.reverse ++ p) = none) := by
  intro is
  induction is with
  | nil => intro p f hn _; exact ⟨hn, fun h => absurd h (Option.some_ne_none f)⟩
  | cons i is ih =>
    intro p f hn hclean
    rw [List.reverse_cons, List.append_assoc, tableBelow]
    by_cases habs : s.ent f i &&& ptePresent = 0
    · have hnone : s.node b dec (i :: p) = none :=
        (node_cons_of_some hn).trans (hdec.absent _ _ habs)
      rw [if_pos habs]
      refine ⟨node_append_of_none hnone is.reverse, fun _ q => ?_⟩
      rw [Vmm.find, Radix.find, show q ++ (is.reverse ++ [i]) ++ p = q ++ is.reverse ++ i :: p by
        simp, look_append_of_none hnone, look_cons_of_some hn]
      simp [Option.filter, isPresent, habs]
    · obtain ⟨htable, hclean'⟩ := hclean habs
      have hnode : s.node b dec (i :: p) = some (s.ent f i &&& ~~~0xFFF) :=
        (node_cons_of_some hn).trans htable
      obtain ⟨h₁, h₂⟩ := ih (i :: p) _ hnode hclean'
      rw [if_neg habs]
      refine ⟨h₁, fun hb q => ?_⟩
      rw [show q ++ (is.reverse ++ [i]) ++ p = q ++ is.reverse ++ i :: p by simp]
      exact h₂ hb q

section Unmap

variable (hdec : Decoder b dec) (h : Sound b dec s L out) (virt : Word)
  (hclean : Clean dec s.ent 0 (s.root b) (upperPath virt))

include hdec h hclean in
/-- **`unmap_page` on a clean path**: nothing to do, or a leaf that is cleared. -/
theorem unmapPage_spec :
    (s.unmapPage b virt = s ∧ s.find b dec (pathOf virt) = none) ∨
    ∃ pt, s.node b dec (upperPath virt).reverse = some pt ∧
      s.unmapPage b virt = setSlot s pt (virt.extractLsb' 12 9) 0 := by
  obtain ⟨hnode, hnone⟩ := tableBelow_spec hdec (upperPath virt) [] (s.root b) rfl hclean
  rw [List.append_nil] at hnode
  rw [unmapPage_eq h.off]
  cases ht : tableBelow s.ent (s.root b) (upperPath virt) with
  | none => exact Or.inl ⟨rfl, hnone ht [virt.extractLsb' 12 9]⟩
  | some pt => exact Or.inr ⟨pt, hnode.trans ht, rfl⟩

include hdec h hclean in
theorem unmapPage_sound : Sound b dec (s.unmapPage b virt) L out := by
  rcases unmapPage_spec hdec h virt hclean with ⟨hrun, _⟩ | ⟨pt, hnode, hrun⟩
  · rw [hrun]
    exact h
  · rw [hrun]
    exact setSlot_sound h hnode rfl

include hdec h hclean in
theorem unmapPage_find (w : Word) :
    (s.unmapPage b virt).find b dec (pathOf w) =
      if pageNumber w = pageNumber virt then none else s.find b dec (pathOf w) := by
  rcases unmapPage_spec hdec h virt hclean with ⟨hrun, hnone⟩ | ⟨pt, hnode, hrun⟩
  · rw [hrun]
    split
    · next hw => rw [(pathOf_eq_iff w virt).mpr hw, hnone]
    · rfl
  · rw [hrun, setSlot_find h hnode rfl (length_pathOf w), reverse_upperPath]
    simp only [pathOf_eq_iff]
    rfl

end Unmap

/-! ### The two walks -/

theorem filter_absent {e : Word} (d : Nat) (h : e &&& ptePresent = 0) :
    Option.filter (fun r : Nat × Word => isPresent r.2) (some (d, e)) = none := by
  simp only [Option.filter, isPresent, h, ne_eq, not_true_eq_false, decide_false, Bool.false_eq_true,
    if_false]

theorem filter_present {e : Word} (d : Nat) (h : e &&& ptePresent ≠ 0) :
    Option.filter (fun r : Nat × Word => isPresent r.2) (some (d, e)) = some (d, e) := by
  simp only [Option.filter, isPresent, h, ne_eq, not_false_eq_true, decide_true, if_true]

theorem find_pathOf (m : Mem) (root v : Word) :
    Radix.find isPresent dec (slot m) root (pathOf v) =
      Option.filter (fun r => isPresent r.2)
        (match dec 0 (slot m root (v.extractLsb' 39 9)) with
        | none => some (0, slot m root (v.extractLsb' 39 9))
        | some f₃ =>
          match dec 1 (slot m f₃ (v.extractLsb' 30 9)) with
          | none => some (1, slot m f₃ (v.extractLsb' 30 9))
          | some f₂ =>
            match dec 2 (slot m f₂ (v.extractLsb' 21 9)) with
            | none => some (2, slot m f₂ (v.extractLsb' 21 9))
            | some f₁ => some (3, slot m f₁ (v.extractLsb' 12 9))) := by
  rw [Radix.find, pathOf]
  congr 1
  cases h₀ : dec 0 (slot m root (v.extractLsb' 39 9)) with
  | none => simp [look, Radix.node, h₀]
  | some f₃ =>
    cases h₁ : dec 1 (slot m f₃ (v.extractLsb' 30 9)) with
    | none => simp [look, Radix.node, h₀, h₁]
    | some f₂ =>
      cases h₂ : dec 2 (slot m f₂ (v.extractLsb' 21 9)) with
      | none => simp [look, Radix.node, h₀, h₁, h₂]
      | some f₁ => simp [look, Radix.node, h₀, h₁, h₂]

/-- The kernel's walk is the walk of the radix table with the kernel's mask. -/
theorem walk_eq_find (b : Limine) (s : Vmm) (v : Word) :
    walk s.pmm.mem (s.root b) v = (s.find b decSw (pathOf v)).map Prod.snd := by
  rw [Vmm.find, show s.ent = slot s.pmm.mem from rfl, find_pathOf, walk]
  simp only [decSw]
  split
  · next h => rw [filter_absent 0 h, Option.map_none]
  · simp only
    split
    · next h => rw [filter_absent 1 h, Option.map_none]
    · simp only
      split
      · next h => rw [filter_absent 2 h, Option.map_none]
      · simp only
        split
        · next h => rw [filter_absent 3 h, Option.map_none]
        · next h => rw [filter_present 3 h, Option.map_some]

/-- The hardware translation is the walk of the radix table with the hardware's
reading of entries. -/
theorem mmuWalk_eq_find (b : Limine) (s : Vmm) (v : Word) :
    mmuWalk s.pmm.mem (s.root b) v = s.find b decHw (pathOf v) := by
  rw [Vmm.find, show s.ent = slot s.pmm.mem from rfl, find_pathOf, mmuWalk]
  simp only [decHw, ne_eq, not_true_eq_false, false_and, if_false, one_ne_zero, not_false_eq_true,
    true_and, OfNat.ofNat_ne_zero]
  split
  · next h => rw [filter_absent 0 h]
  · simp only
    split
    · next h => rw [filter_absent 1 h]
    · next h₁ =>
      split
      · rw [filter_present 1 h₁]
      · simp only
        split
        · next h => rw [filter_absent 2 h]
        · next h₂ =>
          split
          · rw [filter_present 2 h₂]
          · simp only
            split
            · next h => rw [filter_absent 3 h]
            · next h => rw [filter_present 3 h]

end AncoreOS.Mm
