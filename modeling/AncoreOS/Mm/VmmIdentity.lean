import AncoreOS.Mm.VmmFrame
import AncoreOS.Mm.VmmRefine

/-!
# Pages mapped at their own address

The registers of a device are mapped at their physical address, page by page and with the
same flags.  `exec_mapSelf` says what the hardware finds after such a run: the leaf of the
last call for the page, or what was there before.

`map_page` puts the address into the leaf as it is.  `leafEntry_flags` says what is left of
it beside the flags, and `MapsSelf` is what should be seen of a page.
-/

namespace AncoreOS.Mm

open ByteMemory

variable {b : Limine} {s : Vmm} {L out : List Word} {flags v w : Word}

/-- The way to the page goes through tables only, and the allocator has the frames for those
that are missing. -/
def VmmOp.Ready (b : Limine) (s : Vmm) : VmmOp → Prop
  | .map virt phys flags =>
    Clean decHw s.ent 0 (s.root b) (upperPath virt) ∧ (VmmOp.map virt phys flags).Enough b s
  | .unmap _ => True

def mapSelf (flags : Word) (vs : List Word) : List VmmOp := vs.map fun v => .map v v flags

/-- **The translations after a run**, by induction on the pages. -/
theorem exec_mapSelf (hb : b.Ok) (hdec : Decoder b decHw) (flags : Word) :
    ∀ (vs : List Word) (s : Vmm) (L out : List Word), Sound b decHw s L out →
      EachStep b (fun s op => op.Ready b s) s (mapSelf flags vs) → ∀ w,
      ((∀ v ∈ vs, pageNumber w ≠ pageNumber v) ∧
          (exec b s (mapSelf flags vs)).find b decHw (pathOf w) = s.find b decHw (pathOf w)) ∨
        ∃ v ∈ vs, pageNumber w = pageNumber v ∧
          (exec b s (mapSelf flags vs)).find b decHw (pathOf w) = some (3, leafEntry (v, flags)) := by
  intro vs
  induction vs with
  | nil => exact fun s L out _ _ w => Or.inl ⟨List.forall_mem_nil _, rfl⟩
  | cons v vs ih =>
    intro s L out h hready w
    obtain ⟨⟨hclean, henough⟩, hrest⟩ := hready
    have hneed : needed s.ent (s.root b) (upperPath v) ≤ L.length := by
      rw [← h.pmm.list.free]
      exact henough
    obtain ⟨L', out', hnext⟩ := mapPage_sound hb hdec h v v flags hclean hneed
    have hfind := mapPage_find hb hdec h v v flags hclean hneed w
    rcases ih (s.mapPage b v v flags) L' out' hnext hrest w with ⟨hother, hkept⟩ | ⟨v', hv', hpage, hleaf⟩
    · by_cases hw : pageNumber w = pageNumber v
      · rw [if_pos hw] at hfind
        exact Or.inr ⟨v, List.mem_cons_self, hw, hkept.trans hfind⟩
      · rw [if_neg hw] at hfind
        exact Or.inl ⟨List.forall_mem_cons.mpr ⟨hw, hother⟩, hkept.trans hfind⟩
    · exact Or.inr ⟨v', List.mem_cons_of_mem v hv', hpage, hleaf⟩

/-! ### What is in the leaf -/

/-- `x` translates to itself, by an entry with these flags and no others. -/
def MapsSelf (flags : Word) (b : Limine) (s : Vmm) (x : Word) : Prop :=
  ∃ e, mmuWalk s.pmm.mem (s.root b) x = some (3, e) ∧ (e &&& addressMask) ||| (x &&& 0xFFF) = x ∧
    e &&& ~~~addressMask = flags

theorem and_high_of_lt (hv : v.toNat < 2 ^ 52) : v &&& 0xFFF0000000000000 = 0 := by
  refine BitVec.eq_of_getLsbD_eq fun i hi => ?_
  rw [show (0xFFF0000000000000 : Word) = ~~~BitVec.ofNat 64 (2 ^ 52 - 1) from rfl, BitVec.getLsbD_and,
    BitVec.getLsbD_not, BitVec.getLsbD_ofNat, Nat.testBit_two_pow_sub_one]
  by_cases h : i < 52
  · simp [h]
  · have hbit : v.getLsbD i = false :=
      Nat.testBit_lt_two_pow (lt_of_lt_of_le hv (Nat.pow_le_pow_right (by decide) (not_lt.mp h)))
    rw [hbit, Bool.false_and]
    exact BitVec.getLsbD_zero.symm

theorem leafEntry_frame (hv : v.toNat < 2 ^ 52) (hflags : flags &&& addressMask = 0) :
    leafEntry (v, flags) &&& addressMask = pageOf v := by
  have hpresent : ptePresent &&& addressMask = 0 := by decide
  rw [leafEntry, BitVec.and_comm, BitVec.and_or_distrib_left, BitVec.and_or_distrib_left,
    BitVec.and_comm _ flags, hflags, BitVec.and_comm _ ptePresent, hpresent, BitVec.and_comm,
    and_addressMask_of_high (and_high_of_lt hv)]
  exact BitVec.or_zero.trans BitVec.or_zero

theorem leafEntry_flags (hv : v.toNat < 2 ^ 52) (hflags : flags &&& addressMask = 0) :
    leafEntry (v, flags) &&& ~~~addressMask = (v &&& 0xFFF) ||| flags ||| ptePresent := by
  have hpresent : ~~~addressMask &&& ptePresent = ptePresent := by decide
  have hrest : ~~~addressMask &&& flags = flags := by
    have hparts : (addressMask ||| ~~~addressMask) &&& flags = flags := by
      rw [BitVec.or_not_self]
      exact BitVec.allOnes_and
    rw [BitVec.and_comm, BitVec.and_or_distrib_left, hflags, BitVec.and_comm flags] at hparts
    exact BitVec.zero_or.symm.trans hparts
  have hlow : ~~~addressMask &&& v = v &&& 0xFFF := by
    rw [show ~~~addressMask = 0xFFF0000000000000 ||| 0xFFF from rfl, BitVec.and_comm,
      BitVec.and_or_distrib_left, and_high_of_lt hv]
    exact BitVec.zero_or
  rw [leafEntry, BitVec.and_comm, BitVec.and_or_distrib_left, BitVec.and_or_distrib_left, hlow, hrest,
    hpresent]

/-- A leaf whose low bits go up in the flags maps each address of its page to itself. -/
theorem mapsSelf_of_find (hfind : s.find b decHw (pathOf w) = some (3, leafEntry (v, flags)))
    (hpage : pageOf w = pageOf v) (hv : v.toNat < 2 ^ 52) (hflags : flags &&& addressMask = 0)
    (hlow : (v &&& 0xFFF) ||| flags ||| ptePresent = flags) : MapsSelf flags b s w := by
  refine ⟨leafEntry (v, flags), (mmuWalk_eq_find b s w).trans hfind, ?_, ?_⟩
  · rw [leafEntry_frame hv hflags, ← hpage, pageOf, ← BitVec.and_or_distrib_left,
      show (~~~0xFFF#64 ||| 0xFFF : Word) = BitVec.allOnes 64 from rfl]
    exact BitVec.and_allOnes
  · rw [leafEntry_flags hv hflags, hlow]

theorem and_low_eq (v : Word) : v &&& 0xFFF = BitVec.ofNat 64 (v.toNat % 4096) := by
  apply BitVec.eq_of_toNat_eq
  rw [BitVec.toNat_and, show (0xFFF : Word).toNat = 2 ^ 12 - 1 from rfl, Nat.and_two_pow_sub_one_eq_mod,
    BitVec.toNat_ofNat]
  omega

theorem pageOf_eq_of_pageNumber (hw : w.toNat < 2 ^ 48) (hv : v.toNat < 2 ^ 48)
    (h : pageNumber w = pageNumber v) : pageOf w = pageOf v := by
  have heq := congrArg BitVec.toNat h
  rw [pageNumber_toNat, pageNumber_toNat] at heq
  apply BitVec.eq_of_toNat_eq
  rw [pageOf_toNat, pageOf_toNat]
  omega

/-! ### A machine where nothing is mapped -/

theorem exampleRam_phys (f : Word) (hf : exampleRam.UsableFrame f) : f.toNat < 2 ^ 52 := by
  rw [exampleRam_usable] at hf
  fin_cases hf <;> decide

theorem exampleRam_fresh : ∃ (s : Vmm) (L : List Word), Sound exampleRam decHw s L [] ∧
    (∀ x, s.find exampleRam decHw (pathOf x) = none) ∧
    ∀ virt phys flags, (VmmOp.map virt phys flags).Ready exampleRam s := by
  obtain ⟨pmm, L, _, hstart, hlen⟩ := exampleRam_start
  have hdec := decoder_decHw exampleRam_phys
  have hjoint := hstart.joint hdec (List.forall_mem_nil _) List.nodup_nil List.not_mem_nil
  refine ⟨_, L, hjoint.sound, fun x => hstart.refines hdec x, fun virt phys flags => ⟨?_, ?_⟩⟩
  · exact hjoint.clean_upperPath hdec virt
  · show needed _ _ (upperPath virt) ≤ (pmmGetFreePages pmm).toNat
    rw [pmmGetFreePages, hstart.inv.list.free, vmmStart_root, vmmStart_ent, needed_of_blank hstart.blank]
    exact le_trans (show (upperPath virt).length ≤ 4 from Nat.le_succ 3) hlen

end AncoreOS.Mm
