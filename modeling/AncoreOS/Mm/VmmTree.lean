import AncoreOS.Library.Radix
import AncoreOS.Mm.PmmInvariant
import AncoreOS.Mm.Vmm

/-!
# The page tables as a radix tree

The page tables are a radix table (`Library/Radix.lean`): `slot m` reads an
entry, and a decoder reads an entry as a table.  There are two decoders,
`decSw` for the mask the kernel uses and `decHw` for the hardware; what is
proved here is proved for both (`Decoder`).

An entry that `map_page` writes for a table (`tableEntry`) is the table's frame
with the present and the writable bit and at most the user bit, so both decoders
read it as that frame.
-/

namespace AncoreOS.Mm

open ByteMemory Radix

variable {b : Limine} {m m' : Mem} {f g : Word} {i j : BitVec 9}

/-! ### Indices and entries -/

theorem and_low9 (x : Word) (k : Nat) : (x >>> k) &&& 0x1FF = (x.extractLsb' k 9).setWidth 64 := by
  refine BitVec.eq_of_getLsbD_eq (fun n hn => ?_)
  have hmask : (0x1FF : Word).getLsbD n = decide (n < 9) := by
    rw [show (0x1FF : Word) = BitVec.ofNat 64 (2 ^ 9 - 1) from rfl, BitVec.getLsbD_ofNat,
      Nat.testBit_two_pow_sub_one]
    simp [hn]
  simp only [BitVec.getLsbD_and, BitVec.getLsbD_ushiftRight, hmask, BitVec.getLsbD_setWidth,
    BitVec.getLsbD_extractLsb', hn, decide_true, Bool.true_and]
  rw [Bool.and_comm]

theorem pml4Index_eq (v : Word) : pml4Index v = (v.extractLsb' 39 9).setWidth 64 := and_low9 v 39
theorem pdptIndex_eq (v : Word) : pdptIndex v = (v.extractLsb' 30 9).setWidth 64 := and_low9 v 30
theorem pdIndex_eq (v : Word) : pdIndex v = (v.extractLsb' 21 9).setWidth 64 := and_low9 v 21
theorem ptIndex_eq (v : Word) : ptIndex v = (v.extractLsb' 12 9).setWidth 64 := and_low9 v 12

theorem pageNumber_toNat (v : Word) : (pageNumber v).toNat = v.toNat / 4096 % 2 ^ 36 := by
  rw [pageNumber, BitVec.extractLsb'_toNat, Nat.shiftRight_eq_div_pow]

/-- Two addresses take the same path exactly when they lie in the same page. -/
theorem pathOf_eq_iff (v w : Word) : pathOf v = pathOf w ↔ pageNumber v = pageNumber w := by
  have hbit : ∀ (u : Word) (k n : Nat), n < 9 →
      (u.extractLsb' k 9).getLsbD n = u.getLsbD (k + n) := by
    intro u k n hn
    rw [BitVec.getLsbD_extractLsb']
    simp [hn]
  constructor
  · intro h
    simp only [pathOf, List.cons.injEq, and_true] at h
    obtain ⟨h₁, h₂, h₃, h₄⟩ := h
    refine BitVec.eq_of_getLsbD_eq (fun n hn => ?_)
    simp only [pageNumber, BitVec.getLsbD_extractLsb', hn, decide_true, Bool.true_and]
    have hpart : ∀ k, v.extractLsb' k 9 = w.extractLsb' k 9 → k ≤ 12 + n → 12 + n < k + 9 →
        v.getLsbD (12 + n) = w.getLsbD (12 + n) := by
      intro k hk h₁ h₂
      have := congrArg (fun x => BitVec.getLsbD x (12 + n - k)) hk
      simp only [hbit _ k _ (show 12 + n - k < 9 by omega)] at this
      rwa [show k + (12 + n - k) = 12 + n by omega] at this
    by_cases h9 : n < 9
    · exact hpart 12 h₁ (by omega) (by omega)
    by_cases h18 : n < 18
    · exact hpart 21 h₂ (by omega) (by omega)
    by_cases h27 : n < 27
    · exact hpart 30 h₃ (by omega) (by omega)
    · exact hpart 39 h₄ (by omega) (by omega)
  · intro h
    have hpart : ∀ k, 12 ≤ k → k + 9 ≤ 48 → v.extractLsb' k 9 = w.extractLsb' k 9 := by
      intro k h₁ h₂
      refine BitVec.eq_of_getLsbD_eq (fun n hn => ?_)
      rw [hbit v k n hn, hbit w k n hn]
      have := congrArg (fun x => BitVec.getLsbD x (k + n - 12)) h
      simp only [pageNumber, BitVec.getLsbD_extractLsb', show k + n - 12 < 36 by omega,
        decide_true, Bool.true_and] at this
      rwa [show 12 + (k + n - 12) = k + n by omega] at this
    rw [pathOf, pathOf, hpart 12 (by omega) (by omega), hpart 21 (by omega) (by omega),
      hpart 30 (by omega) (by omega), hpart 39 (by omega) (by omega)]

theorem slot_offset (i : BitVec 9) : 8 * i.setWidth 64 = BitVec.ofNat 64 (8 * i.toNat) := by
  apply BitVec.eq_of_toNat_eq
  have := i.isLt
  rw [BitVec.toNat_mul, BitVec.toNat_setWidth, BitVec.toNat_ofNat,
    show (8 : Word).toNat = 8 from rfl]
  omega

/-- The bytes of an entry lie in the page of its table. -/
theorem pageOf_of_slot {x : Word} (hf : PageAligned f) (h : InRange (f + 8 * i.setWidth 64) 8 x) :
    pageOf x = f := by
  rw [slot_offset] at h
  exact pageOf_of_inRange hf h (by have := i.isLt; omega)

theorem slot_congr (hf : PageAligned f) (h : ∀ x, pageOf x = f → m' x = m x) :
    slot m' f i = slot m f i :=
  load64_congr (fun x hx => h x (pageOf_of_slot hf hx))

theorem slot_store_same (m : Mem) (f v : Word) (i : BitVec 9) :
    slot (store64 m (f + 8 * i.setWidth 64) v) f i = v := load64_store64_same _ _ _

theorem slot_store_of_ne_index {v : Word} (h : j ≠ i) :
    slot (store64 m (f + 8 * i.setWidth 64) v) f j = slot m f j := by
  refine load64_store64_of_disjoint (fun x hx => ?_)
  have hne : j.toNat ≠ i.toNat := fun he => h (BitVec.eq_of_toNat_eq he)
  have := i.isLt
  have := j.isLt
  rw [slot_offset] at hx ⊢
  exact not_inRange_of_offset hx (by omega) (by omega) (by omega)

theorem store_slot_apply {v x : Word} (hf : PageAligned f) (hx : pageOf x ≠ f) :
    store64 m (f + 8 * i.setWidth 64) v x = m x :=
  store_apply_of_not_inRange (fun h => hx (pageOf_of_slot hf h))

theorem slot_store_of_ne {v : Word} (hf : PageAligned f) (hg : PageAligned g)
    (h : g = f → j ≠ i) : slot (store64 m (f + 8 * i.setWidth 64) v) g j = slot m g j := by
  by_cases he : g = f
  · subst he
    exact slot_store_of_ne_index (h rfl)
  · refine slot_congr hg (fun x hx => store_slot_apply hf ?_)
    rw [hx]
    exact he

theorem fill_page_apply {x : Word} (hf : PageAligned f) (hx : pageOf x ≠ f) :
    fill m f 4096 0 x = m x :=
  fill_apply_of_not_inRange (fun h => hx ((pageOf_eq_iff_inRange hf).mpr h))

theorem slot_fill_same (hf : PageAligned f) (i : BitVec 9) : slot (fill m f 4096 0) f i = 0 :=
  load64_fill_zero (fun _ hx => (pageOf_eq_iff_inRange hf).mp (pageOf_of_slot hf hx))

/-! ### Decoders -/

/-- The entry `map_page` writes for the table in frame `g`. -/
def tableEntry (g u : Word) : Word := g ||| ptePresent ||| pteWritable ||| u

/-- The kernel's reading of an entry: everything but the low twelve bits. -/
def decSw (_ : Nat) (e : Word) : Option Word :=
  if e &&& ptePresent = 0 then none else some (e &&& ~~~0xFFF)

/-- The hardware's reading of an entry, which stops at a huge page. -/
def decHw (d : Nat) (e : Word) : Option Word :=
  if e &&& ptePresent = 0 then none else
  if d ≠ 0 ∧ e &&& pteHuge ≠ 0 then none else some (e &&& addressMask)

/-- What a reading of entries has to agree on: an entry that is not present is no
table, and an entry written by `map_page` is its table. -/
structure Decoder (b : Limine) (dec : Nat → Word → Option Word) : Prop where
  absent : ∀ d e, e &&& ptePresent = 0 → dec d e = none
  built : ∀ d g u, b.UsableFrame g → u = 0 ∨ u = pteUser → dec d (tableEntry g u) = some g

theorem tableEntry_and {u : Word} (c : Word) :
    tableEntry g u &&& c = (g &&& c) ||| (3 &&& c) ||| (u &&& c) := by
  rw [tableEntry, BitVec.or_assoc g ptePresent pteWritable, BitVec.and_or_distrib_right,
    BitVec.and_or_distrib_right]
  rfl

theorem tableEntry_frame (hg : PageAligned g) {u : Word} (hu : u = 0 ∨ u = pteUser) :
    tableEntry g u &&& ~~~0xFFF = g := by
  have h : g &&& ~~~0xFFF = g := pageOf_eq_self hg
  rw [tableEntry_and, h]
  rcases hu with rfl | rfl
  · rw [show (3 : Word) &&& ~~~0xFFF = 0 by decide, show (0 : Word) &&& ~~~0xFFF = 0 by decide]
    simp
  · rw [show (3 : Word) &&& ~~~0xFFF = 0 by decide, show pteUser &&& ~~~0xFFF = 0 by decide]
    simp

theorem tableEntry_present (hg : PageAligned g) {u : Word} (hu : u = 0 ∨ u = pteUser) :
    tableEntry g u &&& ptePresent ≠ 0 := by
  rw [tableEntry_and, hg.and_low (by decide)]
  rcases hu with rfl | rfl <;> decide

theorem tableEntry_huge (hg : PageAligned g) {u : Word} (hu : u = 0 ∨ u = pteUser) :
    tableEntry g u &&& pteHuge = 0 := by
  rw [tableEntry_and, hg.and_low (by decide)]
  rcases hu with rfl | rfl <;> decide

theorem and_addressMask (hg : PageAligned g) (hlt : g.toNat < 2 ^ 52) : g &&& addressMask = g := by
  have hlow : g &&& BitVec.ofNat 64 (2 ^ 52 - 1) = g := by
    apply BitVec.eq_of_toNat_eq
    rw [BitVec.toNat_and, BitVec.toNat_ofNat, Nat.mod_eq_of_lt (by decide),
      Nat.and_two_pow_sub_one_eq_mod, Nat.mod_eq_of_lt hlt]
  have hpage : g &&& ~~~0xFFF = g := pageOf_eq_self hg
  rw [show addressMask = ~~~0xFFF &&& BitVec.ofNat 64 (2 ^ 52 - 1) by decide, ← BitVec.and_assoc,
    hpage, hlow]

theorem decoder_decSw (b : Limine) : Decoder b decSw where
  absent := fun _ _ h => if_pos h
  built := fun _ g u hg hu => by
    rw [decSw, if_neg (tableEntry_present hg.aligned hu), tableEntry_frame hg.aligned hu]

/-- The hardware agrees when every frame is below the architectural limit of
physical addresses. -/
theorem decoder_decHw (hphys : ∀ f, b.UsableFrame f → f.toNat < 2 ^ 52) : Decoder b decHw where
  absent := fun _ _ h => if_pos h
  built := fun d g u hg hu => by
    have hframe : tableEntry g u &&& addressMask = g := by
      rw [tableEntry_and, and_addressMask hg.aligned (hphys g hg)]
      rcases hu with rfl | rfl
      · rw [show (3 : Word) &&& addressMask = 0 by decide,
          show (0 : Word) &&& addressMask = 0 by decide]
        simp
      · rw [show (3 : Word) &&& addressMask = 0 by decide,
          show pteUser &&& addressMask = 0 by decide]
        simp
    rw [decHw, if_neg (tableEntry_present hg.aligned hu),
      if_neg (fun h => h.2 (tableEntry_huge hg.aligned hu)), hframe]

/-- The presence bit, as the mark of a walk that ends at a translation. -/
def isPresent (e : Word) : Bool := decide (e &&& ptePresent ≠ 0)

end AncoreOS.Mm
