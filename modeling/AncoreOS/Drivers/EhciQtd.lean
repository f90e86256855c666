import AncoreOS.Drivers.EhciPages

/-!
# Transfer descriptors

A transfer descriptor tells the controller how many bytes to move and, with one pointer for each
page of the buffer, where they are.  What `ehci_submit_bulk_simple` has built is read off the words
of its page.

The loop that fills in the pointers asks for one when the length goes beyond the pages before it,
and forgets that the buffer need not start at the start of a page: the pointer for the last page
is there exactly when the buffer does not reach into one more page than its length makes
(`bulk_qtd_describes_iff`).
-/

namespace AncoreOS.Drivers

open ByteMemory AncoreOS.Mm

/-! ### The descriptor of a bulk transfer -/

/-- `qtd_t`. -/
structure Qtd where
  next : BitVec 32
  altNext : BitVec 32
  token : BitVec 32
  buffer : Fin 5 → BitVec 32

/-- The descriptor at an offset of a page. -/
def qtdAt (m : Mem) (page : Word) (o : Nat) : Qtd where
  next := load32 m (page + BitVec.ofNat 64 o)
  altNext := load32 m (page + BitVec.ofNat 64 (o + 4))
  token := load32 m (page + BitVec.ofNat 64 (o + 8))
  buffer i := load32 m (page + BitVec.ofNat 64 (o + 12 + 4 * i.val))

/-- The bytes that are to be moved. -/
def Qtd.totalBytes (q : Qtd) : Nat := ((q.token >>> 16) &&& 0x7FFF).toNat

/-- The descriptor is for the bytes of a buffer: it has their number, and for each of them the
page pointer that the controller uses is the page of the byte. -/
structure Qtd.Describes (q : Qtd) (bufPhys len : Nat) : Prop where
  bytes : q.totalBytes = len
  pages : ∀ j < len, ∃ i : Fin 5, i.val = (bufPhys % 4096 + j) / 4096 ∧
    (q.buffer i).toNat / 4096 = (bufPhys + j) / 4096

section Bulk

variable {page bufPhys len : Word} {devaddr epAddr : BitVec 8} {dirIn : Bool} {m : Mem}

/-- The token that the descriptor gets. -/
def bulkToken (len : Word) (dirIn : Bool) : BitVec 32 :=
  (1#32 <<< 7) ||| (len <<< 16).setWidth 32 ||| (3#32 <<< 10) |||
    (if dirIn then pidIn else pidOut) <<< 8

/-- A word of the descriptor: what is written first, and what the loop of the page pointers writes. -/
theorem load32_bulkSetup {o : Nat} (ho : o % 4 = 0) (hfirst : 64 ≤ o) (hlast : o + 4 ≤ 96) :
    load32 (bulkSetup page bufPhys devaddr epAddr len dirIn m) (page + BitVec.ofNat 64 o) =
      [1, 2, 3, 4].foldl (fun v i =>
          if len.toNat > i * 4096 then
            if 76 + 4 * i = o then
              (bufPhys + BitVec.ofNat 64 (i * 4096)).setWidth 32 &&& ~~~0xFFF
            else v
          else v)
        ([(64, 0x1#32), (68, 0x1), (72, bulkToken len dirIn), (76, bufPhys.setWidth 32)].foldl
          (fun v w => if w.1 = o then w.2 else v) 0) := by
  have hclear : load32 (fill (fill m page 64 0) (page + 64) 32 0) (page + BitVec.ofNat 64 o) = 0 :=
    @load32_fill_zero page _ o 64 32 hfirst hlast (by decide)
  have hmore : ∀ w ∈ ([1, 2, 3, 4].filter fun i => len.toNat > i * 4096).map fun i =>
      (76 + 4 * i, (bufPhys + BitVec.ofNat 64 (i * 4096)).setWidth 32 &&& ~~~0xFFF),
      w.1 % 4 = 0 ∧ w.1 < 4096 := by
    intro w hw
    obtain ⟨i, hi, rfl⟩ := List.mem_map.mp hw
    have hall : ∀ i ∈ [1, 2, 3, 4], (76 + 4 * i) % 4 = 0 ∧ 76 + 4 * i < 4096 := by decide
    exact hall i (List.mem_of_mem_filter hi)
  rw [bulkSetup, load32_copyWords_of_not (by omega) (by omega) (by omega),
    load32_pokes_of_not (by simp; omega) (by omega), load32_pokes_eq_foldl hmore ho (by omega),
    List.foldl_map, List.foldl_filter, load32_pokes_eq_foldl (by simp) ho (by omega), hclear]
  simp only [decide_eq_true_eq]
  rfl

theorem bulkSetup_token :
    load32 (bulkSetup page bufPhys devaddr epAddr len dirIn m) (page + BitVec.ofNat 64 72) =
      bulkToken len dirIn := by
  rw [load32_bulkSetup (by decide) (by decide) (by decide)]
  simp

/-- The page pointers: the first one is the buffer, the others are there for the pages that the
length makes. -/
theorem bulkSetup_buffer (i : Fin 5) :
    (qtdAt (bulkSetup page bufPhys devaddr epAddr len dirIn m) page 64).buffer i =
      if i.val = 0 then bufPhys.setWidth 32
      else if len.toNat > i.val * 4096 then
        (bufPhys + BitVec.ofNat 64 (i.val * 4096)).setWidth 32 &&& ~~~0xFFF
      else 0 := by
  show load32 _ (page + BitVec.ofNat 64 (76 + 4 * i.val)) = _
  rw [load32_bulkSetup (by omega) (by omega) (by omega)]
  fin_cases i <;> simp

/-- The queue head has a copy of the descriptor. -/
theorem load32_overlay {i : Nat} (hi : i < 8) :
    load32 (bulkSetup page bufPhys devaddr epAddr len dirIn m) (page + BitVec.ofNat 64 (16 + 4 * i)) =
      load32 (bulkSetup page bufPhys devaddr epAddr len dirIn m)
        (page + BitVec.ofNat 64 (64 + 4 * i)) := by
  unfold bulkSetup
  exact (load32_copyWords hi (by decide) (by decide) (by decide)).trans
    (load32_copyWords_of_not (by omega) (by decide) (by omega)).symm

theorem bulkSetup_overlay :
    qtdAt (bulkSetup page bufPhys devaddr epAddr len dirIn m) page 16 =
      qtdAt (bulkSetup page bufPhys devaddr epAddr len dirIn m) page 64 := by
  generalize hm : bulkSetup page bufPhys devaddr epAddr len dirIn m = m'
  have hword : ∀ i < 8, load32 m' (page + BitVec.ofNat 64 (16 + 4 * i)) =
      load32 m' (page + BitVec.ofNat 64 (64 + 4 * i)) := by
    intro i hi
    rw [← hm]
    exact load32_overlay hi
  have hbuffer : ∀ i : Fin 5, load32 m' (page + BitVec.ofNat 64 (28 + 4 * i.val)) =
      load32 m' (page + BitVec.ofNat 64 (76 + 4 * i.val)) := by
    intro i
    have h := hword (3 + i.val) (by omega)
    rwa [show 16 + 4 * (3 + i.val) = 28 + 4 * i.val by omega,
      show 64 + 4 * (3 + i.val) = 76 + 4 * i.val by omega] at h
  rw [qtdAt, qtdAt]
  refine (Qtd.mk.injEq ..).mpr ⟨?_, ?_, ?_, ?_⟩
  · exact hword 0 (by decide)
  · exact hword 1 (by decide)
  · exact hword 2 (by decide)
  · exact funext hbuffer

theorem bulkToken_totalBytes (len : Word) (dirIn : Bool) :
    ((bulkToken len dirIn >>> 16) &&& 0x7FFF).toNat = len.toNat % 32768 := by
  have hshift : bulkToken len dirIn >>> 16 = (len <<< 16).setWidth 32 >>> 16 := by
    rw [bulkToken, BitVec.ushiftRight_or_distrib, BitVec.ushiftRight_or_distrib,
      BitVec.ushiftRight_or_distrib, show (1#32 <<< 7) >>> 16 = 0#32 by decide,
      show (3#32 <<< 10) >>> 16 = 0#32 by decide]
    cases dirIn with
    | true =>
      rw [if_pos rfl, show (pidIn <<< 8) >>> 16 = 0#32 by decide, BitVec.zero_or, BitVec.or_zero,
        BitVec.or_zero]
    | false =>
      rw [if_neg (by decide), show (pidOut <<< 8) >>> 16 = 0#32 by decide, BitVec.zero_or,
        BitVec.or_zero, BitVec.or_zero]
  have hmask : (0x7FFF : BitVec 32).toNat = 2 ^ 15 - 1 := rfl
  rw [hshift, BitVec.toNat_and, hmask, Nat.and_two_pow_sub_one_eq_mod, BitVec.toNat_ushiftRight,
    BitVec.toNat_setWidth, BitVec.toNat_shiftLeft, Nat.shiftRight_eq_div_pow, Nat.shiftLeft_eq]
  have := len.isLt
  omega

/-- The page of an address that is masked. -/
theorem page_of_mask (x : BitVec 32) : (x &&& ~~~0xFFF).toNat / 4096 = x.toNat / 4096 := by
  have hshift : (x &&& ~~~0xFFF) >>> 12 = (x >>> 12) &&& (BitVec.ofNat 32 (2 ^ 20 - 1)) := by
    rw [BitVec.ushiftRight_and_distrib]
    rfl
  have hlow : (x >>> 12).toNat % 2 ^ 20 = x.toNat / 4096 := by
    rw [BitVec.toNat_ushiftRight, Nat.shiftRight_eq_div_pow]
    have := x.isLt
    omega
  calc (x &&& ~~~0xFFF).toNat / 4096
      = ((x &&& ~~~0xFFF) >>> 12).toNat := by
        rw [BitVec.toNat_ushiftRight, Nat.shiftRight_eq_div_pow]
    _ = (x >>> 12).toNat % 2 ^ 20 := by
        rw [hshift, BitVec.toNat_and, toNat_ofNat_of_lt (by decide), Nat.and_two_pow_sub_one_eq_mod]
    _ = x.toNat / 4096 := hlow

/-- **The descriptor is for the bytes of the buffer exactly if these reach into no more pages than
their number makes.** -/
theorem bulk_qtd_describes_iff (hlow : bufPhys.toNat < 2 ^ 32 - 20480)
    (hfits : bufPhys.toNat % 4096 + len.toNat ≤ 5 * 4096) :
    (qtdAt (bulkSetup page bufPhys devaddr epAddr len dirIn m) page 64).Describes bufPhys.toNat
        len.toNat ↔
      (len.toNat = 0 ∨ bufPhys.toNat % 4096 + (len.toNat - 1) % 4096 < 4096) := by
  have htotal : (qtdAt (bulkSetup page bufPhys devaddr epAddr len dirIn m) page 64).totalBytes =
      len.toNat := by
    rw [Qtd.totalBytes, show (qtdAt (bulkSetup page bufPhys devaddr epAddr len dirIn m) page 64).token =
      bulkToken len dirIn from bulkSetup_token, bulkToken_totalBytes]
    omega
  have hpointer : ∀ i : Fin 5, len.toNat > i.val * 4096 ∨ i.val = 0 →
      ((qtdAt (bulkSetup page bufPhys devaddr epAddr len dirIn m) page 64).buffer i).toNat / 4096 =
        bufPhys.toNat / 4096 + i.val := by
    intro i hi
    rw [bulkSetup_buffer]
    by_cases hzero : i.val = 0
    · rw [if_pos hzero, BitVec.toNat_setWidth]
      omega
    · have hlen := hi.resolve_right hzero
      rw [if_neg hzero, if_pos hlen, page_of_mask, BitVec.toNat_setWidth, BitVec.toNat_add,
        toNat_ofNat_of_lt (by omega)]
      omega
  constructor
  · intro h
    by_contra hcross
    obtain ⟨hpos, hreach⟩ := not_or.mp hcross
    -- The last byte is in a page that no pointer has been written for.
    obtain ⟨i, hi, hpage⟩ := h.pages (len.toNat - 1) (by omega)
    rw [bulkSetup_buffer, if_neg (by omega), if_neg (by omega)] at hpage
    have hzero : (0 : BitVec 32).toNat / 4096 = 0 := rfl
    omega
  · intro h
    refine ⟨htotal, fun j hj => ⟨⟨(bufPhys.toNat % 4096 + j) / 4096, by omega⟩, rfl, ?_⟩⟩
    rw [hpointer]
    · dsimp only
      omega
    · dsimp only
      omega

end Bulk

/-- A sector at the start of a page. -/
theorem bulk_qtd_describes_sector :
    (qtdAt (bulkSetup 0x3000 0x8000 1 0x81 512 true fun _ => 0) 0x3000 64).Describes
      (0x8000 : Word).toNat (512 : Word).toNat :=
  (bulk_qtd_describes_iff (by decide) (by decide)).mpr (Or.inr (by decide))

/-- A sector at the end of a page, that goes on in the next one. -/
theorem exampleSector_not_described :
    ¬∀ (page bufPhys len : Word) (devaddr epAddr : BitVec 8) (dirIn : Bool) (m : Mem),
      bufPhys.toNat < 2 ^ 32 - 20480 → bufPhys.toNat % 4096 + len.toNat ≤ 5 * 4096 →
      (qtdAt (bulkSetup page bufPhys devaddr epAddr len dirIn m) page 64).Describes bufPhys.toNat
        len.toNat := by
  intro h
  have hsector := h 0x3000 0x8F00 512 1 0x81 true (fun _ => 0) (by decide) (by decide)
  obtain ⟨i, hi, hpage⟩ := hsector.pages 511 (by decide)
  have hnext : i.val = 1 := hi
  have hlen : ¬(512 : Word).toNat > i.val * 4096 := by
    rw [hnext]
    decide
  rw [bulkSetup_buffer, if_neg (by rw [hnext]; decide), if_neg hlen] at hpage
  exact absurd hpage (by decide)

end AncoreOS.Drivers
