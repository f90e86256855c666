import AncoreOS.Drivers.SataSearch

/-!
# The block that the search reads

The word 117 of the IDENTIFY data counts as the size of a sector: the buffer is rounded up
to it and the count of sectors is computed with it, while the reader transfers 512 bytes for
each of them.  `search_read_iff` says for which words the transfer fits into the buffer and
goes beyond the GUID at `0x8E * 4`.
-/

namespace AncoreOS.Drivers

open ByteMemory AncoreOS.Mm

/-- The transfer reaches the end of the GUID and stays in the buffer. -/
def Suffices (r : SearchRead) : Prop :=
  572 ≤ 512 * r.count.toNat ∧ 512 * r.count.toNat ≤ r.size.toNat

instance (r : SearchRead) : Decidable (Suffices r) := inferInstanceAs (Decidable (_ ∧ _))

/-- In every run the reads that a word leads to suffice. -/
def WordSuffices (word : BitVec 16) : Prop :=
  ∀ (σ : Type) (M : Mmio σ) (virtToPhys : Word → Word) (heap : Nat → Word → Word) (fuel : Nat)
    (mmioBase : BitVec 32) (s : Search σ),
    ∀ r ∈ (reached (sataSearch M virtToPhys heap fuel mmioBase { s with reads := [] })).reads,
      r.word = word → Suffices r

/-! ### The reads of a run -/

section Run

variable {σ : Type*}

theorem reads_after {P : List SearchRead → Prop} {s : Search σ} (h : P s.reads)
    (x : Except (Io σ) (Int × Io σ)) :
    Ends (fun s' => P s'.reads) (fun s' => P s'.reads) (s.after x) := by
  cases x with
  | error io => exact h
  | ok r => exact h

section Kept

variable (M : Mmio σ) (virtToPhys : Word → Word) (heap : Nat → Word → Word) (fuel : Nat)
  {P : List SearchRead → Prop} (hstep : ∀ r reads, r = searchRead r.word → P reads → P (r :: reads))
include hstep

theorem reads_searchSata (portBase : Word) {s : Search σ} (h : P s.reads) :
    Ends (fun s' => P s'.reads) (fun s' => P s'.reads) (searchSata M heap fuel portBase s) := by
  unfold searchSata
  refine Ends.bind (reads_after (P := P) ?_ _) fun s' hs' => ?_
  · exact h
  refine Ends.map (reads_after (P := P) ?_ _) fun s' hs' => hs'
  exact hstep _ _ rfl hs'

theorem reads_searchPort (mmioBase pi : BitVec 32) (p : Nat) {s : Search σ} (h : P s.reads) :
    Ends (fun s' => P s'.reads) (fun s' => P s'.reads)
      (searchPort M virtToPhys heap fuel mmioBase pi p s) := by
  unfold searchPort
  split
  · exact h
  dsimp only
  split
  · exact h
  split
  · exact reads_searchSata M heap fuel hstep _ h
  split
  · exact h
  split
  · exact h
  split
  · exact h
  · exact h

theorem reads_searchPorts (mmioBase pi : BitVec 32) (ports : List Nat) {s : Search σ}
    (h : P s.reads) : P (reached (searchPorts M virtToPhys heap fuel mmioBase pi ports s)).reads := by
  refine Ends.reached (P := fun s' => P s'.reads) ?_
  refine ends_searchPorts M virtToPhys heap fuel mmioBase pi ports s ?_ h
  exact fun p _ s hs => reads_searchPort M virtToPhys heap fuel hstep mmioBase pi p hs

end Kept

/-- The read of an idle port, with what its last poll has left. -/
theorem searchSata_idle {M : Mmio σ} {p : Word} (hcmd : ∀ io : Io σ, (io.readl M (p + portCmd)).1 = 0)
    (hci : ∀ io : Io σ, (io.readl M (p + portCi)).1 = 0) (heap : Nat → Word → Word) (fuel : Nat)
    (s : Search σ) : ∃ io₀ : Io σ,
      let r := searchRead (BitVec.ofNat 16
        (load (io₀.readl M (p + portCi)).2.mem (heap s.mallocs 512 + 2 * 117) 2))
      Ends (fun s' => r ∈ s'.reads) (fun s' => r ∈ s'.reads) (searchSata M heap (fuel + 1) p s) := by
  obtain ⟨io₀, hidentify⟩ := sataAhciIdentifyFrom_idle hcmd hci fuel
    (heap (s.mallocs + 1) (BitVec.ofNat 64 ahciPortMemSize)) (heap s.mallocs 512) s.io
  refine ⟨io₀, ?_⟩
  simp only [searchSata, Search.malloc, hidentify]
  exact (reads_after (P := (_ ∈ ·)) List.mem_cons_self _).map fun s' hr => hr

end Run

/-! ### Sizes and counts -/

/-- The bits of a mask and the others. -/
theorem and_not_add_and (x m : Word) : (x &&& ~~~m) + (x &&& m) = x := by
  have hzero : (x &&& ~~~m) &&& (x &&& m) = 0 := by
    ext i
    simp
    grind
  have hor : (x &&& ~~~m) ||| (x &&& m) = x := by
    ext i
    simp
    grind
  rw [BitVec.add_eq_or_of_and_eq_zero _ _ hzero, hor]

/-- The rounding takes less than the size of a sector away. -/
theorem alignUp_600 {s : Word} (hpos : 1 ≤ s.toNat) (hle : s.toNat ≤ 65535) :
    600 ≤ (alignUp 600 s).toNat ∧ (alignUp 600 s).toNat ≤ 599 + s.toNat := by
  have hmask : (s - 1).toNat = s.toNat - 1 := by
    rw [BitVec.toNat_sub_of_le (show (1 : Word).toNat ≤ s.toNat from hpos)]
    rfl
  have hsum : (600 + (s - 1)).toNat = 599 + s.toNat := by
    rw [BitVec.toNat_add, hmask, show (600 : Word).toNat = 600 from rfl]
    omega
  have hparts := congrArg BitVec.toNat (and_not_add_and (600 + (s - 1)) (s - 1))
  have hcut : ((600 + (s - 1)) &&& (s - 1)).toNat ≤ s.toNat - 1 := by
    rw [BitVec.toNat_and, hmask]
    exact Nat.and_le_right
  have hrest : ((600 + (s - 1)) &&& ~~~(s - 1)).toNat ≤ 599 + s.toNat := by
    rw [BitVec.toNat_and, hsum]
    exact Nat.and_le_left
  rw [BitVec.toNat_add, hsum] at hparts
  unfold alignUp
  omega

/-- Sizes around 512. -/
theorem suffices_of_small : ∀ w < 600, 200 < w →
    (Suffices (searchRead (BitVec.ofNat 16 w)) ↔ 425 ≤ w ∧ w ≤ 596) := by
  decide +kernel

theorem suffices_searchRead_iff (word : BitVec 16) :
    Suffices (searchRead word) ↔ word = 0 ∨ (425 ≤ word.toNat ∧ word.toNat ≤ 596) := by
  by_cases hzero : word = 0
  · subst hzero
    decide
  have hlt := word.isLt
  have hpos : word.toNat ≠ 0 := fun h => hzero (BitVec.eq_of_toNat_eq h)
  rw [or_iff_right hzero]
  by_cases hmid : 200 < word.toNat ∧ word.toNat < 600
  · have hsmall := suffices_of_small word.toNat hmid.2 hmid.1
    rwa [BitVec.ofNat_toNat, BitVec.setWidth_eq] at hsmall
  · have hsize : (searchSectorSize word).toNat = word.toNat := by
      rw [searchSectorSize, if_pos hzero, BitVec.toNat_setWidth, Nat.mod_eq_of_lt (by omega)]
    obtain ⟨hlow, hhigh⟩ := alignUp_600 (show 1 ≤ (searchSectorSize word).toNat by omega) (by omega)
    rw [hsize] at hhigh
    have hcount : (searchRead word).count.toNat =
        (alignUp 600 (searchSectorSize word)).toNat / word.toNat := by
      have hquot : (alignUp 600 (searchSectorSize word)).toNat / word.toNat ≤ 600 :=
        Nat.div_le_of_le_mul (by omega)
      rw [searchRead, BitVec.toNat_setWidth, BitVec.toNat_udiv, hsize, Nat.mod_eq_of_lt (by omega)]
    rw [Suffices, hcount, show (searchRead word).size = alignUp 600 (searchSectorSize word) from rfl]
    -- a small size asks for too many sectors, and a large one for too few
    by_cases hsmall : word.toNat ≤ 200
    · have hquot : 3 ≤ (alignUp 600 (searchSectorSize word)).toNat / word.toNat :=
        (Nat.le_div_iff_mul_le (by omega)).mpr (by omega)
      omega
    · have hquot : (alignUp 600 (searchSectorSize word)).toNat / word.toNat < 2 :=
        Nat.div_lt_of_lt_mul (by omega)
      omega

/-! ### A drive for every word -/

/-- A drive whose accesses leave `word` in the buffer at `0x10000`. -/
def wordPort (word : BitVec 16) : Mmio Unit :=
  onePort 0xFEBF0000 1 0 fun mem => store mem (0x10000 + 2 * 117) 2 word.toNat

theorem exists_read (word : BitVec 16) :
    searchRead word ∈ (reached (sataSearch (wordPort word) (fun x => x) exampleHeap 1 0xFEBF0000
      { exampleSearch with reads := [] })).reads := by
  let M := wordPort word
  have hport : ∀ s : Search Unit, s.mallocs = 0 →
      Ends (fun s' => searchRead word ∈ s'.reads) (fun s' => searchRead word ∈ s'.reads)
        (searchPort M (fun x => x) exampleHeap 1 0xFEBF0000 1 0 s) := by
    intro s hs
    obtain ⟨s', hmallocs, hbranch⟩ := searchPort_sata (M := M) (fun x => x) exampleHeap 1
      0xFEBF0000 (n := 0) (show (1 : BitVec 32) &&& (1 <<< 0) ≠ 0 by decide) (fun _ => rfl)
      (fun _ => rfl) s
    obtain ⟨io₀, hread⟩ := searchSata_idle (M := M) (p := searchPortBase 0xFEBF0000 0)
      (fun _ => rfl) (fun _ => rfl) exampleHeap 0 s'
    have hbuffer : exampleHeap s'.mallocs 512 = 0x10000 := by
      rw [hmallocs, hs]
      rfl
    have hword : load (io₀.readl M (searchPortBase 0xFEBF0000 0 + portCi)).2.mem
        (0x10000 + 2 * 117) 2 = word.toNat % 256 ^ 2 := load_store_same _ _ _ (by decide)
    have hlt : word.toNat < 256 ^ 2 := word.isLt
    rw [hbuffer, hword, Nat.mod_eq_of_lt hlt, BitVec.ofNat_toNat, BitVec.setWidth_eq] at hread
    rw [hbranch]
    exact hread
  refine Ends.reached ((hport _ rfl).bind fun s' hr => ?_)
  refine ends_searchPorts M _ _ _ _ _ _ s' (fun p _ s hs => ?_) hr
  exact reads_searchPort (P := (searchRead word ∈ ·)) M _ _ _
    (fun r reads _ h => List.mem_cons_of_mem r h) _ _ p hs

/-- **The words for which the read suffices.** -/
theorem search_read_iff (word : BitVec 16) :
    WordSuffices word ↔ word = 0 ∨ (425 ≤ word.toNat ∧ word.toNat ≤ 596) := by
  rw [← suffices_searchRead_iff]
  constructor
  · intro h
    exact h Unit (wordPort word) (fun x => x) exampleHeap 1 0xFEBF0000
      exampleSearch (searchRead word) (exists_read word) rfl
  · intro h σ M virtToPhys heap fuel mmioBase s r hr hword
    have hall := reads_searchPorts (P := fun reads => ∀ r ∈ reads, r = searchRead r.word) M virtToPhys
      heap fuel (fun r reads hr h => List.forall_mem_cons.mpr ⟨hr, h⟩) mmioBase
      (s.io.readl M (searchPi mmioBase)).1 (List.range 32)
      (s := { s with io := (s.io.readl M (searchPi mmioBase)).2, reads := [] })
      fun r hr => absurd hr List.not_mem_nil
    rw [hall r hr, hword]
    exact h

/-- With sectors of 1024 bytes one sector is asked for, and its 512 bytes end before the GUID. -/
theorem exampleWord_not_suffices : ¬WordSuffices 1024 := by
  intro h
  have hsuffices := h Unit (wordPort 1024) (fun x => x) exampleHeap 1 0xFEBF0000
    exampleSearch (searchRead 1024) (exists_read 1024) rfl
  exact absurd hsuffices (by decide)

end AncoreOS.Drivers
