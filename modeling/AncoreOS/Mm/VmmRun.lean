import AncoreOS.Mm.PmmRun
import AncoreOS.Mm.VmmOom
import AncoreOS.Mm.VmmSpec

/-!
# Every run of the two memory managers

A run interleaves `map_page` and `unmap_page` with the clients of the allocator,
who take pages, give them back and write to what they hold.  `Joint` is the
ownership invariant of the two modules: the tables are sound, every entry above
the page tables is blank or was written by `map_page`, and no table is held by a
client.  `VmmStep.joint` says one step keeps it.

`table_frames_owned` is the result: a frame in use as a PDPT, a PD or a PT has
one entry that points to it, and it is neither the PML4 nor free nor anything
`palloc` returns.
-/

namespace AncoreOS.Mm

open ByteMemory Radix

variable {b : Limine} {dec : Nat → Word → Option Word} {s s' : Vmm} {L out : List Word}

/-! ### Changes outside the tables -/

section Outside

variable (hroot : s'.root b = s.root b)
  (hent : ∀ p f i, p.length ≤ 3 → s.node b dec p = some f → s'.ent f i = s.ent f i)

include hroot hent in
theorem node_of_ent_eq {p : List (BitVec 9)} (hp : p.length ≤ 3) :
    s'.node b dec p = s.node b dec p := by
  rw [Vmm.node, Vmm.node, hroot]
  exact node_congr (fun q f hq hn i => hent q f i (by omega) hn) p hp

include hroot hent in
/-- The tables stay sound when their entries do, whatever happens elsewhere. -/
theorem Sound.of_ent_eq (h : Sound b dec s L out) {L' out' : List Word}
    (hinv : PmmInv b s'.pmm L' out') (hoff : s'.hhdmOffset = s.hhdmOffset)
    (hapart : ∀ p f, p.length ≤ 3 → s.node b dec p = some f → f ∉ L') :
    Sound b dec s' L' out' := by
  refine ⟨hinv, hoff.trans h.off, fun p q f hp hq hnp hnq => ?_, fun p f hp hn => ?_,
    fun p f hp hn => ?_⟩
  · exact h.tree p q f hp hq ((node_of_ent_eq hroot hent hp).symm.trans hnp)
      ((node_of_ent_eq hroot hent hq).symm.trans hnq)
  · rw [node_of_ent_eq hroot hent hp] at hn
    exact h.aligned p f hp hn
  · rw [node_of_ent_eq hroot hent hp] at hn
    exact hapart p f hp hn

end Outside

/-! ### The joint invariant -/

/-- The memory managers and the pages the clients hold. -/
structure VmmRun where
  vmm : Vmm
  held : List Word

/-- An entry above the page tables: blank, or written by `map_page`. -/
def BuiltEntry (b : Limine) (e : Word) : Prop :=
  e = 0 ∨ ∃ g u, b.UsableFrame g ∧ (u = 0 ∨ u = pteUser) ∧ e = tableEntry g u

structure Joint (b : Limine) (dec : Nat → Word → Option Word) (r : VmmRun) (L out : List Word) :
    Prop where
  sound : Sound b dec r.vmm L out
  built : ∀ p f i, p.length < 3 → r.vmm.node b dec p = some f → BuiltEntry b (r.vmm.ent f i)
  heldOut : ∀ f ∈ r.held, f ∈ out
  heldNodup : r.held.Nodup
  apart : ∀ p f, p.length ≤ 3 → r.vmm.node b dec p = some f → f ∉ r.held

/-- In a blank PML4 the root is the only table. -/
theorem VmmStart.node_eq {pmm : Pmm} {cr3 : Word} (hdec : Decoder b dec)
    (h : VmmStart b pmm cr3 L out) {p : List (BitVec 9)} {f : Word}
    (hn : (vmmStart b pmm cr3).node b dec p = some f) : p = [] ∧ f = pageOf cr3 := by
  have hroot := vmmStart_root b pmm cr3
  induction p generalizing f with
  | nil => exact ⟨rfl, by rw [← hroot]; exact (Option.some.inj hn).symm⟩
  | cons i p ih =>
    obtain ⟨f', hn', hd⟩ := exists_parent hn
    obtain ⟨rfl, rfl⟩ := ih hn'
    rw [vmmStart_ent, h.blank i, hdec.absent _ _ (by decide)] at hd
    exact absurd hd.symm (Option.some_ne_none f)

theorem VmmStart.joint {pmm : Pmm} {cr3 : Word} (hdec : Decoder b dec)
    (h : VmmStart b pmm cr3 L out) {held : List Word} (hheld : ∀ f ∈ held, f ∈ out)
    (hnodup : held.Nodup) (hroot : pageOf cr3 ∉ held) :
    Joint b dec ⟨vmmStart b pmm cr3, held⟩ L out := by
  refine ⟨⟨h.inv, rfl, fun p q f _ _ hp hq => ?_, fun p f _ hn => ?_, fun p f _ hn => ?_⟩,
    fun p f i _ hn => ?_, hheld, hnodup, fun p f _ hn => ?_⟩
  · rw [(h.node_eq hdec hp).1, (h.node_eq hdec hq).1]
  · rw [(h.node_eq hdec hn).2]
    exact pageAligned_pageOf cr3
  · rw [(h.node_eq hdec hn).2]
    exact h.apart
  · rw [(h.node_eq hdec hn).2]
    refine Or.inl ?_
    rw [vmmStart_ent, h.blank i]
  · rw [(h.node_eq hdec hn).2]
    exact hroot

/-- In tables that `map_page` built, every path is clean for every decoder. -/
theorem Joint.clean {r : VmmRun} (hdec : Decoder b dec) (h : Joint b dec r L out) :
    ∀ (is p : List (BitVec 9)) (f : Word), r.vmm.node b dec p = some f →
      p.length + is.length ≤ 3 → Clean dec r.vmm.ent p.length f is := by
  intro is
  induction is with
  | nil => intro _ _ _ _; exact trivial
  | cons i is ih =>
    intro p f hn hlen hpres
    rw [List.length_cons] at hlen
    rcases h.built p f i (by omega) hn with h0 | ⟨g, u, hg, hu, he⟩
    · exact absurd (by rw [h0]; decide) hpres
    · have hd : dec p.length (r.vmm.ent f i) = some (r.vmm.ent f i &&& ~~~0xFFF) := by
        rw [he, hdec.built _ g u hg hu, tableEntry_frame hg.aligned hu]
      exact ⟨hd, ih (i :: p) _ ((node_cons_of_some hn).trans hd) (by rw [List.length_cons]; omega)⟩

theorem Joint.clean_upperPath {r : VmmRun} (hdec : Decoder b dec) (h : Joint b dec r L out)
    (v : Word) : Clean dec r.vmm.ent 0 (r.vmm.root b) (upperPath v) :=
  h.clean hdec (upperPath v) [] (r.vmm.root b) rfl (by simp [upperPath])

/-- Writing a leaf keeps the joint invariant. -/
theorem Joint.setSlot {held : List Word} (h : Joint b dec ⟨s, held⟩ L out)
    {p : List (BitVec 9)} {f v : Word} {i : BitVec 9} (hn : s.node b dec p = some f)
    (hp : p.length = 3) : Joint b dec ⟨setSlot s f i v, held⟩ L out := by
  have hsame := (setSlot_leaf (i := i) (v := v) h.sound hn hp).same
  refine ⟨setSlot_sound h.sound hn hp, fun q f' j hq hn' => ?_, h.heldOut, h.heldNodup,
    fun q f' hq hn' => ?_⟩
  · simp only [setSlot_node h.sound hn hp (show q.length ≤ 3 by omega)] at hn'
    have he : (Mm.setSlot s f i v).ent f' j = s.ent f' j := by
      refine hsame q f' j (by omega) hn' ?_
      rintro rfl
      have := h.sound.tree q p f' (by omega) (by omega) hn' hn
      rw [this] at hq
      omega
    show BuiltEntry b ((Mm.setSlot s f i v).ent f' j)
    rw [he]
    exact h.built q f' j hq hn'
  · simp only [setSlot_node h.sound hn hp hq] at hn'
    exact h.apart q f' hq hn'

/-- Growing the tables keeps the joint invariant. -/
theorem Joint.grows {held L' out' : List Word} {u : Word} {ev : List VmmEvent}
    (hu : u = 0 ∨ u = pteUser) (h : Joint b dec ⟨s, held⟩ L out) (hs : Sound b dec s' L' out')
    (hg : Grows b dec u s s' L L' out out' ev) : Joint b dec ⟨s', held⟩ L' out' := by
  have hnew : ∀ e, (e = 0 ∨ ∃ g, b.UsableFrame g ∧ e = tableEntry g u) → BuiltEntry b e := by
    rintro e (he | ⟨g, hg, he⟩)
    · exact Or.inl he
    · exact Or.inr ⟨g, u, hg, hu, he⟩
  refine ⟨hs, fun p f i hp hn => ?_, fun f hf => hg.mono f (h.heldOut f hf), h.heldNodup,
    fun p f hp hn => ?_⟩
  · rcases hg.fresh p f (by omega) hn with hn' | ⟨_, _, _, hent⟩
    · rcases hg.keep p f i (by omega) hn' with he | ⟨_, he⟩
      · show BuiltEntry b (s'.ent f i)
        rw [he]
        exact h.built p f i hp hn'
      · exact hnew _ (Or.inr he)
    · exact hnew _ (hent i)
  · rcases hg.fresh p f hp hn with hn' | ⟨hL, _⟩
    · exact h.apart p f hp hn'
    · exact fun hf => h.sound.pmm.not_mem_out hL (h.heldOut f hf)

/-- Nothing that leaves the tables alone breaks the joint invariant, as long as it
keeps the allocator's and the clients' side of it. -/
theorem Joint.of_ent_eq {held held' L' out' : List Word} (h : Joint b dec ⟨s, held⟩ L out)
    (hroot : s'.root b = s.root b) (hoff : s'.hhdmOffset = s.hhdmOffset)
    (hent : ∀ p f i, p.length ≤ 3 → s.node b dec p = some f → s'.ent f i = s.ent f i)
    (hinv : PmmInv b s'.pmm L' out') (hheld : ∀ f ∈ held', f ∈ out') (hnodup : held'.Nodup)
    (hapart : ∀ p f, p.length ≤ 3 → s.node b dec p = some f → f ∉ L' ∧ f ∉ held') :
    Joint b dec ⟨s', held'⟩ L' out' := by
  refine ⟨h.sound.of_ent_eq hroot hent hinv hoff (fun p f hp hn => (hapart p f hp hn).1),
    fun p f i hp hn => ?_, hheld, hnodup, fun p f hp hn => ?_⟩
  · have hn' := (node_of_ent_eq hroot hent (show p.length ≤ 3 by omega)).symm.trans hn
    show BuiltEntry b (s'.ent f i)
    rw [hent p f i (by omega) hn']
    exact h.built p f i hp hn'
  · exact (hapart p f hp ((node_of_ent_eq hroot hent hp).symm.trans hn)).2

/-! ### One step -/

section Step

variable {held : List Word} (hb : b.Ok) (hdec : Decoder b dec) (h : Joint b dec ⟨s, held⟩ L out)

include hb hdec h in
theorem Joint.mapPage (virt phys flags : Word)
    (hneed : needed s.ent (s.root b) (upperPath virt) ≤ L.length) :
    ∃ L' out', Joint b dec ⟨s.mapPage b virt phys flags, held⟩ L' out' := by
  obtain ⟨s₁, pt, L', out', ev, hs₁, hgrows, hnode, hrun⟩ :=
    mapPage_spec hb hdec h.sound virt phys flags (h.clean_upperPath hdec virt) hneed
  rw [hrun]
  exact ⟨L', out', (h.grows (user_bit flags) hs₁ hgrows).setSlot hnode rfl⟩

include hdec h in
theorem Joint.unmapPage (virt : Word) : Joint b dec ⟨s.unmapPage b virt, held⟩ L out := by
  rcases unmapPage_spec hdec h.sound virt (h.clean_upperPath hdec virt) with
    ⟨hrun, _⟩ | ⟨pt, hnode, hrun⟩
  · rw [hrun]
    exact h
  · rw [hrun]
    exact h.setSlot hnode rfl

include hb h in
theorem Joint.palloc : ∃ L' out', Joint b dec ⟨{ s with pmm := (palloc b s.pmm).2 },
    if (palloc b s.pmm).1 = 0 then held else (palloc b s.pmm).1 :: held⟩ L' out' := by
  have hinv := h.sound.pmm
  cases L with
  | nil =>
    rw [hinv.list.palloc_nil]
    exact ⟨[], out, h⟩
  | cons g L =>
    obtain ⟨pmm, hrun, hinv', hmem⟩ := hinv.palloc
    rw [hrun, if_neg (hinv.ne_zero hb List.mem_cons_self)]
    have hg : g ∉ held := fun hg => hinv.not_mem_out List.mem_cons_self (h.heldOut g hg)
    refine ⟨L, g :: out, h.of_ent_eq rfl rfl (fun p f i _ _ => ?_) hinv' (fun f hf => ?_)
      (List.nodup_cons.mpr ⟨hg, h.heldNodup⟩) (fun p f hp hn => ⟨fun hL => ?_, fun hf => ?_⟩)⟩
    · rw [Vmm.ent, Vmm.ent, hmem]
    · rcases List.mem_cons.mp hf with rfl | hf
      · exact List.mem_cons_self
      · exact List.mem_cons_of_mem g (h.heldOut f hf)
    · exact h.sound.apart p f hp hn (List.mem_cons_of_mem g hL)
    · rcases List.mem_cons.mp hf with rfl | hf
      · exact h.sound.apart p f hp hn List.mem_cons_self
      · exact h.apart p f hp hn hf

include hb h in
theorem Joint.pfree {g : Word} (hg : g ∈ held) :
    Joint b dec ⟨{ s with pmm := pfree b s.pmm g }, held.erase g⟩ (g :: L) (out.erase g) := by
  have hinv := h.sound.pmm
  have hgo := h.heldOut g hg
  have hga : PageAligned g := ((hinv.usable g).mpr (List.mem_append_right L hgo)).aligned
  refine h.of_ent_eq rfl rfl (fun p f i hp hn => ?_) (hinv.pfree hb hgo) (fun f hf => ?_)
    (h.heldNodup.erase g) (fun p f hp hn => ⟨fun hL => ?_, fun hf => ?_⟩)
  · -- a table is not the page given back
    refine slot_congr (h.sound.aligned p f hp hn) (fun x hx => pfree_mem hga ?_)
    rw [hx]
    rintro rfl
    exact h.apart p f hp hn hg
  · obtain ⟨hne, hf⟩ := h.heldNodup.mem_erase_iff.mp hf
    exact (List.mem_erase_of_ne hne).mpr (h.heldOut f hf)
  · rcases List.mem_cons.mp hL with rfl | hL
    · exact h.apart p f hp hn hg
    · exact h.sound.apart p f hp hn hL
  · exact h.apart p f hp hn (List.mem_of_mem_erase hf)

include h in
theorem Joint.write {a : Word} (v : BitVec 8) (ha : pageOf a ∈ held) :
    Joint b dec ⟨{ s with pmm := { s.pmm with mem := Function.update s.pmm.mem a v } }, held⟩
      L out := by
  refine h.of_ent_eq rfl rfl (fun p f i hp hn => ?_) (h.sound.pmm.frame fun x hx => ?_)
    h.heldOut h.heldNodup (fun p f hp hn => ⟨h.sound.apart p f hp hn, h.apart p f hp hn⟩)
  · refine slot_congr (h.sound.aligned p f hp hn) (fun x hx => Function.update_of_ne ?_ _ _)
    rintro rfl
    exact h.apart p f hp hn (hx ▸ ha)
  · refine Function.update_of_ne ?_ _ _
    rintro rfl
    exact h.sound.pmm.not_mem_of_mem_out (h.heldOut _ ha) hx

end Step

/-- On a clean path of sound tables nothing is free. -/
theorem Sound.pathApart (h : Sound b dec s L out) :
    ∀ (is p : List (BitVec 9)) (f : Word), s.node b dec p = some f → p.length + is.length ≤ 3 →
      Clean dec s.ent p.length f is → PathApart s.ent L f is := by
  intro is
  induction is with
  | nil => exact fun p f hn hlen _ => h.apart p f (by simpa using hlen) hn
  | cons i is ih =>
    intro p f hn hlen hclean
    rw [List.length_cons] at hlen
    refine ⟨h.apart p f (by omega) hn, fun hpres => ?_⟩
    obtain ⟨htable, hclean'⟩ := hclean hpres
    exact ih (i :: p) _ ((node_cons_of_some hn).trans htable) (by rw [List.length_cons]; omega)
      hclean'

theorem Sound.oomReady (h : Sound b dec s L out) {virt : Word}
    (hclean : Clean dec s.ent 0 (s.root b) (upperPath virt)) : OomReady b s L out virt :=
  ⟨h.pmm, h.off, h.aligned [] _ (by simp) rfl,
    h.pathApart (upperPath virt) [] _ rfl (by simp [upperPath]) hclean⟩

/-! ### Runs -/

/-- One step of the memory managers or of a client.  Every `palloc` that `map_page`
makes succeeds. -/
inductive VmmStep (b : Limine) : VmmRun → VmmRun → Prop
  | mapPage (r : VmmRun) (virt phys flags : Word) :
      .palloc 0 ∉ r.vmm.mapPageEvents b virt phys flags →
      VmmStep b r ⟨r.vmm.mapPage b virt phys flags, r.held⟩
  | unmapPage (r : VmmRun) (virt : Word) : VmmStep b r ⟨r.vmm.unmapPage b virt, r.held⟩
  | palloc (r : VmmRun) : VmmStep b r ⟨{ r.vmm with pmm := (palloc b r.vmm.pmm).2 },
      if (palloc b r.vmm.pmm).1 = 0 then r.held else (palloc b r.vmm.pmm).1 :: r.held⟩
  | pfree (r : VmmRun) {f : Word} : f ∈ r.held →
      VmmStep b r ⟨{ r.vmm with pmm := pfree b r.vmm.pmm f }, r.held.erase f⟩
  | write (r : VmmRun) {a : Word} (v : BitVec 8) : pageOf a ∈ r.held →
      VmmStep b r ⟨{ r.vmm with
        pmm := { r.vmm.pmm with mem := Function.update r.vmm.pmm.mem a v } }, r.held⟩

variable {r r' : VmmRun}

/-- **One step keeps the joint invariant.** -/
theorem VmmStep.joint (hb : b.Ok) (hdec : Decoder b dec) (hstep : VmmStep b r r')
    (h : Joint b dec r L out) : ∃ L' out', Joint b dec r' L' out' := by
  cases hstep with
  | mapPage virt phys flags hpalloc =>
    refine h.mapPage hb hdec virt phys flags ?_
    have hready := h.sound.oomReady (h.clean_upperPath hdec virt)
    rw [mapPage_palloc_zero_iff hb hready] at hpalloc
    exact not_lt.mp hpalloc
  | unmapPage virt => exact ⟨L, out, h.unmapPage hdec virt⟩
  | palloc => exact h.palloc hb
  | pfree hf => exact ⟨_, _, h.pfree hb hf⟩
  | write v ha => exact ⟨L, out, h.write v ha⟩

theorem vmm_run_joint (hb : b.Ok) (hdec : Decoder b dec)
    (hrun : Relation.ReflTransGen (VmmStep b) r r') (h : Joint b dec r L out) :
    ∃ L' out', Joint b dec r' L' out' := by
  induction hrun with
  | refl => exact ⟨L, out, h⟩
  | tail _ hstep ih =>
    obtain ⟨L', out', h'⟩ := ih
    exact hstep.joint hb hdec h'

/-! ### Who owns a table -/

/-- The entry `i` of `t` is a present entry of a PML4, PDPT or PD that points to `f`. -/
def PointsTo (b : Limine) (s : Vmm) (t : Word) (i : BitVec 9) (f : Word) : Prop :=
  ∃ q, q.length < 3 ∧ s.node b decSw q = some t ∧ s.ent t i &&& ptePresent ≠ 0 ∧
    s.ent t i &&& ~~~0xFFF = f

theorem pointsTo_iff {t f : Word} {i : BitVec 9} :
    PointsTo b s t i f ↔
      ∃ q, q.length < 3 ∧ s.node b decSw q = some t ∧ decSw q.length (s.ent t i) = some f := by
  refine exists_congr fun q => and_congr_right fun _ => and_congr_right fun _ => ?_
  unfold decSw
  split
  · next h => exact iff_of_false (fun hpres => hpres.1 h) (Option.some_ne_none f ∘ Eq.symm)
  · next h => exact (and_iff_right h).trans Option.some_inj.symm

/-- In a tree every table below the root has exactly one entry that points to it. -/
theorem Sound.existsUnique_pointsTo (h : Sound b decSw s L out) {p : List (BitVec 9)} {f : Word}
    (hp : p.length ≤ 3) (hne : p ≠ []) (hn : s.node b decSw p = some f) :
    ∃! e : Word × BitVec 9, PointsTo b s e.1 e.2 f := by
  cases p with
  | nil => exact absurd rfl hne
  | cons i p =>
    rw [List.length_cons] at hp
    obtain ⟨t, ht, hd⟩ := exists_parent hn
    refine ⟨(t, i), pointsTo_iff.mpr ⟨p, by omega, ht, hd⟩, ?_⟩
    rintro ⟨t', i'⟩ hpoint
    obtain ⟨q, hq, ht', hd'⟩ := pointsTo_iff.mp hpoint
    have hn' : s.node b decSw (i' :: q) = some f := (node_cons_of_some ht').trans hd'
    have hpath := h.tree (i' :: q) (i :: p) f (by rw [List.length_cons]; omega)
      (by rw [List.length_cons]; omega) hn' hn
    obtain ⟨rfl, rfl⟩ := List.cons.inj hpath
    obtain rfl : t' = t := Option.some.inj (ht'.symm.trans ht)
    rfl

/-- The tables below the root are usable frames. -/
theorem Joint.usable (hdec : Decoder b dec) (h : Joint b dec r L out) {p : List (BitVec 9)}
    {f : Word} (hp : p.length ≤ 3) (hne : p ≠ []) (hn : r.vmm.node b dec p = some f) :
    b.UsableFrame f := by
  cases p with
  | nil => exact absurd rfl hne
  | cons i p =>
    rw [List.length_cons] at hp
    obtain ⟨t, ht, hd⟩ := exists_parent hn
    rcases h.built p t i (by omega) ht with h0 | ⟨g, u, hg, hu, he⟩
    · rw [h0, hdec.absent _ _ (by decide)] at hd
      exact absurd hd.symm (Option.some_ne_none f)
    · rw [he, hdec.built _ g u hg hu] at hd
      rwa [← Option.some.inj hd]

theorem PmmInv.palloc_ne {pmm : Pmm} (h : PmmInv b pmm L out) {f : Word} (hf : f ∉ L)
    (h0 : f ≠ 0) : (Mm.palloc b pmm).1 ≠ f := by
  cases L with
  | nil =>
    rw [h.list.palloc_nil]
    exact h0.symm
  | cons g L =>
    obtain ⟨pmm', hrun, _⟩ := h.palloc
    rw [hrun]
    rintro rfl
    exact hf List.mem_cons_self

/-- What it means that the frame `f` belongs to the page tables: one entry points to
it, it is not the PML4, and neither the allocator nor a client has it. -/
structure TableOwned (b : Limine) (r : VmmRun) (L : List Word) (f : Word) : Prop where
  once : ∃! e : Word × BitVec 9, PointsTo b r.vmm e.1 e.2 f
  notRoot : f ≠ r.vmm.root b
  notFree : f ∉ L
  notReturned : (palloc b r.vmm.pmm).1 ≠ f
  notHeld : f ∉ r.held

/-- **In every run a table frame belongs to the tables alone.**  `L` is the list that
is reached from `free_mem_head`. -/
theorem table_frames_owned (hb : b.Ok) {pmm : Pmm} {cr3 : Word} {held : List Word}
    (h : VmmStart b pmm cr3 L out) (hheld : ∀ f ∈ held, f ∈ out) (hnodup : held.Nodup)
    (hcr3 : pageOf cr3 ∉ held)
    (hrun : Relation.ReflTransGen (VmmStep b) ⟨vmmStart b pmm cr3, held⟩ r) :
    ∃ L', FreeList b r.vmm.pmm L' ∧ ∀ p f, p ≠ [] → p.length ≤ 3 →
      r.vmm.node b decSw p = some f → TableOwned b r L' f := by
  obtain ⟨L', out', h'⟩ := vmm_run_joint hb (decoder_decSw b) hrun
    (h.joint (decoder_decSw b) hheld hnodup hcr3)
  refine ⟨L', h'.sound.pmm.list, fun p f hne hp hn => ⟨?_, ?_, ?_, ?_, h'.apart p f hp hn⟩⟩
  · exact h'.sound.existsUnique_pointsTo hp hne hn
  · rintro rfl
    exact hne (h'.sound.tree p [] _ hp (by simp) hn rfl)
  · exact h'.sound.apart p f hp hn
  · refine h'.sound.pmm.palloc_ne (h'.sound.apart p f hp hn) ?_
    rintro rfl
    exact hb.pageZero (h'.usable (decoder_decSw b) hp hne hn)

/-! ### A machine with four usable frames -/

def exampleRam : Limine where
  entries := [⟨0x1000, 0x4000, 0⟩, ⟨0x8000, 0x1000, 1⟩]
  hhdmOffset := 0xFFFF800000000000

theorem exampleRam_usable (f : Word) :
    exampleRam.UsableFrame f ↔ f ∈ [0x1000, 0x2000, 0x3000, 0x4000] := by
  constructor
  · rintro ⟨e, he, ht, ha, h₁, h₂⟩
    simp only [exampleRam, List.mem_cons, List.not_mem_nil, or_false] at he
    rw [PageAligned] at ha
    rcases he with rfl | rfl
    · rw [show (0x1000 : Word).toNat = 0x1000 from rfl] at h₁ h₂
      rw [show (0x4000 : Word).toNat = 0x4000 from rfl] at h₂
      simp only [List.mem_cons, List.not_mem_nil, or_false]
      bv_omega
    · exact absurd ht (by decide)
  · intro hf
    refine ⟨⟨0x1000, 0x4000, 0⟩, by simp [exampleRam], rfl, ?_⟩
    fin_cases hf <;> decide

theorem exampleRam_ok : exampleRam.Ok where
  disjoint := by simp [exampleRam, limineMemmapUsable]
  bounded := by simp [exampleRam]
  pageZero := by
    rw [exampleRam_usable]
    decide
  hhdm := fun f hf => by
    rw [exampleRam_usable] at hf
    fin_cases hf <;> decide

/-- The machine after `pmm_init` and `vmm_init`, with the PML4 in the reserved page. -/
theorem exampleRam_start :
    ∃ pmm L, pmmInit exampleRam (fun _ => 0) = some pmm ∧
      VmmStart exampleRam pmm 0x8000 L [] ∧ 4 ≤ L.length := by
  obtain ⟨pmm, L, hinit, hstart⟩ := exists_vmmStart exampleRam_ok (fun _ _ => rfl)
    (show ¬ exampleRam.UsableFrame (pageOf 0x8000) by rw [exampleRam_usable]; decide)
  exact ⟨pmm, L, hinit, hstart,
    hstart.inv.frames_length_le (by decide) fun f => (exampleRam_usable f).mpr⟩

/-- There is a page table after the first mapping, and it is owned. -/
theorem table_frames_owned_exampleRam :
    ∃ pmm L f r, pmmInit exampleRam (fun _ => 0) = some pmm ∧
      Relation.ReflTransGen (VmmStep exampleRam) ⟨vmmStart exampleRam pmm 0x8000, []⟩ r ∧
      r.vmm.node exampleRam decSw (upperPath 0x400000).reverse = some f ∧
      FreeList exampleRam r.vmm.pmm L ∧ TableOwned exampleRam r L f := by
  obtain ⟨pmm, L, hinit, hstart, hlen⟩ := exampleRam_start
  have hdec := decoder_decSw exampleRam
  have hneed : needed (vmmStart exampleRam pmm 0x8000).ent
      ((vmmStart exampleRam pmm 0x8000).root exampleRam) (upperPath 0x400000) ≤ L.length := by
    rw [vmmStart_root, vmmStart_ent, needed_of_blank hstart.blank]
    exact le_trans (by decide) hlen
  have hjoint := hstart.joint hdec (List.forall_mem_nil _) List.nodup_nil List.not_mem_nil
  obtain ⟨s₁, pt, _, _, _, hs₁, _, hnode, hrun⟩ := mapPage_spec exampleRam_ok hdec hjoint.sound
    0x400000 0x200000 3 (hjoint.clean_upperPath hdec 0x400000) hneed
  have hstep : VmmStep exampleRam ⟨vmmStart exampleRam pmm 0x8000, []⟩
      ⟨(vmmStart exampleRam pmm 0x8000).mapPage exampleRam 0x400000 0x200000 3, []⟩ := by
    refine VmmStep.mapPage _ _ _ _ ?_
    rw [mapPage_palloc_zero_iff exampleRam_ok (hstart.oomReady 0x400000)]
    exact not_lt.mpr hneed
  have hnode' : ((vmmStart exampleRam pmm 0x8000).mapPage exampleRam 0x400000 0x200000 3).node
      exampleRam decSw (upperPath 0x400000).reverse = some pt := by
    rw [hrun, setSlot_node hs₁ hnode rfl (by decide)]
    exact hnode
  obtain ⟨L', hL', howned⟩ := table_frames_owned exampleRam_ok hstart (List.forall_mem_nil _)
    List.nodup_nil List.not_mem_nil (Relation.ReflTransGen.single hstep)
  exact ⟨pmm, L', pt, _, hinit, Relation.ReflTransGen.single hstep, hnode', hL',
    howned _ _ (by decide) (by decide) hnode'⟩

end AncoreOS.Mm
