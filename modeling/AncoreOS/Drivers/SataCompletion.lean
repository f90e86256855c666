import AncoreOS.Drivers.DriveRead

/-!
# When an AHCI command is reported as complete

Each of the five commands of `sata.c` is issued by a write of `PxCI` and then polled: the
slot is free once bit 0 of `PxCI` reads clear, and a counter limits the number of polls.
`SawClear` says, from the log of what the driver did, that it has read the bit clear in
time.  A command should report success only then, and a reader always then
(`AhciCall.Honest`).

The counter is decremented in the condition of the loop, so it is `0` when the last poll
reads the bit clear and has wrapped around when no poll does.  `WaitResult` has the three
ways out of such a loop, with what was seen and what the port answered on each, and
`sataWaitSlot_spec` is the induction over the polls.  The commands differ in how they read
the counter afterwards, and so in the polls by which the port has to answer
(`AhciCall.Answered`).
-/

namespace AncoreOS.Drivers

open ByteMemory

/-! ### What the driver has seen -/

/-- The event is the issue of a command. -/
def isIssue (p : Word) : IoEvent → Bool
  | .writel a _ => a == p + portCi
  | _ => false

/-- What happened since a command was issued, oldest first; `none` if none was. -/
def sinceIssue (p : Word) : List IoEvent → Option (List IoEvent)
  | [] => none
  | e :: log => if isIssue p e then some [] else (sinceIssue p log).map (· ++ [e])

/-- `PxCI` was read with bit 0 clear, after at most `t` reads that had it set and with no
bit of `mask` in what was read of `PxIS` before. -/
def SawClear (p : Word) (mask : BitVec 32) : Nat → List IoEvent → Prop
  | _, [] => False
  | t, .readl a v :: es =>
    if a = p + portCi then v &&& 1 = 0 ∨ (0 < t ∧ SawClear p mask (t - 1) es)
    else if a = p + portIs then v &&& mask = 0 ∧ SawClear p mask t es
    else SawClear p mask t es
  | t, .inb _ _ :: es | t, .outb _ _ :: es | t, .inw _ _ :: es | t, .outw _ _ :: es
  | t, .fill _ _ :: es | t, .writel _ _ :: es | t, .dma _ :: es => SawClear p mask t es

section Seen

variable {p : Word} {mask : BitVec 32} {t : Nat} {es : List IoEvent}

theorem sinceIssue_append (log : List IoEvent) : ∀ es : List IoEvent,
    (∀ e ∈ es, isIssue p e = false) →
    sinceIssue p (es.reverse ++ log) = (sinceIssue p log).map (· ++ es) := by
  intro es
  induction es using List.reverseRecOn with
  | nil => simp
  | append_singleton es e ih =>
    intro h
    have he : isIssue p e = false := h e (by simp)
    rw [List.reverse_append, List.reverse_singleton, List.singleton_append, List.cons_append,
      sinceIssue, he, ih fun e he => h e (by simp [he])]
    cases sinceIssue p log <;> simp

theorem sinceIssue_none {log : List IoEvent} (h : ∀ e ∈ log, isIssue p e = false) :
    sinceIssue p log = none := by
  have := sinceIssue_append (p := p) [] log.reverse (fun e he => h e (List.mem_reverse.mp he))
  simpa [sinceIssue] using this

theorem sawClear_dma (ms : List SectorMove) :
    SawClear p mask t (ms.map .dma ++ es) ↔ SawClear p mask t es := by
  induction ms with
  | nil => rfl
  | cons m ms ih => exact ih

theorem ci_ne_is : p + portIs ≠ p + portCi := fun h =>
  absurd ((BitVec.add_right_inj p).mp h) (by decide)

theorem sawClear_ci (v : BitVec 32) : SawClear p mask (t + 1) (.readl (p + portCi) v :: es) ↔
    v &&& 1 = 0 ∨ SawClear p mask t es := by
  simp [SawClear]

theorem sawClear_ci_zero (v : BitVec 32) :
    SawClear p mask 0 (.readl (p + portCi) v :: es) ↔ v &&& 1 = 0 := by
  simp [SawClear]

theorem sawClear_is (v : BitVec 32) : SawClear p mask t (.readl (p + portIs) v :: es) ↔
    v &&& mask = 0 ∧ SawClear p mask t es := by
  rw [SawClear, if_neg ci_ne_is, if_pos rfl]

theorem SawClear.append (rest : List IoEvent) : ∀ (es : List IoEvent) (t : Nat),
    SawClear p mask t es → SawClear p mask t (es ++ rest) := by
  intro es
  induction es with
  | nil => exact fun t h => h.elim
  | cons e es ih =>
    intro t h
    cases e with
    | readl a v =>
      rw [List.cons_append, SawClear]
      rw [SawClear] at h
      split
      · rw [if_pos ‹_›] at h
        exact h.imp_right fun h => ⟨h.1, ih _ h.2⟩
      · rw [if_neg ‹_›] at h
        split
        · rw [if_pos ‹_›] at h
          exact ⟨h.1, ih t h.2⟩
        · rw [if_neg ‹_›] at h
          exact ih t h
    | inb _ _ | outb _ _ | inw _ _ | outw _ _ | fill _ _ | writel _ _ | dma _ => exact ih t h

/-- Errors that are looked for and not found may as well not be looked for. -/
theorem SawClear.of_mask : ∀ (es : List IoEvent) (t : Nat),
    SawClear p mask t es → SawClear p 0 t es := by
  intro es
  induction es with
  | nil => exact fun t h => h
  | cons e es ih =>
    intro t h
    cases e with
    | readl a v =>
      rw [SawClear] at h ⊢
      split
      · rw [if_pos ‹_›] at h
        exact h.imp_right fun h => ⟨h.1, ih _ h.2⟩
      · rw [if_neg ‹_›] at h
        split
        · rw [if_pos ‹_›] at h
          exact ⟨BitVec.and_zero, ih t h.2⟩
        · rw [if_neg ‹_›] at h
          exact ih t h
    | inb _ _ | outb _ _ | inw _ _ | outw _ _ | fill _ _ | writel _ _ | dma _ => exact ih t h

end Seen

/-! ### What the port answers -/

section Polls

variable {σ : Type*} (M : Mmio σ) (p : Word)

/-- One poll of the slot and of the interrupt status. -/
def poll (io : Io σ) : Io σ := ((io.readl M (p + portCi)).2.readl M (p + portIs)).2

/-- What poll `k` reads of `PxCI`. -/
def ciAt (io : Io σ) (k : Nat) : BitVec 32 := (((poll M p)^[k] io).readl M (p + portCi)).1

/-- What poll `k` reads of `PxIS`. -/
def isAt (io : Io σ) (k : Nat) : BitVec 32 :=
  ((((poll M p)^[k] io).readl M (p + portCi)).2.readl M (p + portIs)).1

/-- One of the first `t` polls shows the slot free or an error. -/
def AnswersIn (mask : BitVec 32) (t : Nat) (io : Io σ) : Prop :=
  ∃ k < t, ciAt M p io k &&& 1 = 0 ∨ isAt M p io k &&& mask ≠ 0

/-- Or the poll after them shows the slot free. -/
def AnswersBy (mask : BitVec 32) (t : Nat) (io : Io σ) : Prop :=
  AnswersIn M p mask t io ∨ ciAt M p io t &&& 1 = 0

/-- One of the first `t + 1` polls of the slot alone shows it free. -/
def ClearsBy (t : Nat) (io : Io σ) : Prop :=
  ∃ k ≤ t, (((fun io => (io.readl M (p + portCi)).2)^[k] io).readl M (p + portCi)).1 &&& 1 = 0

variable {M p} {mask : BitVec 32} {t : Nat} {io : Io σ}

theorem answersIn_succ : AnswersIn M p mask (t + 1) io ↔
    (ciAt M p io 0 &&& 1 = 0 ∨ isAt M p io 0 &&& mask ≠ 0) ∨ AnswersIn M p mask t (poll M p io) :=
  Nat.exists_lt_succ_left

theorem answersBy_succ : AnswersBy M p mask (t + 1) io ↔
    (ciAt M p io 0 &&& 1 = 0 ∨ isAt M p io 0 &&& mask ≠ 0) ∨ AnswersBy M p mask t (poll M p io) := by
  unfold AnswersBy
  rw [answersIn_succ, or_assoc]
  rfl

theorem not_answersIn_zero : ¬AnswersIn M p mask 0 io := by
  rintro ⟨k, hk, _⟩
  exact absurd hk (Nat.not_lt_zero k)

theorem clearsBy_succ : ClearsBy M p (t + 1) io ↔
    (io.readl M (p + portCi)).1 &&& 1 = 0 ∨ ClearsBy M p t (io.readl M (p + portCi)).2 := by
  simp only [ClearsBy, ← Nat.lt_succ_iff]
  exact Nat.exists_lt_succ_left

theorem clearsBy_zero : ClearsBy M p 0 io ↔ (io.readl M (p + portCi)).1 &&& 1 = 0 := by
  simp [ClearsBy]

theorem readl_log (a : Word) (io : Io σ) :
    ∃ ms : List SectorMove, (io.readl M a).2.log =
      (IoEvent.readl a (io.readl M a).1 :: ms.map .dma).reverse ++ io.log :=
  ⟨(M.readl io.dev io.mem a).2.moves, by simp [Io.readl, Io.reply]⟩

end Polls

/-! ### The wait -/

section Wait

variable {σ : Type*} {M : Mmio σ} {p : Word} {mask : BitVec 32}

/-- How the wait for a slot ends: the counter and the error it leaves, and what was seen. -/
inductive WaitResult (M : Mmio σ) (p : Word) (mask : BitVec 32) (t : Nat) (io : Io σ) :
    BitVec 32 × Option (BitVec 32) → List IoEvent → Prop
  | cleared {k : Nat} {es : List IoEvent} : k ≤ t → SawClear p mask t es →
      (AnswersIn M p mask t io ↔ k < t) → AnswersBy M p mask t io →
      WaitResult M p mask t io (BitVec.ofNat 32 (t - k), none) es
  | failed {v isr : BitVec 32} {es : List IoEvent} : AnswersIn M p mask t io →
      (∀ rest, ¬SawClear p mask t (es ++ rest)) →
      WaitResult M p mask t io (v, some isr) es
  | expired {es : List IoEvent} : ¬AnswersBy M p mask t io →
      (∀ rest, ¬SawClear p 0 t (es ++ rest)) →
      WaitResult M p mask t io (0xFFFFFFFF, none) es

/-- The events of a read, oldest first. -/
def readEvents (a : Word) (v : BitVec 32) (ms : List SectorMove) : List IoEvent :=
  .readl a v :: ms.map .dma

theorem isIssue_readEvents {a : Word} {v : BitVec 32} {ms : List SectorMove} :
    ∀ e ∈ readEvents a v ms, isIssue p e = false := by
  intro e he
  rcases List.mem_cons.mp he with rfl | he
  · rfl
  · obtain ⟨m, _, rfl⟩ := List.mem_map.mp he
    rfl

theorem sawClear_readEvents_ci {t : Nat} (v : BitVec 32) (ms : List SectorMove)
    (es : List IoEvent) : SawClear p mask (t + 1) (readEvents (p + portCi) v ms ++ es) ↔
      v &&& 1 = 0 ∨ SawClear p mask t es := by
  rw [readEvents, List.cons_append, sawClear_ci, sawClear_dma]

theorem sawClear_readEvents_is {t : Nat} (v : BitVec 32) (ms : List SectorMove)
    (es : List IoEvent) : SawClear p mask t (readEvents (p + portIs) v ms ++ es) ↔
      v &&& mask = 0 ∧ SawClear p mask t es := by
  rw [readEvents, List.cons_append, sawClear_is, sawClear_dma]

/-- A poll that shows nothing, and then the rest of the wait. -/
theorem WaitResult.poll {t : Nat} {io : Io σ} {r : BitVec 32 × Option (BitVec 32)}
    {es : List IoEvent} (hci : ciAt M p io 0 &&& 1 ≠ 0) (his : isAt M p io 0 &&& mask = 0)
    (ms ms' : List SectorMove) (h : WaitResult M p mask t (Drivers.poll M p io) r es) :
    WaitResult M p mask (t + 1) io r (readEvents (p + portCi) (ciAt M p io 0) ms ++
      (readEvents (p + portIs) (isAt M p io 0) ms' ++ es)) := by
  have hin : AnswersIn M p mask (t + 1) io ↔ AnswersIn M p mask t (Drivers.poll M p io) := by
    rw [answersIn_succ, or_iff_right]
    rintro (h | h)
    · exact hci h
    · exact h his
  have hby : AnswersBy M p mask (t + 1) io ↔ AnswersBy M p mask t (Drivers.poll M p io) := by
    rw [answersBy_succ, or_iff_right]
    rintro (h | h)
    · exact hci h
    · exact h his
  have hsaw : ∀ (m : BitVec 32) (es : List IoEvent), isAt M p io 0 &&& m = 0 →
      (SawClear p m (t + 1) (readEvents (p + portCi) (ciAt M p io 0) ms ++
        (readEvents (p + portIs) (isAt M p io 0) ms' ++ es)) ↔ SawClear p m t es) := by
    intro m es hm
    rw [sawClear_readEvents_ci, sawClear_readEvents_is, or_iff_right hci, and_iff_right hm]
  cases h with
  | cleared hk hes hlt hans =>
    rw [show ∀ k, t - k = t + 1 - (k + 1) from fun k => by omega]
    refine .cleared (by omega) ((hsaw mask es his).mpr hes) ?_ (hby.mpr hans)
    rw [hin, hlt]
    omega
  | failed hans hes =>
    refine .failed (hin.mpr hans) fun rest => ?_
    rw [List.append_assoc, List.append_assoc, hsaw mask _ his]
    exact hes rest
  | expired hans hes =>
    refine .expired (fun h => hans (hby.mp h)) fun rest => ?_
    rw [List.append_assoc, List.append_assoc, hsaw 0 _ BitVec.and_zero]
    exact hes rest

/-- The last look of the wait for a slot. -/
theorem sataWaitSlot_zero (mask : BitVec 32) (io : Io σ) :
    ∃ es, (sataWaitSlot M p mask 0 io).2.log = es.reverse ++ io.log ∧
      (∀ e ∈ es, isIssue p e = false) ∧
      WaitResult M p mask 0 io (sataWaitSlot M p mask 0 io).1 es := by
  obtain ⟨ms, hlog⟩ := readl_log (M := M) (p + portCi) io
  refine ⟨readEvents (p + portCi) (ciAt M p io 0) ms, hlog, isIssue_readEvents, ?_⟩
  have hsaw : ∀ (m : BitVec 32) (rest : List IoEvent),
      SawClear p m 0 (readEvents (p + portCi) (ciAt M p io 0) ms ++ rest) ↔
        ciAt M p io 0 &&& 1 = 0 := fun m rest => sawClear_ci_zero _
  by_cases hci : ciAt M p io 0 &&& 1 = 0
  · have hrun : (sataWaitSlot M p mask 0 io).1 = (BitVec.ofNat 32 (0 - 0), none) := by
      show (if ciAt M p io 0 &&& 1 = 0 then _ else _, _) = _
      rw [if_pos hci]
      rfl
    rw [hrun]
    refine .cleared le_rfl ?_ (iff_of_false not_answersIn_zero (lt_irrefl 0)) (Or.inr hci)
    rw [← List.append_nil (readEvents _ _ _), hsaw]
    exact hci
  · have hrun : (sataWaitSlot M p mask 0 io).1 = (0xFFFFFFFF, none) := by
      show (if ciAt M p io 0 &&& 1 = 0 then _ else _, _) = _
      rw [if_neg hci]
    rw [hrun]
    refine .expired ?_ fun rest h => hci ((hsaw 0 rest).mp h)
    rintro (h | h)
    · exact not_answersIn_zero h
    · exact hci h

/-- **The wait for a slot**, by induction on the counter. -/
theorem sataWaitSlot_spec (mask : BitVec 32) : ∀ (t : Nat) (io : Io σ),
    ∃ es, (sataWaitSlot M p mask t io).2.log = es.reverse ++ io.log ∧
      (∀ e ∈ es, isIssue p e = false) ∧
      WaitResult M p mask t io (sataWaitSlot M p mask t io).1 es := by
  intro t
  induction t with
  | zero => exact sataWaitSlot_zero mask
  | succ t ih =>
    intro io
    obtain ⟨ms, hlog⟩ := readl_log (M := M) (p + portCi) io
    by_cases hci : ciAt M p io 0 &&& 1 = 0
    · have hrun : sataWaitSlot M p mask (t + 1) io =
          ((BitVec.ofNat 32 (t + 1 - 0), none), (io.readl M (p + portCi)).2) := if_pos hci
      rw [hrun]
      refine ⟨readEvents (p + portCi) (ciAt M p io 0) ms, hlog, isIssue_readEvents, ?_⟩
      refine .cleared (Nat.zero_le _) ?_ ?_ ?_
      · rw [← List.append_nil (readEvents _ _ _), sawClear_readEvents_ci]
        exact Or.inl hci
      · exact iff_of_true (answersIn_succ.mpr (Or.inl (Or.inl hci))) (Nat.succ_pos t)
      · exact answersBy_succ.mpr (Or.inl (Or.inl hci))
    · obtain ⟨ms', hlog'⟩ := readl_log (M := M) (p + portIs) (io.readl M (p + portCi)).2
      rw [hlog, ← List.append_assoc, ← List.reverse_append] at hlog'
      have hrun : sataWaitSlot M p mask (t + 1) io =
          if isAt M p io 0 &&& mask ≠ 0 then ((BitVec.ofNat 32 t, some (isAt M p io 0)), poll M p io)
          else sataWaitSlot M p mask t (poll M p io) := if_neg hci
      by_cases his : isAt M p io 0 &&& mask = 0
      · rw [hrun, if_neg (not_not.mpr his)]
        obtain ⟨es, hlog'', hissue, hres⟩ := ih (poll M p io)
        refine ⟨_, ?_, ?_, hres.poll hci his ms ms'⟩
        · rw [hlog'', poll, hlog', ← List.append_assoc, ← List.reverse_append, List.append_assoc]
          rfl
        · intro e he
          rcases List.mem_append.mp he with he | he
          · exact isIssue_readEvents e he
          · rcases List.mem_append.mp he with he | he
            · exact isIssue_readEvents e he
            · exact hissue e he
      · rw [hrun, if_pos his]
        refine ⟨readEvents (p + portCi) (ciAt M p io 0) ms ++
          readEvents (p + portIs) (isAt M p io 0) ms', hlog', ?_, ?_⟩
        · intro e he
          rcases List.mem_append.mp he with he | he <;> exact isIssue_readEvents e he
        · refine .failed (answersIn_succ.mpr (Or.inl (Or.inr his))) fun rest => ?_
          rw [List.append_assoc, sawClear_readEvents_ci, sawClear_readEvents_is]
          rintro (h | h)
          · exact hci h
          · exact his h.1

/-- The wait that polls the slot alone: it clears in time, or the counter has wrapped. -/
theorem sataWaitClear_spec : ∀ (t : Nat) (io : Io σ),
    ∃ es, (sataWaitClear M (p + portCi) 1 t io).2.log = es.reverse ++ io.log ∧
      (∀ e ∈ es, isIssue p e = false) ∧
      ((ClearsBy M p t io ∧ SawClear p 0 t es) ∨
        (¬ClearsBy M p t io ∧ (sataWaitClear M (p + portCi) 1 t io).1 = 0xFFFFFFFF ∧
          ¬SawClear p 0 t es)) := by
  intro t
  induction t with
  | zero =>
    intro io
    obtain ⟨ms, hlog⟩ := readl_log (M := M) (p + portCi) io
    refine ⟨readEvents (p + portCi) (io.readl M (p + portCi)).1 ms, hlog, isIssue_readEvents, ?_⟩
    rw [clearsBy_zero, readEvents, sawClear_ci_zero]
    by_cases hci : (io.readl M (p + portCi)).1 &&& 1 = 0
    · exact Or.inl ⟨hci, hci⟩
    · exact Or.inr ⟨hci, if_neg hci, hci⟩
  | succ t ih =>
    intro io
    obtain ⟨ms, hlog⟩ := readl_log (M := M) (p + portCi) io
    by_cases hci : (io.readl M (p + portCi)).1 &&& 1 = 0
    · have hrun : sataWaitClear M (p + portCi) 1 (t + 1) io =
          (BitVec.ofNat 32 (t + 1), (io.readl M (p + portCi)).2) := if_pos hci
      rw [hrun]
      refine ⟨readEvents (p + portCi) (io.readl M (p + portCi)).1 ms, hlog, isIssue_readEvents, ?_⟩
      refine Or.inl ⟨clearsBy_succ.mpr (Or.inl hci), ?_⟩
      rw [← List.append_nil (readEvents _ _ _), sawClear_readEvents_ci]
      exact Or.inl hci
    · have hrun : sataWaitClear M (p + portCi) 1 (t + 1) io =
          sataWaitClear M (p + portCi) 1 t (io.readl M (p + portCi)).2 := if_neg hci
      obtain ⟨es, hlog', hissue, hres⟩ := ih (io.readl M (p + portCi)).2
      rw [hrun]
      refine ⟨readEvents (p + portCi) (io.readl M (p + portCi)).1 ms ++ es, ?_, ?_, ?_⟩
      · rw [hlog', hlog, ← List.append_assoc, ← List.reverse_append]
        rfl
      · intro e he
        rcases List.mem_append.mp he with he | he
        · exact isIssue_readEvents e he
        · exact hissue e he
      · rw [clearsBy_succ, sawClear_readEvents_ci, or_iff_right hci, or_iff_right hci]
        exact hres

end Wait

/-! ### Before the issue -/

/-- No command has been issued. -/
def Unissued {σ : Type*} (p : Word) (io : Io σ) : Prop := ∀ e ∈ io.log, isIssue p e = false

section Start

variable {σ : Type*} {M : Mmio σ} {p : Word} {io : Io σ}

theorem Unissued.congr {io' : Io σ} (h : Unissued p io) (hlog : io'.log = io.log) :
    Unissued p io' := by
  unfold Unissued
  rw [hlog]
  exact h

theorem Unissued.readl (h : Unissued p io) (a : Word) : Unissued p (io.readl M a).2 := by
  obtain ⟨ms, hlog⟩ := readl_log (M := M) a io
  intro e he
  rw [hlog, List.mem_append, List.mem_reverse] at he
  rcases he with he | he
  · exact isIssue_readEvents e he
  · exact h e he

theorem Unissued.writel (h : Unissued p io) {a : Word} (ha : a ≠ portCi) (v : BitVec 32) :
    Unissued p (io.writel M (p + a) v) := by
  intro e he
  simp only [Io.writel, Io.reply, List.mem_append, List.mem_map, List.mem_reverse,
    List.mem_cons] at he
  rcases he with ⟨m, _, rfl⟩ | rfl | he
  · rfl
  · exact beq_false_of_ne fun heq => ha ((BitVec.add_right_inj p).mp heq)
  · exact h e he

theorem Unissued.andl (h : Unissued p io) {a : Word} (ha : a ≠ portCi) (v : BitVec 32) :
    Unissued p (io.andl M (p + a) v) := (h.readl _).writel ha _

theorem Unissued.orl (h : Unissued p io) {a : Word} (ha : a ≠ portCi) (v : BitVec 32) :
    Unissued p (io.orl M (p + a) v) := (h.readl _).writel ha _

theorem Unissued.sataWaitStop (reg : Word) (mask : BitVec 32) (error : Int) (t : Nat)
    (h : Unissued p io) : Unissued p (sataWaitStop M reg mask error t io).2 :=
  sataWaitStop_kept (fun _ h => h.readl reg) mask error t io h

theorem Unissued.sataWaitClear (reg : Word) (mask : BitVec 32) (t : Nat) (h : Unissued p io) :
    Unissued p (sataWaitClear M reg mask t io).2 :=
  sataWaitClear_kept (fun _ h => h.readl reg) mask t io h

theorem Unissued.sinceIssue (h : Unissued p io) : Drivers.sinceIssue p io.log = none :=
  sinceIssue_none h

/-- After the issue there is nothing but what the port has moved. -/
theorem sinceIssue_writel (io : Io σ) (v : BitVec 32) :
    ∃ ms : List SectorMove, sinceIssue p (io.writel M (p + portCi) v).log = some (ms.map .dma) := by
  have hlog : (io.writel M (p + portCi) v).log =
      ((M.writel io.dev io.mem (p + portCi) v).moves.map .dma).reverse ++
        .writel (p + portCi) v :: io.log := by
    simp [Io.writel, Io.reply]
  refine ⟨(M.writel io.dev io.mem (p + portCi) v).moves, ?_⟩
  rw [hlog, sinceIssue_append]
  · simp [Drivers.sinceIssue, isIssue]
  · intro e he
    obtain ⟨m, _, rfl⟩ := List.mem_map.mp he
    rfl

end Start

/-! ### The five commands -/

/-- A call of one of the five commands of `sata.c`. -/
inductive AhciCall
  | readSector (lba : Word) (sectorCount : BitVec 16)
  | readSectorSatapi (lba : BitVec 32) (sectorCount : BitVec 16)
  | identify
  | identifySatapi
  | identifySatapiProperly (atapiCmd : List (BitVec 8))

namespace AhciCall

/-- The retries after the first poll. -/
def budget : AhciCall → Nat
  | .readSector _ n | .readSectorSatapi _ n => sataWaitTimeout + n.toNat * sataWaitTimeoutPerSector
  | .identify | .identifySatapi | .identifySatapiProperly _ => sataWaitTimeout

/-- The two readers. -/
def Reads : AhciCall → Prop
  | .readSector _ _ | .readSectorSatapi _ _ => True
  | .identify | .identifySatapi | .identifySatapiProperly _ => False

theorem budget_lt (c : AhciCall) : c.budget < 2 ^ 32 - 1 := by
  cases c with
  | readSector _ n | readSectorSatapi _ n =>
    have := n.isLt
    simp only [budget, sataWaitTimeout, sataWaitTimeoutPerSector]
    omega
  | identify | identifySatapi | identifySatapiProperly _ =>
    exact show sataWaitTimeout < 2 ^ 32 - 1 by decide

section Calls

variable {σ : Type*} (M : Mmio σ) (virtToPhys : Word → Word) (portMem p buffer : Word)

def run (fuel : Nat) : AhciCall → Io σ → Option (Int × Io σ)
  | .readSector lba n, io => sataAhciReadSector M fuel portMem p lba n buffer io
  | .readSectorSatapi lba n, io =>
    some (sataAhciReadSectorSatapi M virtToPhys portMem p lba n buffer io)
  | .identify, io => sataAhciIdentify M fuel portMem p buffer io
  | .identifySatapi, io => sataAhciIdentifySatapi M fuel portMem p buffer io
  | .identifySatapiProperly cmd, io =>
    some (sataAhciIdentifySatapiProperly M virtToPhys cmd portMem p buffer io)

/-- The packet commands up to the memory of the command: the counter of the wait for the
engine, and the state. -/
def packetStart (io : Io σ) : BitVec 32 × Io σ :=
  let io := io.memset portMem 0 ahciPortMemSize
  let io := io.writel M (p + portClb) ((virtToPhys portMem).setWidth 32)
  let io := io.writel M (p + portClbu) ((virtToPhys portMem >>> 32).setWidth 32)
  let io := io.writel M (p + portFb) ((virtToPhys (portMem + ahciRfis)).setWidth 32)
  let io := io.writel M (p + portFbu) ((virtToPhys (portMem + ahciRfis) >>> 32).setWidth 32)
  let io := io.andl M (p + portCmd) (~~~0x11)
  sataWaitClear M (p + portCmd) 0xC000 sataWaitTimeout io

/-- The issue of a packet command. -/
def packetIssue (io : Io σ) : Io σ :=
  let io := io.writel M (p + portIs) 0xFFFFFFFF
  let io := io.writel M (p + portSerr) 0xFFFFFFFF
  let io := io.orl M (p + portCmd) 0x10
  let io := io.orl M (p + portCmd) 1
  io.writel M (p + portCi) 1

/-- The state in which a call has issued its command, if it gets there. -/
def issued (fuel : Nat) : AhciCall → Io σ → Option (Io σ)
  | .readSector lba n, io =>
    let (r, io) := sataReadPrepare M portMem p lba n buffer io
    if r ≠ 0 then none
    else (sataSpin M (p + portCmd) 0xC000 fuel io).map fun io =>
      ((io.orl M (p + portCmd) 0x10).orl M (p + portCmd) 1).orl M (p + portCi) 1
  | .readSectorSatapi lba n, io =>
    if buffer = 0 ∨ n = 0 then none else
    if portMem = 0 then none else
    let (timeout, io) := packetStart M virtToPhys portMem p io
    if timeout = 0 then none
    else some (packetIssue M p (satapiReadCommand virtToPhys portMem lba n buffer io))
  | .identify, io => sataIdentifyStart M 0xEC fuel portMem p buffer io
  | .identifySatapi, io => sataIdentifyStart M 0xA1 fuel portMem p buffer io
  | .identifySatapiProperly cmd, io =>
    if buffer = 0 then none else
    if portMem = 0 then none else
    let (timeout, io) := packetStart M virtToPhys portMem p io
    if timeout = 0 then none
    else some (packetIssue M p (capacityCommand virtToPhys cmd portMem buffer io))

/-- The part of a call after the issue. -/
def wait : AhciCall → Io σ → Int × Io σ
  | .readSector _ n, io =>
    let ((timeout, error), io) := sataWaitCommand M p
      (sataWaitTimeout + n.toNat * sataWaitTimeoutPerSector) io
    if error.isSome then (8, io) else if timeout = 0 then (9, io) else (0, io)
  | .readSectorSatapi _ n, io =>
    let ((timeout, error), io) := sataWaitCommand M p
      (sataWaitTimeout + n.toNat * sataWaitTimeoutPerSector) io
    if error.isSome then satapiFail M p io else
    if timeout = 0 then satapiFail M p io else
    (0, (sataWaitClear M (p + portCi) 1 sataWaitTimeout io).2)
  | .identify, io | .identifySatapi, io => sataIdentifyWait M p io
  | .identifySatapiProperly _, io =>
    let (timeout, io) := sataWaitClear M (p + portCi) 1 sataWaitTimeout io
    if timeout = 0 then (-1, io) else (0, swapField buffer (swapField (buffer + 4) io))

/-- The port answers in time for the call. -/
def Answered : AhciCall → Io σ → Prop
  | .readSector lba n, io => AnswersIn M p 0xC0000000 (readSector lba n).budget io
  | .readSectorSatapi lba n, io => AnswersIn M p 0xC0000000 (readSectorSatapi lba n).budget io
  | .identify, io => AnswersBy M p 0x40000000 identify.budget io
  | .identifySatapi, io => AnswersBy M p 0x40000000 identifySatapi.budget io
  | .identifySatapiProperly cmd, io => ClearsBy M p (identifySatapiProperly cmd).budget io

/-- The slot was seen clear within the budget of the call. -/
def SawCompletion (c : AhciCall) (mask : BitVec 32) (log : List IoEvent) : Prop :=
  ∃ es, sinceIssue p log = some es ∧ SawClear p mask c.budget es

/-- `0` is returned only when the command was seen to complete, and by a reader always when
it was and no error before it. -/
def Honest (c : AhciCall) (io : Io σ) : Prop :=
  ∀ (fuel : Nat) (r : Int) (io' : Io σ),
    c.run M virtToPhys portMem p buffer fuel { io with log := [] } = some (r, io') →
    (r = 0 → c.SawCompletion p 0 io'.log) ∧
      (c.Reads → c.SawCompletion p 0xC0000000 io'.log → r = 0)

variable {M virtToPhys portMem p buffer} {fuel : Nat} {io io₁ : Io σ}

/-- Three tests in front of the issue of a packet command. -/
theorem guards_eq_some {α : Type*} {P Q R : Prop} [Decidable P] [Decidable Q] [Decidable R] {x y : α}
    (h : (if P then none else if Q then none else if R then none else some x) = some y) :
    ¬P ∧ ¬Q ∧ ¬R ∧ x = y := by
  by_cases hP : P <;> by_cases hQ : Q <;> by_cases hR : R <;> simp_all

theorem guards_eq_none {α : Type*} {P Q R : Prop} [Decidable P] [Decidable Q] [Decidable R] {x : α}
    (h : (if P then none else if Q then none else if R then none else some x) = none) :
    P ∨ (¬P ∧ Q) ∨ (¬P ∧ ¬Q ∧ R) := by
  by_cases hP : P <;> by_cases hQ : Q <;> by_cases hR : R <;> simp_all

/-- The packet commands with the part up to the issue named. -/
theorem satapi_eq (lba : BitVec 32) (n : BitVec 16) (hb : ¬(buffer = 0 ∨ n = 0)) (hm : ¬portMem = 0) :
    sataAhciReadSectorSatapi M virtToPhys portMem p lba n buffer io =
      if (packetStart M virtToPhys portMem p io).1 = 0 then
        satapiFail M p (packetStart M virtToPhys portMem p io).2
      else satapiReadIssue M p n
        (satapiReadCommand virtToPhys portMem lba n buffer
          (packetStart M virtToPhys portMem p io).2) := by
  rw [sataAhciReadSectorSatapi, if_neg hb, if_neg hm]
  rfl

theorem properly_eq (cmd : List (BitVec 8)) (hb : ¬buffer = 0) (hm : ¬portMem = 0) :
    sataAhciIdentifySatapiProperly M virtToPhys cmd portMem p buffer io =
      if (packetStart M virtToPhys portMem p io).1 = 0 then
        (-1, (packetStart M virtToPhys portMem p io).2)
      else capacityIssue M p buffer
        (capacityCommand virtToPhys cmd portMem buffer
          (packetStart M virtToPhys portMem p io).2) := by
  rw [sataAhciIdentifySatapiProperly, if_neg hb, if_neg hm]
  rfl

theorem run_of_issued (c : AhciCall) (h : c.issued M virtToPhys portMem p buffer fuel io = some io₁) :
    c.run M virtToPhys portMem p buffer fuel io = some (c.wait M p buffer io₁) := by
  cases c with
  | readSector lba n =>
    simp only [issued] at h
    simp only [run, sataAhciReadSector]
    by_cases hr : (sataReadPrepare M portMem p lba n buffer io).1 ≠ 0
    · rw [if_pos hr] at h
      exact absurd h (Option.some_ne_none io₁).symm
    · rw [if_neg hr] at h ⊢
      obtain ⟨io₂, hspin, rfl⟩ := Option.map_eq_some_iff.mp h
      rw [hspin]
      rfl
  | readSectorSatapi lba n =>
    simp only [issued] at h
    obtain ⟨hb, hm, ht, rfl⟩ := guards_eq_some h
    rw [run, satapi_eq lba n hb hm, if_neg ht]
    rfl
  | identify | identifySatapi => exact Option.map_eq_some_iff.mpr ⟨io₁, h, rfl⟩
  | identifySatapiProperly cmd =>
    simp only [issued] at h
    obtain ⟨hb, hm, ht, rfl⟩ := guards_eq_some h
    rw [run, properly_eq cmd hb hm, if_neg ht]
    -- Branch by branch: `rfl` on the whole would run the thousand polls of the wait.
    simp only [wait, capacityIssue, packetIssue]
    exact congrArg some (if_congr Iff.rfl rfl rfl)

theorem unissued_packetStart (h : Unissued p io) :
    Unissued p (packetStart M virtToPhys portMem p io).2 := by
  have hstart : Unissued p (io.memset portMem 0 ahciPortMemSize) := h
  exact Unissued.sataWaitClear _ _ _
    (((((hstart.writel (by decide) _).writel (by decide) _).writel (by decide) _).writel
      (by decide) _).andl (by decide) _)

theorem unissued_sataReadPrepare (lba : Word) (n : BitVec 16) (h : Unissued p io) :
    Unissued p (sataReadPrepare M portMem p lba n buffer io).2 := by
  have hstart : Unissued p (io.memset portMem 0 ahciPortMemSize) := h
  have hstop := ((((((hstart.writel (M := M) (show portClb ≠ portCi by decide)
    (portMem.setWidth 32)).writel (M := M) (show portClbu ≠ portCi by decide)
    ((portMem >>> 32).setWidth 32)).writel (M := M) (show portFb ≠ portCi by decide)
    ((portMem + ahciRfis).setWidth 32)).writel (M := M) (show portFbu ≠ portCi by decide)
    (((portMem + ahciRfis) >>> 32).setWidth 32)).andl (M := M) (show portCmd ≠ portCi by decide)
    (~~~0x01)).andl (M := M) (show portCmd ≠ portCi by decide) (~~~0x10))
  have hcr := Unissued.sataWaitStop (M := M) (p + portCmd) 0x8000 6 sataWaitTimeout hstop
  have hfr := Unissued.sataWaitStop (M := M) (p + portCmd) 0x4000 7 sataWaitTimeout hcr
  refine checked_snd hcr (checked_snd hfr ?_)
  exact ((hfr.congr (sataReadCommand_log _ _ _ _ _)).writel (by decide) _).andl (by decide) _

/-- A call that does not get to the issue fails. -/
theorem run_of_not_issued (c : AhciCall)
    (h : c.issued M virtToPhys portMem p buffer fuel io = none) (hio : Unissued p io) {r : Int}
    {io' : Io σ} (hrun : c.run M virtToPhys portMem p buffer fuel io = some (r, io')) :
    r ≠ 0 ∧ Unissued p io' := by
  cases c with
  | readSector lba n =>
    simp only [issued] at h
    simp only [run, sataAhciReadSector] at hrun
    by_cases hr : (sataReadPrepare M portMem p lba n buffer io).1 ≠ 0
    · rw [if_pos hr, Option.some_inj] at hrun
      obtain ⟨rfl, rfl⟩ := Prod.mk.inj hrun
      exact ⟨hr, unissued_sataReadPrepare lba n hio⟩
    · rw [if_neg hr, Option.map_eq_none_iff] at h
      rw [if_neg hr, h] at hrun
      exact absurd hrun (Option.some_ne_none _).symm
  | readSectorSatapi lba n =>
    simp only [issued] at h
    rw [run, Option.some_inj] at hrun
    rcases guards_eq_none h with hb | ⟨hb, hm⟩ | ⟨hb, hm, ht⟩
    · rw [sataAhciReadSectorSatapi, if_pos hb] at hrun
      obtain ⟨rfl, rfl⟩ := Prod.mk.inj hrun
      exact ⟨by decide, hio⟩
    · rw [sataAhciReadSectorSatapi, if_neg hb, if_pos hm] at hrun
      obtain ⟨rfl, rfl⟩ := Prod.mk.inj hrun
      exact ⟨by decide, hio⟩
    · rw [satapi_eq lba n hb hm, if_pos ht] at hrun
      obtain ⟨rfl, rfl⟩ := Prod.mk.inj hrun
      exact ⟨by decide, (((unissued_packetStart hio).readl _).readl _).readl _⟩
  | identify | identifySatapi =>
    have h' : sataIdentifyStart M _ fuel portMem p buffer io = none := h
    simp only [run, sataAhciIdentify, sataAhciIdentifySatapi, h', Option.map_none] at hrun
    exact absurd hrun (Option.some_ne_none _).symm
  | identifySatapiProperly cmd =>
    simp only [issued] at h
    rw [run, Option.some_inj] at hrun
    rcases guards_eq_none h with hb | ⟨hb, hm⟩ | ⟨hb, hm, ht⟩
    · rw [sataAhciIdentifySatapiProperly, if_pos hb] at hrun
      obtain ⟨rfl, rfl⟩ := Prod.mk.inj hrun
      exact ⟨by decide, hio⟩
    · rw [sataAhciIdentifySatapiProperly, if_neg hb, if_pos hm] at hrun
      obtain ⟨rfl, rfl⟩ := Prod.mk.inj hrun
      exact ⟨by decide, hio⟩
    · rw [properly_eq cmd hb hm, if_pos ht] at hrun
      obtain ⟨rfl, rfl⟩ := Prod.mk.inj hrun
      exact ⟨by decide, unissued_packetStart hio⟩

/-- The issue is the last thing before the wait. -/
theorem issued_eq (c : AhciCall) (h : c.issued M virtToPhys portMem p buffer fuel io = some io₁) :
    ∃ (io₀ : Io σ) (v : BitVec 32), io₁ = io₀.writel M (p + portCi) v := by
  cases c with
  | readSector lba n =>
    simp only [issued] at h
    split at h
    · exact absurd h (Option.some_ne_none io₁).symm
    · obtain ⟨io₂, _, rfl⟩ := Option.map_eq_some_iff.mp h
      exact ⟨_, _, rfl⟩
  | readSectorSatapi lba n | identifySatapiProperly cmd =>
    simp only [issued] at h
    obtain ⟨_, _, _, rfl⟩ := guards_eq_some h
    exact ⟨_, _, rfl⟩
  | identify | identifySatapi =>
    simp only [issued, sataIdentifyStart] at h
    obtain ⟨io₂, _, h⟩ := Option.bind_eq_some_iff.mp h
    obtain ⟨io₃, _, rfl⟩ := Option.map_eq_some_iff.mp h
    exact ⟨_, _, rfl⟩

/-! ### The outcome of the wait -/

/-- What was seen after the issue decides. -/
theorem sawCompletion_iff (c : AhciCall) (mask : BitVec 32) {io₀ io' : Io σ} {v : BitVec 32}
    {es : List IoEvent} (hio : io₁ = io₀.writel M (p + portCi) v)
    (hlog : io'.log = es.reverse ++ io₁.log) (hes : ∀ e ∈ es, isIssue p e = false) :
    c.SawCompletion p mask io'.log ↔ SawClear p mask c.budget es := by
  obtain ⟨ms, hms⟩ := sinceIssue_writel (M := M) (p := p) io₀ v
  have hsince : sinceIssue p io'.log = some (ms.map .dma ++ es) := by
    rw [hlog, sinceIssue_append _ _ hes, hio, hms, Option.map_some]
  unfold SawCompletion
  rw [hsince]
  constructor
  · rintro ⟨es', hes', hsaw⟩
    rw [← Option.some.inj hes'] at hsaw
    exact (sawClear_dma ms).mp hsaw
  · exact fun hsaw => ⟨_, rfl, (sawClear_dma ms).mpr hsaw⟩

theorem timeout_eq_zero (c : AhciCall) (k : Nat) :
    BitVec.ofNat 32 (c.budget - k) = 0 ↔ c.budget ≤ k := by
  have := c.budget_lt
  rw [BitVec.toNat_eq, BitVec.toNat_ofNat, Nat.mod_eq_of_lt (by omega)]
  exact Nat.sub_eq_zero_iff_le

/-- A reader returns `0` unless there was an error or the counter is `0`. -/
theorem reader_honest_iff {c : AhciCall} (hc : c.Reads) {res : BitVec 32 × Option (BitVec 32)}
    (rest : List IoEvent) {es log : List IoEvent} {r : Int}
    (hres : WaitResult M p 0xC0000000 c.budget io₁ res es)
    (hsaw : ∀ mask, c.SawCompletion p mask log ↔ SawClear p mask c.budget (es ++ rest))
    (hr : r = 0 ↔ res.2 = none ∧ res.1 ≠ 0) :
    ((r = 0 → c.SawCompletion p 0 log) ∧ (c.Reads → c.SawCompletion p 0xC0000000 log → r = 0)) ↔
      AnswersIn M p 0xC0000000 c.budget io₁ := by
  rw [hsaw, hsaw, hr]
  cases hres with
  | @cleared k _ hk hes hlt hans =>
    have hes' := hes.append rest
    rw [hlt, ne_eq, timeout_eq_zero]
    constructor
    · rintro ⟨_, h⟩
      have := (h hc hes').2
      omega
    · intro h
      exact ⟨fun _ => hes'.of_mask, fun _ _ => ⟨rfl, by omega⟩⟩
  | failed hans hes =>
    refine iff_of_true ⟨fun h => ?_, fun _ h => absurd h (hes rest)⟩ hans
    exact absurd h.1 (Option.some_ne_none _)
  | expired hans hes =>
    refine iff_of_false (fun h => ?_) (fun h => hans (Or.inl h))
    exact hes rest (h.1 ⟨rfl, by decide⟩)

theorem identify_honest_iff {c : AhciCall} (hc : ¬c.Reads) {io₀ : Io σ} {v : BitVec 32}
    (hbudget : c.budget = sataWaitTimeout) (hio : io₁ = io₀.writel M (p + portCi) v) :
    (((sataIdentifyWait M p io₁).1 = 0 → c.SawCompletion p 0 (sataIdentifyWait M p io₁).2.log) ∧
      (c.Reads → c.SawCompletion p 0xC0000000 (sataIdentifyWait M p io₁).2.log →
        (sataIdentifyWait M p io₁).1 = 0)) ↔ AnswersBy M p 0x40000000 sataWaitTimeout io₁ := by
  obtain ⟨es, hlog, hissue, hres⟩ :=
    sataWaitSlot_spec (M := M) (p := p) 0x40000000 sataWaitTimeout io₁
  rw [sataIdentifyWait]
  rw [← hbudget] at hlog hres ⊢
  generalize hw : sataWaitSlot M p 0x40000000 c.budget io₁ = w at hlog hres
  obtain ⟨⟨timeout, error⟩, io'⟩ := w
  have hsaw := sawCompletion_iff c 0 hio hlog hissue
  rw [and_iff_left fun h => absurd h hc]
  cases hres with
  | cleared _ hes _ hans => exact iff_of_true (fun _ => hsaw.mpr hes.of_mask) hans
  | failed hans _ =>
    exact iff_of_true (fun h => absurd h (show (8 : Int) ≠ 0 by decide)) (Or.inl hans)
  | expired hans hes =>
    refine iff_of_false (fun h => ?_) hans
    have hclear := hsaw.mp (h rfl)
    rw [← List.append_nil es] at hclear
    exact hes [] hclear

/-- The reads after the wait of the packet reader. -/
theorem satapiFail_log (io : Io σ) :
    ∃ rest : List IoEvent, (satapiFail M p io).2.log = rest.reverse ++ io.log ∧
      ∀ e ∈ rest, isIssue p e = false := by
  obtain ⟨ms₁, h₁⟩ := readl_log (M := M) (p + portIs) io
  obtain ⟨ms₂, h₂⟩ := readl_log (M := M) (p + portTfd) (io.readl M (p + portIs)).2
  obtain ⟨ms₃, h₃⟩ :=
    readl_log (M := M) (p + portSerr) ((io.readl M (p + portIs)).2.readl M (p + portTfd)).2
  rw [h₂, h₁, ← List.append_assoc, ← List.append_assoc, ← List.reverse_append,
    ← List.reverse_append] at h₃
  refine ⟨_, h₃, ?_⟩
  intro e he
  rcases List.mem_append.mp he with he | he
  · exact isIssue_readEvents e he
  · rcases List.mem_append.mp he with he | he <;> exact isIssue_readEvents e he

/-- What `readSector` makes of the wait. -/
theorem readSector_wait (io₁ : Io σ) (lba : Word) (n : BitVec 16) (buffer : Word) :
    ((readSector lba n).wait M p buffer io₁).2 =
        (sataWaitCommand M p (readSector lba n).budget io₁).2 ∧
      (((readSector lba n).wait M p buffer io₁).1 = 0 ↔
        (sataWaitCommand M p (readSector lba n).budget io₁).1.2 = none ∧
          (sataWaitCommand M p (readSector lba n).budget io₁).1.1 ≠ 0) := by
  simp only [wait, budget]
  generalize sataWaitCommand M p _ io₁ = w
  obtain ⟨⟨timeout, error⟩, io'⟩ := w
  cases error with
  | some isr => exact ⟨rfl, iff_of_false (show (8 : Int) ≠ 0 by decide) fun h => nomatch h.1⟩
  | none =>
    by_cases ht : timeout = 0#32
    · simp [ht]
    · simp [ht]

/-- `readSectorSatapi` goes on reading registers, whatever comes of the wait. -/
theorem readSectorSatapi_wait (io₁ : Io σ) (lba : BitVec 32) (n : BitVec 16) (buffer : Word) :
    ∃ rest : List IoEvent, (((readSectorSatapi lba n).wait M p buffer io₁).2.log =
        rest.reverse ++ (sataWaitCommand M p (readSectorSatapi lba n).budget io₁).2.log ∧
          ∀ e ∈ rest, isIssue p e = false) ∧
      (((readSectorSatapi lba n).wait M p buffer io₁).1 = 0 ↔
        (sataWaitCommand M p (readSectorSatapi lba n).budget io₁).1.2 = none ∧
          (sataWaitCommand M p (readSectorSatapi lba n).budget io₁).1.1 ≠ 0) := by
  simp only [wait, budget]
  generalize sataWaitCommand M p _ io₁ = w
  obtain ⟨⟨timeout, error⟩, io'⟩ := w
  obtain ⟨rest, hfail⟩ := satapiFail_log (M := M) (p := p) io'
  cases error with
  | some isr =>
    exact ⟨rest, hfail, iff_of_false (show (-1 : Int) ≠ 0 by decide) fun h => nomatch h.1⟩
  | none =>
    by_cases ht : timeout = 0#32
    · refine ⟨rest, ?_, ?_⟩
      · simpa [ht] using hfail
      · simp [ht, satapiFail]
    · obtain ⟨rest', hclear, hissue', _⟩ :=
        sataWaitClear_spec (M := M) (p := p) sataWaitTimeout io'
      refine ⟨rest', ?_, ?_⟩
      · simpa [ht] using ⟨hclear, hissue'⟩
      · simp [ht]

/-- **One call, from the issue on.** -/
theorem wait_honest_iff (c : AhciCall) (buffer : Word) {io₀ : Io σ} {v : BitVec 32}
    (hio : io₁ = io₀.writel M (p + portCi) v) :
    (((c.wait M p buffer io₁).1 = 0 → c.SawCompletion p 0 (c.wait M p buffer io₁).2.log) ∧
      (c.Reads → c.SawCompletion p 0xC0000000 (c.wait M p buffer io₁).2.log →
        (c.wait M p buffer io₁).1 = 0)) ↔ c.Answered M p io₁ := by
  cases c with
  | readSector lba n =>
    obtain ⟨es, hlog, hissue, hres⟩ := sataWaitSlot_spec (M := M) (p := p) 0xC0000000
      (readSector lba n).budget io₁
    rw [← sataWaitCommand_eq] at hlog hres
    have hwait := readSector_wait (M := M) (p := p) io₁ lba n buffer
    refine reader_honest_iff (c := readSector lba n) trivial [] hres (fun mask => ?_)
      hwait.2
    rw [List.append_nil, hwait.1]
    exact sawCompletion_iff _ mask hio hlog hissue
  | readSectorSatapi lba n =>
    obtain ⟨es, hlog, hissue, hres⟩ := sataWaitSlot_spec (M := M) (p := p) 0xC0000000
      (readSectorSatapi lba n).budget io₁
    rw [← sataWaitCommand_eq] at hlog hres
    obtain ⟨rest, ⟨hlog', hissue'⟩, hr⟩ :=
      readSectorSatapi_wait (M := M) (p := p) io₁ lba n buffer
    rw [hlog, ← List.append_assoc, ← List.reverse_append] at hlog'
    refine reader_honest_iff (c := readSectorSatapi lba n) trivial rest hres
      (fun mask => ?_) hr
    refine sawCompletion_iff _ mask hio hlog' fun e he => ?_
    rcases List.mem_append.mp he with he | he
    · exact hissue e he
    · exact hissue' e he
  | identify => exact identify_honest_iff id rfl hio
  | identifySatapi => exact identify_honest_iff id rfl hio
  | identifySatapiProperly cmd =>
    obtain ⟨es, hlog, hissue, hres⟩ := sataWaitClear_spec (M := M) (p := p) sataWaitTimeout io₁
    have hsaw : (identifySatapiProperly cmd).SawCompletion p 0
        ((identifySatapiProperly cmd).wait M p buffer io₁).2.log ↔ SawClear p 0 sataWaitTimeout es := by
      refine sawCompletion_iff (identifySatapiProperly cmd) _ hio ?_ hissue
      rw [← hlog]
      simp only [wait]
      split <;> rfl
    have hreads : ¬(identifySatapiProperly cmd).Reads := id
    rw [hsaw, and_iff_left fun h => absurd h hreads]
    rcases hres with ⟨hclear, hes⟩ | ⟨hclear, htimeout, hes⟩
    · exact iff_of_true (fun _ => hes) hclear
    · refine iff_of_false (fun h => hes (h ?_)) hclear
      simp only [wait, htimeout]
      rfl

/-- The runs with one bound on the loops that have none. -/
theorem honestAt_iff (c : AhciCall) (fuel : Nat) (io : Io σ) :
    (∀ (r : Int) (io' : Io σ),
      c.run M virtToPhys portMem p buffer fuel { io with log := [] } = some (r, io') →
      (r = 0 → c.SawCompletion p 0 io'.log) ∧
        (c.Reads → c.SawCompletion p 0xC0000000 io'.log → r = 0)) ↔
      ∀ io₁, c.issued M virtToPhys portMem p buffer fuel { io with log := [] } = some io₁ →
        c.Answered M p io₁ := by
  cases hissued : c.issued M virtToPhys portMem p buffer fuel { io with log := [] } with
  | none =>
    refine iff_of_true (fun r io' hrun => ?_) fun io₁ h => absurd h (Option.some_ne_none io₁).symm
    obtain ⟨hr, hio'⟩ := run_of_not_issued c hissued (fun e he => absurd he List.not_mem_nil) hrun
    refine ⟨fun h => absurd h hr, fun _ h => ?_⟩
    obtain ⟨es, hes, _⟩ := h
    exact absurd (hio'.sinceIssue.symm.trans hes) (Option.some_ne_none es).symm
  | some io₁ =>
    obtain ⟨io₀, v, hio⟩ := issued_eq c hissued
    rw [run_of_issued c hissued]
    have hwait := wait_honest_iff c buffer hio
    constructor
    · intro h io₂ hio₂
      rw [← Option.some.inj hio₂]
      exact hwait.mp (h _ _ rfl)
    · intro h r io' hrun
      have := hwait.mpr (h io₁ rfl)
      rw [Option.some.inj hrun] at this
      exact this

/-- **A call reports completion as it should exactly when the port answers in time.** -/
theorem honest_iff (c : AhciCall) (io : Io σ) :
    c.Honest M virtToPhys portMem p buffer io ↔
      ∀ (fuel : Nat) (io₁ : Io σ),
        c.issued M virtToPhys portMem p buffer fuel { io with log := [] } = some io₁ →
        c.Answered M p io₁ :=
  forall_congr' fun fuel => honestAt_iff c fuel io

end Calls

/-- A port on which the command never finishes: the read of one sector is a success. -/
theorem hungPort_not_honest :
    ¬(readSector 0 1).Honest (hungPort 0xF0000100) (fun x => x) 0x2000 0xF0000100 0x1000 emptyIo := by
  intro h
  have hanswered := (honestAt_iff _ 1 emptyIo).mp (h 1)
  obtain ⟨io₁, hprepare, _⟩ := sataReadPrepare_hung (p := 0xF0000100) 0x2000 0 1 0x1000
    (show Quiet emptyIo from rfl)
  have hissued : ∃ io₂, (readSector 0 1).issued (hungPort 0xF0000100) (fun x => x) 0x2000 0xF0000100
      0x1000 1 emptyIo = some io₂ := by
    simp only [issued, hprepare, sataSpin_hung]
    exact ⟨_, rfl⟩
  obtain ⟨io₂, hio₂⟩ := hissued
  obtain ⟨k, _, hk⟩ := hanswered io₂ hio₂
  rcases hk with hk | hk
  · rw [ciAt, readl_ci] at hk
    exact absurd hk (by decide)
  · rw [isAt, readl_of_ne (show portIs ≠ portCi by decide)] at hk
    exact absurd hk (by decide)

end AhciCall

end AncoreOS.Drivers
