import AncoreOS.Drivers.Ata
import Mathlib.Logic.Function.Iterate

/-!
# Drives that get ready

`ata_wait_ready` polls the status register and leaves the loop on the first answer
that shows an error or readiness.  What it does depends on the drive alone: on the
answers to repeated status reads, one after the other, from the state the drive is
in (`statusAt`).  `ataWaitReady_eq_zero_iff` says when it returns `0`, and
`ataWaitReady_of_readyAt` what it leaves then.
-/

namespace AncoreOS.Drivers

section Polls

variable {σ : Type*} (B : Bus σ) (base : BitVec 16)

/-- The drive after `k` reads of its status register. -/
def polled (d : σ) (k : Nat) : σ := (fun d => (B.inb d (base + ataRegStatus)).2)^[k] d

/-- The answer to the status read number `k`. -/
def statusAt (d : σ) (k : Nat) : BitVec 8 := (B.inb (polled B base d k) (base + ataRegStatus)).1

/-- A status on which the driver goes on. -/
def Go (needsDrq : Bool) (status : BitVec 8) : Prop :=
  status &&& 0x80 = 0 ∧ (needsDrq = false ∨ status &&& 0x08 ≠ 0)

instance (needsDrq : Bool) (status : BitVec 8) : Decidable (Go needsDrq status) :=
  inferInstanceAs (Decidable (_ ∧ _))

/-- Read number `k` is the first on which the driver goes on, and there was no error. -/
structure FirstGo (needsDrq : Bool) (d : σ) (k : Nat) : Prop where
  noError : ∀ j ≤ k, statusAt B base d j &&& 0x01 = 0
  go : Go needsDrq (statusAt B base d k)
  wait : ∀ j < k, ¬Go needsDrq (statusAt B base d j)

/-- The driver waits long enough for it. -/
def ReadyAt (needsDrq : Bool) (d : σ) (k : Nat) : Prop := k < 100000 ∧ FirstGo B base needsDrq d k

/-- The state after the status reads up to number `k`. -/
def afterPolls (k : Nat) (io : Io σ) : Io σ :=
  { io with
    dev := polled B base io.dev (k + 1)
    ataStatus := statusAt B base io.dev k
    log := (List.range (k + 1)).reverse.map (fun j =>
      .inb (base + ataRegStatus) (statusAt B base io.dev j)) ++ io.log }

variable {B base} {needsDrq : Bool} {d : σ}

@[simp] theorem polled_zero : polled B base d 0 = d := rfl

theorem firstGo_zero : FirstGo B base needsDrq d 0 ↔
    statusAt B base d 0 &&& 0x01 = 0 ∧ Go needsDrq (statusAt B base d 0) := by
  constructor
  · exact fun h => ⟨h.noError 0 le_rfl, h.go⟩
  · rintro ⟨herror, hgo⟩
    refine ⟨fun j hj => ?_, hgo, fun j hj => absurd hj (Nat.not_lt_zero j)⟩
    rw [Nat.le_zero.mp hj]
    exact herror

theorem firstGo_succ (k : Nat) : FirstGo B base needsDrq d (k + 1) ↔
    statusAt B base d 0 &&& 0x01 = 0 ∧ ¬Go needsDrq (statusAt B base d 0) ∧
      FirstGo B base needsDrq (B.inb d (base + ataRegStatus)).2 k := by
  constructor
  · intro h
    exact ⟨h.noError 0 (Nat.zero_le _), h.wait 0 (Nat.succ_pos k),
      fun j hj => h.noError (j + 1) (Nat.succ_le_succ hj), h.go,
      fun j hj => h.wait (j + 1) (Nat.succ_lt_succ hj)⟩
  · rintro ⟨herror, hwait, h⟩
    refine ⟨fun j hj => ?_, h.go, fun j hj => ?_⟩
    · cases j with
      | zero => exact herror
      | succ j => exact h.noError j (Nat.le_of_succ_le_succ hj)
    · cases j with
      | zero => exact hwait
      | succ j => exact h.wait j (Nat.lt_of_succ_lt_succ hj)

/-- The first round on which the driver goes on is one round. -/
theorem FirstGo.unique {k k' : Nat} (h : FirstGo B base needsDrq d k)
    (h' : FirstGo B base needsDrq d k') : k = k' := by
  rcases Nat.lt_trichotomy k k' with hlt | heq | hgt
  · exact absurd h.go (h'.wait k hlt)
  · exact heq
  · exact absurd h'.go (h.wait k' hgt)

/-- One round of the loop. -/
theorem ataPoll_succ (n : Nat) (io : Io σ) :
    ataPoll B base needsDrq (n + 1) io =
      if statusAt B base io.dev 0 &&& 0x01 ≠ 0 then
        let (error, io) := (afterPolls B base 0 io).inb B (base + ataRegError)
        (-2, { io with ataError := error })
      else if Go needsDrq (statusAt B base io.dev 0) then (0, afterPolls B base 0 io)
      else ataPoll B base needsDrq n (afterPolls B base 0 io) := rfl

theorem afterPolls_succ (k : Nat) (io : Io σ) :
    afterPolls B base (k + 1) io = afterPolls B base k (afterPolls B base 0 io) := by
  have hlog : (List.range (k + 2)).reverse.map (fun j =>
        IoEvent.inb (base + ataRegStatus) (statusAt B base io.dev j)) =
      (List.range (k + 1)).reverse.map (fun j => IoEvent.inb (base + ataRegStatus)
        (statusAt B base (B.inb io.dev (base + ataRegStatus)).2 j)) ++
        [.inb (base + ataRegStatus) (statusAt B base io.dev 0)] := by
    rw [List.range_succ_eq_map, List.reverse_cons, List.map_append, List.map_reverse,
      List.map_reverse, List.map_map]
    rfl
  unfold afterPolls
  rw [hlog, List.append_assoc]
  rfl

theorem ataPoll_of_firstGo (n : Nat) : ∀ (k : Nat) (io : Io σ), k < n →
    FirstGo B base needsDrq io.dev k →
    ataPoll B base needsDrq n io = (0, afterPolls B base k io) := by
  induction n with
  | zero => exact fun k io hk _ => absurd hk (Nat.not_lt_zero k)
  | succ n ih =>
    intro k io hk h
    rw [ataPoll_succ, if_neg (not_not.mpr (h.noError 0 (Nat.zero_le k)))]
    cases k with
    | zero => rw [if_pos h.go]
    | succ k =>
      obtain ⟨_, hwait, h⟩ := (firstGo_succ k).mp h
      rw [if_neg hwait, ih k (afterPolls B base 0 io) (Nat.lt_of_succ_lt_succ hk) h, afterPolls_succ]

theorem exists_firstGo_of_ataPoll (n : Nat) : ∀ io : Io σ, (ataPoll B base needsDrq n io).1 = 0 →
    ∃ k < n, FirstGo B base needsDrq io.dev k := by
  induction n with
  | zero => exact fun io h => absurd h (show (-1 : Int) ≠ 0 by decide)
  | succ n ih =>
    intro io h
    rw [ataPoll_succ] at h
    by_cases herror : statusAt B base io.dev 0 &&& 0x01 = 0
    · rw [if_neg (not_not.mpr herror)] at h
      by_cases hgo : Go needsDrq (statusAt B base io.dev 0)
      · exact ⟨0, Nat.succ_pos n, firstGo_zero.mpr ⟨herror, hgo⟩⟩
      · rw [if_neg hgo] at h
        obtain ⟨k, hk, hfirst⟩ := ih _ h
        exact ⟨k + 1, Nat.succ_lt_succ hk, (firstGo_succ k).mpr ⟨herror, hgo, hfirst⟩⟩
    · rw [if_pos herror] at h
      exact absurd h (show (-2 : Int) ≠ 0 by decide)

/-- A poll loop only adds to the log. -/
theorem length_le_ataPoll (n : Nat) : ∀ io : Io σ,
    io.log.length ≤ (ataPoll B base needsDrq n io).2.log.length := by
  induction n with
  | zero => exact fun io => le_rfl
  | succ n ih =>
    intro io
    have hround : io.log.length ≤ (afterPolls B base 0 io).log.length := by simp [afterPolls]
    rw [ataPoll_succ]
    split
    · exact le_trans hround (Nat.le_succ _)
    · split
      · exact hround
      · exact le_trans hround (ih _)

/-- **What a wait leaves when it ends with a ready drive.** -/
theorem ataWaitReady_of_readyAt {k : Nat} {io : Io σ} (h : ReadyAt B base needsDrq io.dev k) :
    ataWaitReady B base needsDrq io = (0, afterPolls B base k io) :=
  ataPoll_of_firstGo 100000 k io h.1 h.2

theorem ataWaitReady_eq_zero_iff {io : Io σ} :
    (ataWaitReady B base needsDrq io).1 = 0 ↔ ∃ k, ReadyAt B base needsDrq io.dev k := by
  constructor
  · exact exists_firstGo_of_ataPoll 100000 io
  · rintro ⟨k, h⟩
    rw [ataWaitReady_of_readyAt h]

/-- A wait reads the status at least once. -/
theorem length_lt_ataWaitReady (io : Io σ) :
    io.log.length < (ataWaitReady B base needsDrq io).2.log.length := by
  have hround : io.log.length < (afterPolls B base 0 io).log.length := by simp [afterPolls]
  rw [ataWaitReady, ataPoll_succ]
  split
  · exact lt_trans hround (Nat.lt_succ_self _)
  · split
    · exact hround
    · exact lt_of_lt_of_le hround (length_le_ataPoll _ _)

/-- How the rest of a call runs, when the drive gets ready and when it does not. -/
theorem checked_ataWaitReady (error : Int → Int) (rest : Io σ → Int × Io σ) (io : Io σ) :
    (∃ k, ReadyAt B base needsDrq io.dev k ∧
      checked (ataWaitReady B base needsDrq io) error rest = rest (afterPolls B base k io)) ∨
    ((∀ k, ¬ReadyAt B base needsDrq io.dev k) ∧
      ∃ r, r ≠ 0 ∧ checked (ataWaitReady B base needsDrq io) error rest =
        (error r, (ataWaitReady B base needsDrq io).2)) := by
  by_cases h : ∃ k, ReadyAt B base needsDrq io.dev k
  · obtain ⟨k, hk⟩ := h
    exact Or.inl ⟨k, hk, checked_of_zero (ataWaitReady_of_readyAt hk)⟩
  · refine Or.inr ⟨not_exists.mp h, (ataWaitReady B base needsDrq io).1, ?_, ?_⟩
    · exact fun hzero => h (ataWaitReady_eq_zero_iff.mp hzero)
    · exact checked_of_ne rfl fun hzero => h (ataWaitReady_eq_zero_iff.mp hzero)

end Polls

end AncoreOS.Drivers
