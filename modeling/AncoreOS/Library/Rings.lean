import Mathlib.Data.List.Cycle

/-!
# Circular doubly linked lists

A ring is a cycle of nodes in which each node points to its successor and is
pointed back to by it.  A chain of linked nodes depends on `next` of every node
but the last and on `prev` of every node but the first (`isChain_linked_congr`),
and the two edits of a ring, `Ring.insert` and `Ring.remove`, change just these
words at one seam.

The cycles and their chains are those of Mathlib, so a ring may be read from any
of its nodes on (`Ring.rotate`).
-/

namespace Rings

variable {α : Type*} {next prev next' prev' : α → α}

/-- `y` follows `x`, and both of them say so. -/
def Linked (next prev : α → α) (x y : α) : Prop := next x = y ∧ prev y = x

/-- The nodes `l` are linked in a circle, in this order. -/
def Ring (next prev : α → α) (l : List α) : Prop := Cycle.Chain (Linked next prev) l

theorem ring_singleton {x : α} : Ring next prev [x] ↔ next x = x ∧ prev x = x :=
  Cycle.chain_singleton _ _

theorem ring_cons {a : α} {l : List α} :
    Ring next prev (a :: l) ↔ List.IsChain (Linked next prev) ((a :: l) ++ [a]) :=
  Cycle.chain_coe_cons _ _ _

theorem Ring.rotate {l l' : List α} (h : Ring next prev l) (hl : l ~r l') :
    Ring next prev l' := by
  have heq : (l : Cycle α) = l' := Cycle.coe_eq_coe.mpr hl
  unfold Ring at *
  rwa [← heq]

/-- A node of a ring may be read as its first one. -/
theorem exists_isRotated_cons {l : List α} {x : α} (hx : x ∈ l) : ∃ m, l ~r x :: m := by
  obtain ⟨s, t, rfl⟩ := List.append_of_mem hx
  exact ⟨t ++ s, List.isRotated_append⟩

/-! ### What a chain depends on -/

theorem isChain_linked_congr {l : List α} (h : List.IsChain (Linked next prev) l)
    (hnext : ∀ x ∈ l.dropLast, next' x = next x) (hprev : ∀ x ∈ l.tail, prev' x = prev x) :
    List.IsChain (Linked next' prev') l := by
  induction l with
  | nil => exact .nil
  | cons a l ih =>
    cases l with
    | nil => exact .singleton a
    | cons b l =>
      rw [List.isChain_cons_cons] at h ⊢
      obtain ⟨⟨hab, hba⟩, htail⟩ := h
      refine ⟨⟨(hnext a ?_).trans hab, (hprev b ?_).trans hba⟩, ih htail (fun x hx => ?_) fun x hx => ?_⟩
      · exact List.mem_cons_self
      · exact List.mem_cons_self
      · exact hnext x (List.mem_cons_of_mem a hx)
      · exact hprev x (List.mem_cons_of_mem b hx)

theorem Ring.congr {l : List α} (h : Ring next prev l) (hnext : ∀ x ∈ l, next' x = next x)
    (hprev : ∀ x ∈ l, prev' x = prev x) : Ring next' prev' l := by
  cases l with
  | nil => exact Cycle.Chain.nil _
  | cons a l =>
    rw [ring_cons] at h ⊢
    refine isChain_linked_congr h (fun x hx => ?_) fun x hx => ?_
    · rw [List.dropLast_concat] at hx
      exact hnext x hx
    · have hmem : x ∈ l ++ [a] := hx
      rw [List.mem_append, List.mem_singleton] at hmem
      refine hprev x ?_
      rcases hmem with hl | rfl
      · exact List.mem_cons_of_mem a hl
      · exact List.mem_cons_self

/-- A ring is a linked chain and the link from its last node to the first. -/
theorem ring_iff {a p : α} {l : List α} (hp : (a :: l).getLast? = some p) :
    Ring next prev (a :: l) ↔
      List.IsChain (Linked next prev) (a :: l) ∧ Linked next prev p a := by
  rw [ring_cons, List.isChain_append]
  constructor
  · rintro ⟨hchain, -, hseam⟩
    exact ⟨hchain, hseam p hp a rfl⟩
  · rintro ⟨hchain, hseam⟩
    refine ⟨hchain, .singleton a, fun x hx y hy => ?_⟩
    rw [hp, Option.mem_some] at hx
    rw [List.head?_cons, Option.mem_some] at hy
    rw [← hx, ← hy]
    exact hseam

theorem Ring.prev_eq {a p : α} {l : List α} (h : Ring next prev (a :: l))
    (hp : (a :: l).getLast? = some p) : prev a = p :=
  ((ring_iff hp).mp h).2.2

/-- The last node of a list without repetitions is not one of those before it. -/
theorem ne_of_mem_dropLast {l : List α} {p x : α} (hp : l.getLast? = some p) (hn : l.Nodup)
    (hx : x ∈ l.dropLast) : x ≠ p := by
  rintro rfl
  have hsplit : l.dropLast ++ [x] = l := List.dropLast_append_getLast? x hp
  rw [← hsplit, List.nodup_append] at hn
  exact hn.2.2 x hx x List.mem_cons_self rfl

/-! ### The two edits -/

/-- **A node goes in before `a`.**  Four words change: both of the new node, `next` of the
node before `a`, and `prev` of `a`. -/
theorem Ring.insert {a n : α} {l : List α} (h : Ring next prev (a :: l)) (hn : (a :: l).Nodup)
    (hnew : n ∉ a :: l) (hnn : next' n = a) (hpn : prev' n = prev a) (hnp : next' (prev a) = n)
    (hpa : prev' a = n) (hnext : ∀ x, x ≠ n → x ≠ prev a → next' x = next x)
    (hprev : ∀ x, x ≠ n → x ≠ a → prev' x = prev x) : Ring next' prev' (a :: l ++ [n]) := by
  obtain ⟨p, hp⟩ : ∃ p, (a :: l).getLast? = some p := ⟨_, List.getLast?_eq_some_getLast (by simp)⟩
  have hpe := h.prev_eq hp
  rw [hpe] at hpn hnp hnext
  have hlast : (a :: (l ++ [n])).getLast? = some n := by
    rw [← List.cons_append, List.getLast?_concat]
  rw [List.cons_append, ring_iff hlast]
  refine ⟨?_, hnn, hpa⟩
  rw [← List.cons_append, List.isChain_append]
  refine ⟨?_, .singleton n, fun x hx y hy => ?_⟩
  · refine isChain_linked_congr ((ring_iff hp).mp h).1 (fun x hx => ?_) fun x hx => ?_
    · have hmem : x ∈ a :: l := List.dropLast_subset _ hx
      exact hnext x (ne_of_mem_of_not_mem hmem hnew) (ne_of_mem_dropLast hp hn hx)
    · have hmem : x ∈ l := hx
      refine hprev x (ne_of_mem_of_not_mem (List.mem_cons_of_mem a hmem) hnew) ?_
      exact ne_of_mem_of_not_mem hmem (List.nodup_cons.mp hn).1
  · rw [hp, Option.mem_some] at hx
    rw [List.head?_cons, Option.mem_some] at hy
    rw [← hx, ← hy]
    exact ⟨hnp, hpn⟩

/-- **The first node goes out.**  Its two neighbours are linked with one another. -/
theorem Ring.remove {a b : α} {l : List α} (h : Ring next prev (a :: b :: l))
    (hn : (a :: b :: l).Nodup) (hnp : next' (prev a) = next a) (hpn : prev' (next a) = prev a)
    (hnext : ∀ x, x ≠ a → x ≠ prev a → next' x = next x)
    (hprev : ∀ x, x ≠ a → x ≠ next a → prev' x = prev x) : Ring next' prev' (b :: l) := by
  obtain ⟨p, hp⟩ : ∃ p, (b :: l).getLast? = some p := ⟨_, List.getLast?_eq_some_getLast (by simp)⟩
  have hpa : (a :: b :: l).getLast? = some p := by rw [List.getLast?_cons_cons, hp]
  have hpe := h.prev_eq hpa
  obtain ⟨hchain, -⟩ := (ring_iff hpa).mp h
  rw [List.isChain_cons_cons] at hchain
  obtain ⟨⟨hab, -⟩, htail⟩ := hchain
  rw [hpe] at hnp hpn hnext
  rw [hab] at hnp hpn hprev
  obtain ⟨ha, hnb⟩ := List.nodup_cons.mp hn
  rw [ring_iff hp]
  refine ⟨isChain_linked_congr htail (fun x hx => ?_) fun x hx => ?_, hnp, hpn⟩
  · have hmem : x ∈ b :: l := List.dropLast_subset _ hx
    exact hnext x (ne_of_mem_of_not_mem hmem ha) (ne_of_mem_dropLast hp hnb hx)
  · have hmem : x ∈ l := hx
    refine hprev x (ne_of_mem_of_not_mem (List.mem_cons_of_mem b hmem) ha) ?_
    exact ne_of_mem_of_not_mem hmem (List.nodup_cons.mp hnb).1

/-! ### Walking along a ring -/

theorem Ring.linked {l : List α} {x : α} [DecidableEq α] (h : Ring next prev l) (hn : l.Nodup)
    (hx : x ∈ l) : Linked next prev x (l.next x hx) := by
  obtain ⟨m, hm⟩ := exists_isRotated_cons hx
  rw [List.isRotated_next_eq hm hn hx]
  have hring := h.rotate hm
  cases m with
  | nil =>
    rw [List.next_singleton]
    exact ring_singleton.mp hring
  | cons b m =>
    rw [List.next_cons_cons_eq]
    exact (List.isChain_cons_cons.mp (ring_cons.mp hring)).1

/-- **`next` and `prev` are the neighbours in the ring**, and so inverse to each other on it. -/
theorem Ring.neighbours {l : List α} {x : α} [DecidableEq α] (h : Ring next prev l) (hn : l.Nodup)
    (hx : x ∈ l) :
    (next x = l.next x hx ∧ prev x = l.prev x hx) ∧ prev (next x) = x ∧ next (prev x) = x := by
  have hnext := h.linked hn hx
  have hprev := h.linked hn (l.prev_mem x hx)
  rw [List.next_prev l hn x hx] at hprev
  refine ⟨⟨hnext.1, hprev.2⟩, ?_, ?_⟩
  · rw [hnext.1, hnext.2]
  · rw [hprev.2, hprev.1]

/-- A node that follows itself is the only one. -/
theorem Ring.eq_singleton_iff {l : List α} {x : α} (h : Ring next prev l) (hn : l.Nodup)
    (hx : x ∈ l) : (next x = x ↔ l = [x]) ∧ (prev x = x ↔ l = [x]) := by
  obtain ⟨m, hm⟩ := exists_isRotated_cons hx
  have hring := h.rotate hm
  cases m with
  | nil =>
    have heq : l = [x] := List.isRotated_singleton_iff.mp hm
    obtain ⟨hnx, hpx⟩ := ring_singleton.mp hring
    exact ⟨iff_of_true hnx heq, iff_of_true hpx heq⟩
  | cons b m =>
    have hne : l ≠ [x] := by
      intro heq
      have hlen := hm.perm.length_eq
      rw [heq, List.length_cons, List.length_cons] at hlen
      simp at hlen
    have hnodup := hm.nodup_iff.mp hn
    have hxb : x ∉ b :: m := (List.nodup_cons.mp hnodup).1
    obtain ⟨p, hp⟩ : ∃ p, (b :: m).getLast? = some p :=
      ⟨_, List.getLast?_eq_some_getLast (by simp)⟩
    have hpx : (x :: b :: m).getLast? = some p := by rw [List.getLast?_cons_cons, hp]
    have hnext := (List.isChain_cons_cons.mp (ring_cons.mp hring)).1.1
    refine ⟨iff_of_false (fun he => hxb ?_) hne, iff_of_false (fun he => hxb ?_) hne⟩
    · rw [← he, hnext]
      exact List.mem_cons_self
    · rw [hring.prev_eq hpx] at he
      rw [← he]
      exact List.mem_of_getLast? hp

end Rings
