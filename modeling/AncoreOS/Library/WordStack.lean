import AncoreOS.Library.ByteMemory

/-!
# A stack of words in memory

The stack grows down: a push stores a 64-bit word below the stack pointer.
`Holds m sp ws` says that the words `ws`, the top one first, are the ones from
`sp` on.  Nothing is said about what lies above them, so a reader of the stack
may also look past its end.
-/

namespace ByteMemory

variable {m : Mem} {sp : Word} {ws : List Word}

def Holds (m : Mem) (sp : Word) (ws : List Word) : Prop :=
  ∀ k w, ws[k]? = some w → load64 m (sp + BitVec.ofNat 64 (8 * k)) = w

theorem holds_nil (m : Mem) (sp : Word) : Holds m sp [] := by
  intro k w h
  simp at h

/-- The words that were there are one place further after a push. -/
theorem Holds.push (h : Holds m sp ws) (hlen : ws.length < 2 ^ 60) (v : Word) :
    Holds (store64 m (sp - 8) v) (sp - 8) (v :: ws) := by
  intro k w hk
  cases k with
  | zero =>
    rw [List.getElem?_cons_zero, Option.some_inj] at hk
    have h0 : sp - 8 + BitVec.ofNat 64 (8 * 0) = sp - 8 := BitVec.add_zero _
    rw [h0, load64_store64_same, hk]
  | succ k =>
    rw [List.getElem?_cons_succ] at hk
    have hlt : k < ws.length := (List.getElem?_eq_some_iff.mp hk).1
    have hshift : sp - 8 + BitVec.ofNat 64 (8 * (k + 1)) = sp + BitVec.ofNat 64 (8 * k) := by
      rw [show 8 * (k + 1) = 8 + 8 * k by ring, BitVec.ofNat_add]
      bv_omega
    have hapart : ∀ x, InRange (sp - 8 + BitVec.ofNat 64 (8 * (k + 1))) 8 x →
        ¬ InRange (sp - 8 + BitVec.ofNat 64 0) 8 x := fun x hx =>
      not_inRange_of_offset hx (by omega) (by omega) (by omega)
    rw [show sp - 8 + BitVec.ofNat 64 0 = sp - 8 from BitVec.add_zero _] at hapart
    rw [load64_store64_of_disjoint hapart, hshift]
    exact h k w hk

theorem Holds.tail {v : Word} (h : Holds m (sp - 8) (v :: ws)) : Holds m sp ws := by
  intro k w hk
  have hshift : sp + BitVec.ofNat 64 (8 * k) = sp - 8 + BitVec.ofNat 64 (8 * (k + 1)) := by
    rw [show 8 * (k + 1) = 8 + 8 * k by ring, BitVec.ofNat_add]
    bv_omega
  rw [hshift]
  exact h (k + 1) w hk

/-- The top word, and the words a pop leaves. -/
theorem Holds.pop {v : Word} (h : Holds m sp (v :: ws)) : load64 m sp = v ∧ Holds m (sp + 8) ws := by
  constructor
  · have htop := h 0 v rfl
    rwa [show sp + BitVec.ofNat 64 (8 * 0) = sp from BitVec.add_zero sp] at htop
  · refine Holds.tail (v := v) ?_
    rwa [BitVec.add_sub_cancel]

end ByteMemory
