import Mathlib.Data.List.Basic
import Mathlib.Logic.Function.Basic
import Mathlib.Tactic

/-!
# A line of a terminal

A line has a cell for every column and a cursor.  A character goes into the cell at the cursor
and moves it to the right, `\b` only moves it to the left, and a space leaves the cell blank.

`Shows t l` says that all that can be seen is `l`, with the cursor behind it.  It is what is
left of a line by appending a character (`Shows.put`) and by taking the last one away with
`"\b \b"` (`Shows.rubOut`).
-/

structure TextLine where
  cells : Nat → Char
  cursor : Nat

namespace TextLine

def blank : TextLine := ⟨fun _ => ' ', 0⟩

def put (t : TextLine) (c : Char) : TextLine :=
  if c = '\x08' then { t with cursor := t.cursor - 1 }
  else ⟨Function.update t.cells t.cursor c, t.cursor + 1⟩

/-- The line after a text has been printed. -/
def type (t : TextLine) (l : List Char) : TextLine := l.foldl put t

@[simp] theorem type_nil (t : TextLine) : t.type [] = t := rfl

theorem type_append (t : TextLine) (l l' : List Char) : t.type (l ++ l') = (t.type l).type l' :=
  List.foldl_append

/-- The text is all that can be seen. -/
structure Shows (t : TextLine) (l : List Char) : Prop where
  cursor : t.cursor = l.length
  text : ∀ i (h : i < l.length), t.cells i = l[i]
  rest : ∀ i, l.length ≤ i → t.cells i = ' '

theorem shows_blank : Shows blank [] :=
  ⟨rfl, fun _ h => absurd h (Nat.not_lt_zero _), fun _ _ => rfl⟩

namespace Shows

variable {t : TextLine} {l : List Char}

theorem put (h : Shows t l) {c : Char} (hc : c ≠ '\x08') : Shows (t.put c) (l ++ [c]) := by
  rw [TextLine.put, if_neg hc]
  refine ⟨?_, fun i hi => ?_, fun i hi => ?_⟩
  · rw [List.length_append, List.length_singleton, h.cursor]
  · rw [List.length_append, List.length_singleton] at hi
    by_cases hlt : i < l.length
    · rw [List.getElem_append_left hlt]
      exact (Function.update_of_ne (by rw [h.cursor]; omega) _ _).trans (h.text i hlt)
    · obtain rfl : i = l.length := by omega
      rw [List.getElem_append_right (Nat.le_refl _)]
      simp [h.cursor]
  · rw [List.length_append, List.length_singleton] at hi
    exact (Function.update_of_ne (by rw [h.cursor]; omega) _ _).trans (h.rest i (by omega))

theorem type (h : Shows t l) {l' : List Char} (hl' : ∀ c ∈ l', c ≠ '\x08') :
    Shows (t.type l') (l ++ l') := by
  induction l' generalizing t l with
  | nil => simpa using h
  | cons c l' ih =>
    have htail := ih (h.put (hl' c List.mem_cons_self)) fun d hd => hl' d (List.mem_cons_of_mem c hd)
    rwa [List.append_assoc, List.singleton_append] at htail

/-- `"\b \b"` takes the last character away. -/
theorem rubOut {c : Char} (h : Shows t (l ++ [c])) : Shows (t.type ['\x08', ' ', '\x08']) l := by
  have hcursor : t.cursor = l.length + 1 := by
    rw [h.cursor, List.length_append, List.length_singleton]
  have hline : t.type ['\x08', ' ', '\x08'] = ⟨Function.update t.cells l.length ' ', l.length⟩ := by
    simp [TextLine.type, TextLine.put, hcursor]
  rw [hline]
  refine ⟨rfl, fun i hi => ?_, fun i hi => ?_⟩
  · have htext := h.text i (by rw [List.length_append]; omega)
    rw [List.getElem_append_left hi] at htext
    exact (Function.update_of_ne (by omega) _ _).trans htext
  · by_cases heq : i = l.length
    · rw [heq]
      exact Function.update_self _ _ _
    · refine (Function.update_of_ne heq _ _).trans (h.rest i ?_)
      rw [List.length_append, List.length_singleton]
      omega

end Shows

end TextLine
