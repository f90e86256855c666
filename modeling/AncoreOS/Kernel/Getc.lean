import AncoreOS.Kernel.Keyboard

/-!
# Reading characters

`getc` goes round the first 128 entries of `chars` and keeps a flag of its own for each,
`key_was_pressed`, by which it tells a key that went down from one that is still down.  An
interrupt may come between any two of its looks, so a run is a list of `GetcAction`s: a
scancode for the handler, or one look of the loop at one entry.

`Typist` follows the scancodes alone: which key is down, and the characters that should be
read.  Keys do not overlap and modifiers are not used (`Typist.Allows`).  A character is
missed when its key comes up before `getc` has looked, or goes down before `getc` has
looked at the entry since it last came up (`Noticed`).  `GetcInv` counts what is missed:
the characters returned, the one to come and the missed ones add up to those typed.
-/

namespace AncoreOS.Kernel

/-! ### The reader -/

structure Getc where
  kbd : KeyboardState
  keyWasPressed : BitVec 8 → Bool
  key : Nat
  out : List (BitVec 8)

def getcStart : Getc := ⟨keyboardStart, fun _ => false, 0, []⟩

/-- The characters that `getc` returns. -/
def getcReturns (key : BitVec 8) : Bool :=
  (32 ≤ key && key ≤ 126) || key == keyEnter || key == keyBackspace || key == keyTab

/-- The loop variable after one turn; the outer loop starts it again. -/
def nextKey (key : Nat) : Nat := if key + 1 < 128 then key + 1 else 0

/-- One turn of the inner loop of `getc`.  A call that returns is followed by the next
call, which starts from `0`. -/
def getcLook (s : Getc) : Getc :=
  let key := BitVec.ofNat 8 s.key
  if s.kbd.keyboard.chars key && !s.keyWasPressed key then
    let was := Function.update s.keyWasPressed key true
    if getcReturns key then { s with keyWasPressed := was, key := 0, out := s.out ++ [key] }
    else { s with keyWasPressed := was, key := nextKey s.key }
  else if !s.kbd.keyboard.chars key && s.keyWasPressed key then
    { s with keyWasPressed := Function.update s.keyWasPressed key false, key := nextKey s.key }
  else { s with key := nextKey s.key }

inductive GetcAction
  | irq (scancode : BitVec 8)
  | look
  deriving DecidableEq, Repr

def Getc.step (s : Getc) : GetcAction → Getc
  | .irq scancode => { s with kbd := keyboardHandler scancode s.kbd }
  | .look => getcLook s

def Getc.run (s : Getc) (as : List GetcAction) : Getc := as.foldl Getc.step s

/-! ### The typist -/

/-- The key that is down, with its prefix, and the characters typed so far. -/
structure Typist where
  ext : Bool
  down : Option (Bool × BitVec 8)
  text : List (BitVec 8)

def typistStart : Typist := ⟨false, none, []⟩

def isModifier (code : BitVec 8) : Bool :=
  [keyAlt, keyCtrl, keyLshift, keyRshift, keyCapsLock, keyNumLock, keyScrollLock].contains code

namespace Typist

/-- The character of the key that is down, if `getc` should return it.  Keys behind the
prefix are not in the layout. -/
def char (t : Typist) : Option (BitVec 8) :=
  match t.down with
  | some (false, code) => if getcReturns (keyChar code 0) then some (keyChar code 0) else none
  | _ => none

def step (t : Typist) : GetcAction → Typist
  | .look => t
  | .irq b =>
    if b = 0xE0 then { t with ext := true }
    else if keyIsPress b then
      let t' : Typist := { t with ext := false, down := some (t.ext, keyScancode b) }
      if t.down = none then { t' with text := t.text ++ t'.char.toList } else t'
    else { t with ext := false, down := none }

def run (t : Typist) (as : List GetcAction) : Typist := as.foldl step t

/-- The scancode is one that a single finger sends: no modifier, and no key but the one
that is down, which may repeat. -/
def Allows (t : Typist) : GetcAction → Prop
  | .look => True
  | .irq b => b = 0xE0 ∨ (isModifier (keyScancode b) = false ∧
      if keyIsPress b then t.down = none ∨ t.down = some (t.ext, keyScancode b)
      else t.down = some (t.ext, keyScancode b))

def Typed : Typist → List GetcAction → Prop
  | _, [] => True
  | t, a :: as => t.Allows a ∧ Typed (t.step a) as

end Typist

/-- What `getc` knows when a scancode comes: a key that goes down is one it has seen up,
and a key that comes up one it has seen down. -/
def Noticed (s : Getc) (t : Typist) : GetcAction → Prop
  | .look => True
  | .irq b =>
    if b = 0xE0 then True
    else if keyIsPress b then
      t.down = none → ∀ c ∈ (t.step (.irq b)).char, s.keyWasPressed c = false
    else ∀ c ∈ t.char, s.keyWasPressed c = true

def AllNoticed : Getc → Typist → List GetcAction → Prop
  | _, _, [] => True
  | s, t, a :: as => Noticed s t a ∧ AllNoticed (s.step a) (t.step a) as

/-! ### The handler on a key that is no modifier -/

section Handler

variable {b : BitVec 8} {k : KeyboardState}

theorem mods_of_not_modifier : ∀ b : BitVec 8, isModifier (keyScancode b) = false →
    plainMods 0 b = 0 ∧ extendedMods 0 b = 0 := by decide

theorem keyDown_zero (b : BitVec 8) : keyDown 0 b = keyChar (keyScancode b) 0 := by
  have hcode : ∀ b : BitVec 8, keyScancode (keyScancode b) = keyScancode b := by decide
  unfold keyDown keyChar
  rw [hcode]
  rfl

theorem keyboardHandler_ext (hb : b ≠ 0xE0) (hmod : isModifier (keyScancode b) = false)
    (hext : k.extended = true) (hmods : k.keyboard.mods = 0) :
    (keyboardHandler b k).keyboard.chars = k.keyboard.chars ∧
      (keyboardHandler b k).keyboard.mods = 0 ∧ (keyboardHandler b k).extended = false := by
  rw [keyboardHandler, if_neg hb, if_pos hext, hmods, (mods_of_not_modifier b hmod).2]
  exact ⟨rfl, rfl, rfl⟩

theorem keyboardHandler_plain (hb : b ≠ 0xE0) (hmod : isModifier (keyScancode b) = false)
    (hext : k.extended = false) (hmods : k.keyboard.mods = 0) :
    (keyboardHandler b k).keyboard.chars =
        Function.update k.keyboard.chars (keyChar (keyScancode b) 0) (keyIsPress b) ∧
      (keyboardHandler b k).keyboard.mods = 0 ∧ (keyboardHandler b k).extended = false := by
  rw [keyboardHandler, if_neg hb, hext, if_neg (by decide), hmods, (mods_of_not_modifier b hmod).1,
    ← keyDown_zero]
  exact ⟨rfl, rfl, rfl⟩

end Handler

/-! ### What is missed -/

/-- The character that `getc` is going to return. -/
def coming (s : Getc) (t : Typist) : List (BitVec 8) :=
  t.char.toList.filter fun c => !s.keyWasPressed c

/-- The reader beside the typist, with `lost` characters missed so far. -/
structure GetcInv (s : Getc) (t : Typist) (lost : Nat) : Prop where
  key : s.key < 128
  ext : s.kbd.extended = t.ext
  mods : s.kbd.keyboard.mods = 0
  chars : ∀ c, s.kbd.keyboard.chars c = true ↔
    ∃ code, t.down = some (false, code) ∧ keyChar code 0 = c
  count : s.out.length + (coming s t).length + lost = t.text.length
  exact : lost = 0 → t.text = s.out ++ coming s t

section Step

variable {s : Getc} {t : Typist} {lost : Nat}

theorem Typist.char_eq_some {c : BitVec 8} (h : t.char = some c) :
    (∃ code, t.down = some (false, code) ∧ keyChar code 0 = c) ∧ getcReturns c = true := by
  unfold Typist.char at h
  split at h
  · rename_i code hdown
    split at h
    · obtain rfl := Option.some.inj h
      exact ⟨⟨code, hdown, rfl⟩, ‹_›⟩
    · exact absurd h (Option.some_ne_none c).symm
  · exact absurd h (Option.some_ne_none c).symm

theorem Typist.char_of_down {code : BitVec 8} (h : t.down = some (false, code)) :
    t.char = if getcReturns (keyChar code 0) then some (keyChar code 0) else none := by
  unfold Typist.char
  rw [h]

theorem Typist.char_of_none (h : t.down = none) : t.char = none := by
  unfold Typist.char
  rw [h]

theorem coming_of_none (h : t.char = none) : coming s t = [] := by
  unfold coming
  rw [h]
  rfl

theorem coming_of_some {c : BitVec 8} (h : t.char = some c) :
    coming s t = if s.keyWasPressed c then [] else [c] := by
  unfold coming
  rw [h]
  cases hw : s.keyWasPressed c <;> simp [hw]

theorem nextKey_lt (k : Nat) : nextKey k < 128 := by
  unfold nextKey
  split
  · assumption
  · decide

/-- A character that is to come is set and not yet seen. -/
theorem of_mem_coming (h : GetcInv s t lost) {c : BitVec 8} (hc : c ∈ coming s t) :
    t.char = some c ∧ s.kbd.keyboard.chars c = true ∧ s.keyWasPressed c = false := by
  unfold coming at hc
  rw [List.mem_filter, Option.mem_toList] at hc
  exact ⟨hc.1, (h.chars c).mpr (Typist.char_eq_some hc.1).1, by simpa using hc.2⟩

/-! What one look can do: return a character, take note of one without returning it, forget one that
is up again, or pass on. -/

theorem getcLook_return (hset : s.kbd.keyboard.chars (BitVec.ofNat 8 s.key) = true)
    (hnew : s.keyWasPressed (BitVec.ofNat 8 s.key) = false)
    (hret : getcReturns (BitVec.ofNat 8 s.key) = true) :
    getcLook s = { s with
      keyWasPressed := Function.update s.keyWasPressed (BitVec.ofNat 8 s.key) true
      key := 0
      out := s.out ++ [BitVec.ofNat 8 s.key] } := by
  simp only [getcLook, hset, hnew, hret]
  rfl

theorem getcLook_note (hset : s.kbd.keyboard.chars (BitVec.ofNat 8 s.key) = true)
    (hnew : s.keyWasPressed (BitVec.ofNat 8 s.key) = false)
    (hret : ¬getcReturns (BitVec.ofNat 8 s.key) = true) :
    getcLook s = { s with
      keyWasPressed := Function.update s.keyWasPressed (BitVec.ofNat 8 s.key) true
      key := nextKey s.key } := by
  simp only [getcLook, hset, hnew, hret]
  rfl

theorem getcLook_forget (hclear : s.kbd.keyboard.chars (BitVec.ofNat 8 s.key) = false)
    (hold : s.keyWasPressed (BitVec.ofNat 8 s.key) = true) :
    getcLook s = { s with
      keyWasPressed := Function.update s.keyWasPressed (BitVec.ofNat 8 s.key) false
      key := nextKey s.key } := by
  simp only [getcLook, hclear, hold]
  rfl

theorem getcLook_pass (hhit : ¬(s.kbd.keyboard.chars (BitVec.ofNat 8 s.key) = true ∧
      s.keyWasPressed (BitVec.ofNat 8 s.key) = false))
    (hreset : ¬(s.kbd.keyboard.chars (BitVec.ofNat 8 s.key) = false ∧
      s.keyWasPressed (BitVec.ofNat 8 s.key) = true)) :
    getcLook s = { s with key := nextKey s.key } := by
  have hhit' : (s.kbd.keyboard.chars (BitVec.ofNat 8 s.key) &&
      !s.keyWasPressed (BitVec.ofNat 8 s.key)) = false := by
    rw [← Bool.not_eq_true]
    simpa using hhit
  have hreset' : (!s.kbd.keyboard.chars (BitVec.ofNat 8 s.key) &&
      s.keyWasPressed (BitVec.ofNat 8 s.key)) = false := by
    rw [← Bool.not_eq_true]
    simpa using hreset
  simp only [getcLook, hhit', hreset', Bool.false_eq_true, if_false]

/-- What one look does to the character that is to come. -/
theorem getcLook_coming (h : GetcInv s t lost) :
    ((getcLook s).kbd = s.kbd ∧ (getcLook s).key < 128) ∧
      ((coming s t = [BitVec.ofNat 8 s.key] ∧ (getcLook s).out = s.out ++ [BitVec.ofNat 8 s.key] ∧
          coming (getcLook s) t = []) ∨
        (BitVec.ofNat 8 s.key ∉ coming s t ∧ (getcLook s).out = s.out ∧
          coming (getcLook s) t = coming s t ∧ (getcLook s).key = nextKey s.key)) := by
  have hnext := nextKey_lt s.key
  by_cases hhit : s.kbd.keyboard.chars (BitVec.ofNat 8 s.key) = true ∧
      s.keyWasPressed (BitVec.ofNat 8 s.key) = false
  · obtain ⟨code, hdown, hcode⟩ := (h.chars _).mp hhit.1
    have hchar := Typist.char_of_down hdown
    rw [hcode] at hchar
    by_cases hret : getcReturns (BitVec.ofNat 8 s.key) = true
    · rw [if_pos hret] at hchar
      rw [getcLook_return hhit.1 hhit.2 hret, coming_of_some hchar, coming_of_some hchar, hhit.2]
      exact ⟨⟨rfl, Nat.zero_lt_succ 127⟩, Or.inl ⟨rfl, rfl, if_pos (Function.update_self ..)⟩⟩
    · rw [if_neg hret] at hchar
      rw [getcLook_note hhit.1 hhit.2 hret, coming_of_none hchar, coming_of_none hchar]
      exact ⟨⟨rfl, hnext⟩, Or.inr ⟨List.not_mem_nil, rfl, rfl, rfl⟩⟩
  · have hnot : BitVec.ofNat 8 s.key ∉ coming s t := fun hc => hhit (of_mem_coming h hc).2
    by_cases hreset : s.kbd.keyboard.chars (BitVec.ofNat 8 s.key) = false ∧
        s.keyWasPressed (BitVec.ofNat 8 s.key) = true
    · rw [getcLook_forget hreset.1 hreset.2]
      refine ⟨⟨rfl, hnext⟩, Or.inr ⟨hnot, rfl, ?_, rfl⟩⟩
      cases hchar : t.char with
      | none => rw [coming_of_none hchar, coming_of_none hchar]
      | some c =>
        -- The entry that is reset is not set, so it is not the one of the key that is down.
        have hne : c ≠ BitVec.ofNat 8 s.key := by
          rintro rfl
          have := (h.chars _).mpr (Typist.char_eq_some hchar).1
          exact absurd (hreset.1.symm.trans this) (by decide)
        rw [coming_of_some hchar, coming_of_some hchar]
        simp only [Function.update_of_ne hne]
    · rw [getcLook_pass hhit hreset]
      exact ⟨⟨rfl, hnext⟩, Or.inr ⟨hnot, rfl, rfl, rfl⟩⟩

theorem GetcInv.look (h : GetcInv s t lost) : GetcInv (getcLook s) t lost := by
  obtain ⟨⟨hkbd, hkey⟩, hcase⟩ := getcLook_coming h
  refine ⟨hkey, hkbd ▸ h.ext, hkbd ▸ h.mods, hkbd ▸ h.chars, ?_, ?_⟩
  · have hcount := h.count
    rcases hcase with ⟨hcoming, hout, hnone⟩ | ⟨_, hout, hsame, _⟩
    · rw [hcoming] at hcount
      rw [hout, hnone, List.length_append]
      exact hcount
    · rw [hout, hsame]
      exact hcount
  · intro hlost
    have hexact := h.exact hlost
    rcases hcase with ⟨hcoming, hout, hnone⟩ | ⟨_, hout, hsame, _⟩
    · rw [hexact, hcoming, hout, hnone, List.append_nil]
    · rw [hexact, hout, hsame]

/-- What one step loses: nothing when it is noticed, and something when it is not. -/
def Loses (s : Getc) (t : Typist) (a : GetcAction) (lost lost' : Nat) : Prop :=
  (Noticed s t a ∧ lost' = lost) ∨ (¬Noticed s t a ∧ lost < lost')

/-- A make leaves the entry of its key set, and no other. -/
theorem GetcInv.press_kbd (h : GetcInv s t lost) {b : BitVec 8} (hb : b ≠ 0xE0)
    (hmod : isModifier (keyScancode b) = false) (hpress : keyIsPress b = true)
    (hdown : t.down = none ∨ t.down = some (t.ext, keyScancode b)) :
    (s.step (.irq b)).kbd.extended = false ∧ (s.step (.irq b)).kbd.keyboard.mods = 0 ∧
      ∀ c, (s.step (.irq b)).kbd.keyboard.chars c = true ↔
        ∃ code, some (t.ext, keyScancode b) = some (false, code) ∧ keyChar code 0 = c := by
  cases hext : t.ext with
  | true =>
    obtain ⟨hchars, hmods, hoff⟩ := keyboardHandler_ext hb hmod (h.ext.trans hext) h.mods
    refine ⟨hoff, hmods, fun c => ?_⟩
    rw [Getc.step, hchars, h.chars]
    refine iff_of_false ?_ ?_
    · rintro ⟨code, hcode, _⟩
      rcases hdown with h | h
      · simp [h] at hcode
      · simp [h, hext] at hcode
    · rintro ⟨code, hcode, _⟩
      simp at hcode
  | false =>
    obtain ⟨hchars, hmods, hoff⟩ := keyboardHandler_plain hb hmod (h.ext.trans hext) h.mods
    refine ⟨hoff, hmods, fun c => ?_⟩
    rw [Getc.step, hchars, hpress]
    by_cases hc : c = keyChar (keyScancode b) 0
    · rw [hc, Function.update_self]
      exact iff_of_true rfl ⟨_, rfl, rfl⟩
    · rw [Function.update_of_ne hc, h.chars]
      rcases hdown with h | h
      · refine iff_of_false (by simp [h]) ?_
        rintro ⟨code, hcode, rfl⟩
        exact hc (by rw [(Prod.mk.inj (Option.some.inj hcode)).2])
      · rw [h, hext]

theorem noticed_press {b : BitVec 8} (hb : b ≠ 0xE0) (hpress : keyIsPress b = true) :
    Noticed s t (.irq b) ↔
      (t.down = none → ∀ c ∈ (t.step (.irq b)).char, s.keyWasPressed c = false) := by
  rw [Noticed, if_neg hb, if_pos hpress]

/-- A key goes down while no other is. -/
theorem GetcInv.press_first (h : GetcInv s t lost) {b : BitVec 8} (hb : b ≠ 0xE0)
    (hmod : isModifier (keyScancode b) = false) (hpress : keyIsPress b = true)
    (hnone : t.down = none) :
    ∃ lost', GetcInv (s.step (.irq b)) (t.step (.irq b)) lost' ∧ Loses s t (.irq b) lost lost' := by
  obtain ⟨hoff, hmods, hchars⟩ := h.press_kbd hb hmod hpress (Or.inl hnone)
  have hfresh : (t.step (.irq b)).ext = false ∧
      (t.step (.irq b)).down = some (t.ext, keyScancode b) ∧
      (t.step (.irq b)).text = t.text ++ (t.step (.irq b)).char.toList := by
    rw [Typist.step, if_neg hb, if_pos hpress, if_pos hnone]
    exact ⟨rfl, rfl, rfl⟩
  obtain ⟨hext, hdown, htext⟩ := hfresh
  have hcoming : coming s t = [] := coming_of_none (Typist.char_of_none hnone)
  have hcount := h.count
  have hexact := h.exact
  rw [hcoming, List.length_nil, Nat.add_zero] at hcount
  rw [hcoming, List.append_nil] at hexact
  have hchars' : ∀ c, (s.step (.irq b)).kbd.keyboard.chars c = true ↔
      ∃ code, (t.step (.irq b)).down = some (false, code) ∧ keyChar code 0 = c := by
    rw [hdown]
    exact hchars
  unfold Loses
  rw [noticed_press hb hpress]
  cases hchar : (t.step (.irq b)).char with
  | none =>
    have hsoon : coming (s.step (.irq b)) (t.step (.irq b)) = [] := coming_of_none hchar
    rw [hchar, Option.toList_none, List.append_nil] at htext
    refine ⟨lost, ⟨h.key, hoff.trans hext.symm, hmods, hchars', ?_, ?_⟩, Or.inl ⟨?_, rfl⟩⟩
    · rw [hsoon, htext]
      exact hcount
    · rw [hsoon, htext, List.append_nil]
      exact hexact
    · exact fun _ c hc => absurd hc (Option.not_mem_none c)
  | some c =>
    have hsoon : coming (s.step (.irq b)) (t.step (.irq b)) =
        if s.keyWasPressed c then [] else [c] := coming_of_some hchar
    rw [hchar, Option.toList_some] at htext
    cases hw : s.keyWasPressed c with
    | true =>
      rw [hw, if_pos rfl] at hsoon
      refine ⟨lost + 1, ⟨h.key, hoff.trans hext.symm, hmods, hchars', ?_, ?_⟩, Or.inr ⟨?_, ?_⟩⟩
      · rw [hsoon, htext, List.length_append, ← hcount]
        exact (Nat.add_assoc _ lost 1).symm
      · exact fun h => absurd h (Nat.succ_ne_zero lost)
      · intro hall
        exact absurd ((hall hnone c rfl).symm.trans hw) (by decide)
      · exact Nat.lt_succ_self lost
    | false =>
      rw [hw, if_neg (by decide)] at hsoon
      refine ⟨lost, ⟨h.key, hoff.trans hext.symm, hmods, hchars', ?_, ?_⟩, Or.inl ⟨?_, rfl⟩⟩
      · rw [hsoon, htext, List.length_append, ← hcount]
        exact Nat.add_right_comm _ 1 lost
      · intro hlost
        rw [hsoon, htext, hexact hlost]
        rfl
      · rintro _ c' ⟨⟩
        exact hw

/-- A key that is down is repeated. -/
theorem GetcInv.press_again (h : GetcInv s t lost) {b : BitVec 8} (hb : b ≠ 0xE0)
    (hmod : isModifier (keyScancode b) = false) (hpress : keyIsPress b = true)
    (hsame : t.down = some (t.ext, keyScancode b)) :
    ∃ lost', GetcInv (s.step (.irq b)) (t.step (.irq b)) lost' ∧ Loses s t (.irq b) lost lost' := by
  obtain ⟨hoff, hmods, hchars⟩ := h.press_kbd hb hmod hpress (Or.inr hsame)
  have hstep : t.step (.irq b) = { t with ext := false } := by
    rw [Typist.step, if_neg hb, if_pos hpress, if_neg (by simp [hsame])]
    rw [← hsame]
  have hchar : (t.step (.irq b)).char = t.char := by rw [hstep]; rfl
  have hcoming : coming (s.step (.irq b)) (t.step (.irq b)) = coming s t := by
    unfold coming
    rw [hchar]
    rfl
  refine ⟨lost, ⟨h.key, ?_, hmods, ?_, ?_, ?_⟩, Or.inl ⟨?_, rfl⟩⟩
  · rw [hoff, hstep]
  · rw [hstep]
    show ∀ c, _ ↔ ∃ code, t.down = _ ∧ _
    rw [hsame]
    exact hchars
  · rw [hcoming, hstep]
    exact h.count
  · rw [hcoming, hstep]
    exact h.exact
  · rw [noticed_press hb hpress, hsame]
    exact fun h => absurd h (Option.some_ne_none _)

theorem GetcInv.press (h : GetcInv s t lost) {b : BitVec 8} (hb : b ≠ 0xE0)
    (hmod : isModifier (keyScancode b) = false) (hpress : keyIsPress b = true)
    (hdown : t.down = none ∨ t.down = some (t.ext, keyScancode b)) :
    ∃ lost', GetcInv (s.step (.irq b)) (t.step (.irq b)) lost' ∧ Loses s t (.irq b) lost lost' := by
  rcases hdown with hnone | hsame
  · exact h.press_first hb hmod hpress hnone
  · exact h.press_again hb hmod hpress hsame

/-- The entry of the released key is cleared, and no other was set. -/
theorem GetcInv.release_kbd (h : GetcInv s t lost) {b : BitVec 8} (hb : b ≠ 0xE0)
    (hmod : isModifier (keyScancode b) = false) (hpress : keyIsPress b = false)
    (hdown : t.down = some (t.ext, keyScancode b)) :
    (s.step (.irq b)).kbd.extended = false ∧ (s.step (.irq b)).kbd.keyboard.mods = 0 ∧
      ∀ c, (s.step (.irq b)).kbd.keyboard.chars c = false := by
  cases hext : t.ext with
  | true =>
    obtain ⟨hchars, hmods, hoff⟩ := keyboardHandler_ext hb hmod (h.ext.trans hext) h.mods
    refine ⟨hoff, hmods, fun c => ?_⟩
    rw [← Bool.not_eq_true, Getc.step, hchars, h.chars, hdown, hext]
    rintro ⟨code, hcode, _⟩
    exact absurd (Prod.mk.inj (Option.some.inj hcode)).1 (by decide)
  | false =>
    obtain ⟨hchars, hmods, hoff⟩ := keyboardHandler_plain hb hmod (h.ext.trans hext) h.mods
    refine ⟨hoff, hmods, fun c => ?_⟩
    rw [Getc.step, hchars, hpress]
    by_cases hc : c = keyChar (keyScancode b) 0
    · rw [hc, Function.update_self]
    · rw [Function.update_of_ne hc, ← Bool.not_eq_true, h.chars, hdown]
      rintro ⟨code, hcode, rfl⟩
      rw [(Prod.mk.inj (Option.some.inj hcode)).2] at hc
      exact hc rfl

theorem GetcInv.release (h : GetcInv s t lost) {b : BitVec 8} (hb : b ≠ 0xE0)
    (hmod : isModifier (keyScancode b) = false) (hpress : keyIsPress b = false)
    (hdown : t.down = some (t.ext, keyScancode b)) :
    ∃ lost', GetcInv (s.step (.irq b)) (t.step (.irq b)) lost' ∧ Loses s t (.irq b) lost lost' := by
  have hstep : t.step (.irq b) = { t with ext := false, down := none } := by
    rw [Typist.step, if_neg hb, if_neg (by rw [hpress]; decide)]
  have hnoticed : Noticed s t (.irq b) ↔ ∀ c ∈ t.char, s.keyWasPressed c = true := by
    rw [Noticed, if_neg hb, if_neg (by rw [hpress]; decide)]
  have hnone : (t.step (.irq b)).char = none := by rw [hstep]; rfl
  obtain ⟨hoff, hmods, hchars⟩ := h.release_kbd hb hmod hpress hdown
  refine ⟨lost + (coming s t).length, ⟨h.key, ?_, hmods, fun c => ?_, ?_, ?_⟩, ?_⟩
  · rw [hoff, hstep]
  · rw [hchars, hstep]
    refine iff_of_false (by decide) ?_
    rintro ⟨code, hcode, _⟩
    exact absurd hcode (Option.some_ne_none _).symm
  · have := h.count
    rw [coming_of_none hnone, hstep]
    show s.out.length + 0 + _ = t.text.length
    omega
  · intro hlost
    have hlen : (coming s t).length = 0 := by omega
    rw [coming_of_none hnone, hstep, List.append_nil]
    show t.text = s.out
    rw [h.exact (by omega), List.eq_nil_of_length_eq_zero hlen, List.append_nil]
  · unfold Loses
    rw [hnoticed]
    cases hchar : t.char with
    | none =>
      exact Or.inl ⟨fun c hc => absurd hc (Option.not_mem_none c), by simp [coming_of_none hchar]⟩
    | some c =>
      rw [coming_of_some hchar]
      cases hw : s.keyWasPressed c with
      | true => exact Or.inl ⟨by simpa using hw, rfl⟩
      | false => exact Or.inr ⟨by simpa using hw, Nat.lt_succ_self lost⟩

theorem GetcInv.step (h : GetcInv s t lost) (a : GetcAction) (hallow : t.Allows a) :
    ∃ lost', GetcInv (s.step a) (t.step a) lost' ∧ Loses s t a lost lost' := by
  cases a with
  | look => exact ⟨lost, h.look, Or.inl ⟨trivial, rfl⟩⟩
  | irq b =>
    by_cases hb : b = 0xE0
    · subst hb
      refine ⟨lost, ⟨h.key, rfl, h.mods, h.chars, h.count, h.exact⟩, Or.inl ⟨?_, rfl⟩⟩
      rw [Noticed, if_pos rfl]
      trivial
    · obtain ⟨hmod, hkey⟩ := hallow.resolve_left hb
      cases hpress : keyIsPress b with
      | true =>
        rw [hpress, if_pos rfl] at hkey
        exact h.press hb hmod hpress hkey
      | false =>
        rw [hpress, if_neg (by decide)] at hkey
        exact h.release hb hmod hpress hkey

end Step

/-! ### Whole runs -/

theorem GetcInv.run : ∀ (as : List GetcAction) (s : Getc) (t : Typist) (lost : Nat),
    GetcInv s t lost → t.Typed as →
    ∃ lost', GetcInv (s.run as) (t.run as) lost' ∧
      ((AllNoticed s t as ∧ lost' = lost) ∨ (¬AllNoticed s t as ∧ lost < lost')) := by
  intro as
  induction as with
  | nil => exact fun s t lost h _ => ⟨lost, h, Or.inl ⟨trivial, rfl⟩⟩
  | cons a as ih =>
    intro s t lost h htyped
    obtain ⟨lost₁, h₁, hloses⟩ := h.step a htyped.1
    obtain ⟨lost₂, h₂, hrest⟩ := ih _ _ _ h₁ htyped.2
    refine ⟨lost₂, h₂, ?_⟩
    rcases hloses with ⟨hseen, rfl⟩ | ⟨hmissed, hlt⟩
    · rcases hrest with ⟨hall, rfl⟩ | ⟨hnot, hlt⟩
      · exact Or.inl ⟨⟨hseen, hall⟩, rfl⟩
      · exact Or.inr ⟨fun hall => hnot hall.2, hlt⟩
    · have hle : lost₁ ≤ lost₂ := by
        rcases hrest with ⟨_, rfl⟩ | ⟨_, hlt'⟩
        · exact le_rfl
        · exact hlt'.le
      exact Or.inr ⟨fun hall => hmissed hall.1, hlt.trans_le hle⟩

theorem getcReturns_lt : ∀ c : BitVec 8, getcReturns c = true → c.toNat < 128 := by decide

/-- How many looks are needed before the entry `c` is looked at. -/
def ahead (s : Getc) (c : BitVec 8) : Nat := (c.toNat + 128 - s.key) % 128

/-- Looks alone come to the entry that is to be returned. -/
theorem coming_looks {t : Typist} {lost : Nat} : ∀ (n : Nat) (s : Getc), GetcInv s t lost →
    (∀ c ∈ coming s t, ahead s c < n) →
    GetcInv (s.run (List.replicate n .look)) t lost ∧
      coming (s.run (List.replicate n .look)) t = [] := by
  intro n
  induction n with
  | zero =>
    intro s h hnear
    exact ⟨h, List.eq_nil_iff_forall_not_mem.mpr fun c hc => absurd (hnear c hc) (Nat.not_lt_zero _)⟩
  | succ n ih =>
    intro s h hnear
    refine ih (getcLook s) h.look fun c hc => ?_
    rcases (getcLook_coming h).2 with ⟨_, _, hnone⟩ | ⟨hnot, _, hsame, hkey⟩
    · rw [hnone] at hc
      exact absurd hc List.not_mem_nil
    · rw [hsame] at hc
      have hc128 := getcReturns_lt c (Typist.char_eq_some (of_mem_coming h hc).1).2
      have hne : c.toNat ≠ s.key := by
        rintro heq
        refine hnot ?_
        rwa [← heq, BitVec.ofNat_toNat, BitVec.setWidth_eq]
      have hn := hnear c hc
      have hk := h.key
      unfold ahead at hn ⊢
      rw [hkey]
      unfold nextKey
      split <;> omega

/-- What is read is what was typed: nothing else has been returned, and when no more keys
come one round of the loop returns what is left. -/
def ReadsTyped (as : List GetcAction) : Prop :=
  (getcStart.run as).out <+: (typistStart.run as).text ∧
    ∀ n ≥ 128, (getcStart.run (as ++ List.replicate n .look)).out = (typistStart.run as).text

theorem getcInv_start : GetcInv getcStart typistStart 0 where
  key := Nat.zero_lt_succ 127
  ext := rfl
  mods := rfl
  chars c := iff_of_false Bool.false_ne_true fun ⟨code, h, _⟩ => absurd h (by simp [typistStart])
  count := rfl
  exact _ := rfl

/-- **Every character is read exactly once** when each make and break finds that `getc` has
seen the one before, and in no other run. -/
theorem getc_reads_typed_iff (as : List GetcAction) (htyped : typistStart.Typed as) :
    ReadsTyped as ↔ AllNoticed getcStart typistStart as := by
  obtain ⟨lost, h, hlost⟩ := GetcInv.run as _ _ 0 getcInv_start htyped
  have hround : ∀ n ≥ 128, GetcInv (getcStart.run (as ++ List.replicate n .look))
      (typistStart.run as) lost ∧
      coming (getcStart.run (as ++ List.replicate n .look)) (typistStart.run as) = [] := by
    intro n hn
    rw [Getc.run, List.foldl_append]
    exact coming_looks n _ h fun c _ => (Nat.mod_lt _ (Nat.zero_lt_succ 127)).trans_le hn
  constructor
  · intro hreads
    rcases hlost with ⟨hall, _⟩ | ⟨_, hlt⟩
    · exact hall
    · obtain ⟨h', hnone⟩ := hround 128 le_rfl
      have hcount := h'.count
      rw [hreads.2 128 le_rfl, hnone, List.length_nil] at hcount
      omega
  · intro hall
    rcases hlost with ⟨_, rfl⟩ | ⟨hnot, _⟩
    · refine ⟨⟨_, (h.exact rfl).symm⟩, fun n hn => ?_⟩
      obtain ⟨h', hnone⟩ := hround n hn
      rw [h'.exact rfl, hnone, List.append_nil]
    · exact absurd hall hnot

instance (t : Typist) : ∀ a, Decidable (t.Allows a)
  | .look => isTrue trivial
  | .irq _ => inferInstanceAs (Decidable (_ ∨ _))

instance instDecidableTyped : ∀ (t : Typist) (as : List GetcAction), Decidable (t.Typed as)
  | _, [] => isTrue trivial
  | t, a :: as =>
    have := instDecidableTyped (t.step a) as
    inferInstanceAs (Decidable (_ ∧ _))

instance (s : Getc) (t : Typist) : ∀ a, Decidable (Noticed s t a)
  | .look => isTrue trivial
  | .irq b => inferInstanceAs (Decidable (if b = 0xE0 then True else if keyIsPress b then _ else _))

instance instDecidableAllNoticed :
    ∀ (s : Getc) (t : Typist) (as : List GetcAction), Decidable (AllNoticed s t as)
  | _, _, [] => isTrue trivial
  | s, t, a :: as =>
    have := instDecidableAllNoticed (s.step a) (t.step a) as
    inferInstanceAs (Decidable (_ ∧ _))

/-- Tab goes down, the loop comes to its entry, and the key comes up. -/
def exampleTab : List GetcAction := .irq 0x0F :: List.replicate 10 .look ++ [.irq 0x8F]

theorem getc_reads_typed_exampleTab : ReadsTyped exampleTab :=
  (getc_reads_typed_iff exampleTab (by decide)).mpr (by decide)

/-- A key that comes up before the loop has looked. -/
def exampleTap : List GetcAction := [.irq 0x1E, .irq 0x9E]

/-- The letter is typed and never returned. -/
theorem exampleTap_not_read : ¬∀ as, typistStart.Typed as → ReadsTyped as := by
  intro h
  have hall := (h exampleTap (by decide)).2 128 le_rfl
  have hout : (getcStart.run (exampleTap ++ List.replicate 128 .look)).out = [] := by
    decide +kernel
  rw [hout] at hall
  exact absurd hall (by decide)

end AncoreOS.Kernel
