import AncoreOS.Kernel.Keyboard
import AncoreOS.Library.Prefixes

/-!
# Modifier keys

`keyboard.mods` has one bit for shift, one for control and one for alt, and each of them stands
for two keys.  The handler sets the bit on a make and clears it on a break of either key, so a
break clears it although the other key is held.  Behind the prefix it does the same for the
codes of the shift keys, which are no keys there, and it takes Caps Lock for a key to be held.

`KeyLog` is what the bytes mean, and `ModsRight` compares the bits with it.
`mods_right_iff` says exactly in which runs they agree after every byte.
-/

namespace AncoreOS.Kernel

/-! ### What the bytes mean -/

/-- Whether the code comes behind the prefix, and the code. -/
abbrev PhysicalKey := Bool × BitVec 8

structure KeyLog where
  prefixed : Bool
  down : PhysicalKey → Bool
  capsMakes : Nat

namespace KeyLog

def start : KeyLog := ⟨false, fun _ => false, 0⟩

def key (l : KeyLog) (scancode : BitVec 8) : PhysicalKey := (l.prefixed, keyScancode scancode)

def receive (l : KeyLog) (scancode : BitVec 8) : KeyLog :=
  if scancode = 0xE0 then { l with prefixed := true }
  else
    { prefixed := false
      down := Function.update l.down (l.key scancode) (keyIsPress scancode)
      capsMakes :=
        if l.prefixed = false ∧ scancode = keyCapsLock then l.capsMakes + 1 else l.capsMakes }

end KeyLog

inductive Modifier
  | shift
  | ctrl
  | alt
  deriving DecidableEq, Repr

namespace Modifier

def mask : Modifier → BitVec 16
  | .shift => keyModShift
  | .ctrl => keyModCtrl
  | .alt => keyModAlt

def keys : Modifier → List PhysicalKey
  | .shift => [(false, keyLshift), (false, keyRshift)]
  | .ctrl => [(false, keyCtrl), (true, keyCtrl)]
  | .alt => [(false, keyAlt), (true, keyAlt)]

def codes (m : Modifier) : List (BitVec 8) := m.keys.map Prod.snd

end Modifier

def KeyLog.Held (l : KeyLog) (m : Modifier) : Prop := ∃ k ∈ m.keys, l.down k = true

instance (l : KeyLog) (m : Modifier) : Decidable (l.Held m) :=
  inferInstanceAs (Decidable (∃ k ∈ m.keys, l.down k = true))

/-- The bits say what is held, and whether Caps Lock is on. -/
structure ModsRight (mods : BitVec 16) (l : KeyLog) : Prop where
  held : ∀ m : Modifier, mods &&& m.mask ≠ 0 ↔ l.Held m
  caps : mods &&& keyModCapsLock ≠ 0 ↔ Odd l.capsMakes

/-! ### Bits -/

section Bits

variable {v mods : BitVec 16} {scancode : BitVec 8}

theorem and_twoPow_ne_zero_iff {n : Nat} (hn : n < 16) :
    v &&& BitVec.twoPow 16 n ≠ 0 ↔ v.getLsbD n = true := by
  rw [BitVec.and_twoPow]
  cases v.getLsbD n with
  | true =>
    refine ⟨fun _ => rfl, fun _ hzero => ?_⟩
    have hbit := congrArg (fun w : BitVec 16 => w.getLsbD n) hzero
    rw [if_pos rfl, BitVec.getLsbD_twoPow] at hbit
    exact absurd hbit (by simp [hn])
  | false => simp

def Modifier.bit (m : Modifier) : Nat := hibit m.mask

theorem Modifier.bit_lt (m : Modifier) : m.bit < 16 := by
  cases m <;> decide

theorem Modifier.and_mask_ne_zero_iff (m : Modifier) :
    v &&& m.mask ≠ 0 ↔ v.getLsbD m.bit = true := by
  have hmask : m.mask = BitVec.twoPow 16 m.bit := by
    cases m with
    | shift => rfl
    | ctrl => rfl
    | alt => rfl
  rw [hmask]
  exact and_twoPow_ne_zero_iff m.bit_lt

theorem and_capsLock_ne_zero_iff : v &&& keyModCapsLock ≠ 0 ↔ v.getLsbD 12 = true :=
  and_twoPow_ne_zero_iff (n := 12) (by decide)

theorem getLsbD_bitSet (n : Nat) (x : Bool) {i : Nat} (hi : i < 16) :
    (bitSet v n x).getLsbD i = if i = n then x else v.getLsbD i := by
  have hset : bitSet v n x =
      v ^^^ (((if x then BitVec.allOnes 16 else 0) ^^^ v) &&& BitVec.twoPow 16 n) := by
    cases x with
    | true => rfl
    | false => rfl
  have hfill : (if x then BitVec.allOnes 16 else 0).getLsbD i = x := by
    cases x with
    | true =>
      rw [if_pos rfl, BitVec.getLsbD_allOnes]
      exact decide_eq_true hi
    | false => simp
  have hbits : (bitSet v n x).getLsbD i =
      (v.getLsbD i ^^ ((x ^^ v.getLsbD i) && (decide (n < 16) && decide (n = i)))) := by
    rw [hset, BitVec.getLsbD_xor, BitVec.getLsbD_and, BitVec.getLsbD_xor, hfill,
      BitVec.getLsbD_twoPow]
  rw [hbits]
  by_cases h : i = n
  · subst h
    rw [if_pos rfl, decide_eq_true hi, decide_eq_true rfl, Bool.and_true, Bool.and_true]
    cases x <;> cases v.getLsbD i <;> rfl
  · rw [if_neg h, decide_eq_false (Ne.symm h), Bool.and_false, Bool.and_false, Bool.xor_false]

/-- A make sets the bit and a break clears it, of either key. -/
theorem getLsbD_modifierKeys (m : Modifier) {caps : Option (BitVec 16)}
    (hcaps : ∀ c, caps = some c → c.getLsbD m.bit = mods.getLsbD m.bit) :
    (modifierKeys caps mods scancode).getLsbD m.bit =
      if keyScancode scancode ∈ m.codes then keyIsPress scancode else mods.getLsbD m.bit := by
  have hbit : m.bit < 16 := m.bit_lt
  simp only [modifierKeys]
  by_cases halt : keyScancode scancode = keyAlt
  · rw [if_pos halt, getLsbD_bitSet _ _ hbit, halt]
    cases m <;> rfl
  rw [if_neg halt]
  by_cases hctrl : keyScancode scancode = keyCtrl
  · rw [if_pos hctrl, getLsbD_bitSet _ _ hbit, hctrl]
    cases m <;> rfl
  rw [if_neg hctrl]
  by_cases hshift : keyScancode scancode = keyLshift ∨ keyScancode scancode = keyRshift
  · rw [if_pos hshift, getLsbD_bitSet _ _ hbit]
    rcases hshift with hshift | hshift <;> rw [hshift] <;> cases m <;> rfl
  rw [if_neg hshift]
  have hcode : keyScancode scancode ∉ m.codes := by
    cases m with
    | shift => simpa [Modifier.codes, Modifier.keys] using hshift
    | ctrl => simpa [Modifier.codes, Modifier.keys] using hctrl
    | alt => simpa [Modifier.codes, Modifier.keys] using halt
  rw [if_neg hcode]
  -- The other locks have bits of their own.
  cases caps with
  | some c => exact hcaps c rfl
  | none =>
    dsimp only
    split
    · rw [getLsbD_bitSet _ _ hbit]
      cases m <;> rfl
    · split
      · rw [getLsbD_bitSet _ _ hbit]
        cases m <;> rfl
      · rfl

/-- The bit of Caps Lock is set by nothing but its own code. -/
theorem getLsbD_modifierKeys_caps {caps : Option (BitVec 16)}
    (hcaps : caps ≠ none → keyScancode scancode = keyCapsLock) :
    (modifierKeys caps mods scancode).getLsbD 12 = (caps.getD mods).getLsbD 12 := by
  have hnone : keyScancode scancode ≠ keyCapsLock → caps = none := by
    intro hne
    by_contra h
    exact hne (hcaps h)
  simp only [modifierKeys]
  by_cases halt : keyScancode scancode = keyAlt
  · rw [if_pos halt, getLsbD_bitSet _ _ (by decide), hnone (by rw [halt]; decide)]
    rfl
  rw [if_neg halt]
  by_cases hctrl : keyScancode scancode = keyCtrl
  · rw [if_pos hctrl, getLsbD_bitSet _ _ (by decide), hnone (by rw [hctrl]; decide)]
    rfl
  rw [if_neg hctrl]
  by_cases hshift : keyScancode scancode = keyLshift ∨ keyScancode scancode = keyRshift
  · have hne : keyScancode scancode ≠ keyCapsLock := by
      rcases hshift with h | h <;> rw [h] <;> decide
    rw [if_pos hshift, getLsbD_bitSet _ _ (by decide), hnone hne]
    rfl
  rw [if_neg hshift]
  cases caps with
  | some c => rfl
  | none =>
    dsimp only
    split
    · exact getLsbD_bitSet _ _ (by decide)
    · split
      · exact getLsbD_bitSet _ _ (by decide)
      · rfl

end Bits

/-! ### One byte -/

section Step

variable {s : KeyboardState} {l : KeyLog} {scancode : BitVec 8}

theorem handler_mods (hescape : scancode ≠ 0xE0) : (keyboardHandler scancode s).keyboard.mods =
    if s.extended then extendedMods s.keyboard.mods scancode
    else plainMods s.keyboard.mods scancode := by
  rw [keyboardHandler, if_neg hescape]
  cases s.extended with
  | true => rfl
  | false => rfl

theorem handler_bit (hescape : scancode ≠ 0xE0) (m : Modifier) :
    (keyboardHandler scancode s).keyboard.mods.getLsbD m.bit =
      if keyScancode scancode ∈ m.codes then keyIsPress scancode
      else s.keyboard.mods.getLsbD m.bit := by
  have hbit : m.bit ≠ 12 := by cases m <;> decide
  rw [handler_mods hescape]
  split
  · refine getLsbD_modifierKeys m fun c hc => ?_
    split at hc
    · obtain rfl := Option.some.inj hc
      rw [getLsbD_bitSet _ _ m.bit_lt, show hibit keyModCapsLock = 12 by decide, if_neg hbit]
    · exact absurd hc (Option.some_ne_none c).symm
  · refine getLsbD_modifierKeys m fun c hc => ?_
    split at hc
    · obtain rfl := Option.some.inj hc
      have hcaps : keyModCapsLock.getLsbD m.bit = false := by cases m <;> decide
      rw [BitVec.getLsbD_xor, hcaps, Bool.xor_false]
    · exact absurd hc (Option.some_ne_none c).symm

theorem handler_caps (hescape : scancode ≠ 0xE0) :
    (keyboardHandler scancode s).keyboard.mods.getLsbD 12 =
      if s.extended then
        if keyScancode scancode = keyCapsLock then keyIsPress scancode
        else s.keyboard.mods.getLsbD 12
      else if scancode = keyCapsLock then !s.keyboard.mods.getLsbD 12
      else s.keyboard.mods.getLsbD 12 := by
  rw [handler_mods hescape]
  split
  · rw [extendedMods, getLsbD_modifierKeys_caps]
    · split
      · exact getLsbD_bitSet _ _ (by decide)
      · rfl
    · intro h
      by_contra hne
      exact h (if_neg hne)
  · rw [plainMods, show magicCapslockToggle = keyCapsLock from rfl, getLsbD_modifierKeys_caps]
    · by_cases hcaps : scancode = keyCapsLock
      · rw [if_pos hcaps, if_pos hcaps]
        show (s.keyboard.mods ^^^ keyModCapsLock).getLsbD 12 = _
        rw [BitVec.getLsbD_xor, show keyModCapsLock.getLsbD 12 = true by decide, Bool.xor_true]
      · rw [if_neg hcaps, if_neg hcaps]
        rfl
    · intro h
      by_contra hne
      refine h (if_neg ?_)
      rintro rfl
      exact hne (by decide)

/-- A byte that the bits follow: a break of a modifier key comes when no other key of its kind
is held, a code of a modifier key that is none behind the prefix comes as a make while the
modifier is held or as a break while it is not, and so does a prefixed Caps Lock. -/
structure BitsFollow (l : KeyLog) (scancode : BitVec 8) : Prop where
  alone : ∀ m : Modifier, l.key scancode ∈ m.keys → keyIsPress scancode = false →
    ∀ k ∈ m.keys, k ≠ l.key scancode → l.down k = false
  other : ∀ m : Modifier, keyScancode scancode ∈ m.codes → l.key scancode ∉ m.keys →
    (keyIsPress scancode = true ↔ l.Held m)
  caps : l.prefixed = true → keyScancode scancode = keyCapsLock →
    (keyIsPress scancode = true ↔ Odd l.capsMakes)

/-- What is held when the key of the byte has gone up or down. -/
theorem held_receive (hescape : scancode ≠ 0xE0) (m : Modifier) :
    (l.receive scancode).Held m ↔
      (l.key scancode ∈ m.keys ∧ keyIsPress scancode = true) ∨
        ∃ k ∈ m.keys, k ≠ l.key scancode ∧ l.down k = true := by
  have hdown : (l.receive scancode).down =
      Function.update l.down (l.key scancode) (keyIsPress scancode) := by
    rw [KeyLog.receive, if_neg hescape]
  rw [KeyLog.Held, hdown]
  constructor
  · rintro ⟨k, hk, hset⟩
    by_cases hkey : k = l.key scancode
    · rw [hkey, Function.update_self] at hset
      exact Or.inl ⟨hkey ▸ hk, hset⟩
    · rw [Function.update_of_ne hkey] at hset
      exact Or.inr ⟨k, hk, hkey, hset⟩
  · rintro (⟨hk, hset⟩ | ⟨k, hk, hkey, hset⟩)
    · exact ⟨_, hk, by rw [Function.update_self, hset]⟩
    · exact ⟨k, hk, by rw [Function.update_of_ne hkey, hset]⟩

theorem held_receive_of_not_mem (hescape : scancode ≠ 0xE0) {m : Modifier}
    (hkey : l.key scancode ∉ m.keys) : (l.receive scancode).Held m ↔ l.Held m := by
  rw [held_receive hescape]
  constructor
  · rintro (⟨hk, _⟩ | ⟨k, hk, _, hset⟩)
    · exact absurd hk hkey
    · exact ⟨k, hk, hset⟩
  · rintro ⟨k, hk, hset⟩
    exact Or.inr ⟨k, hk, fun h => hkey (h ▸ hk), hset⟩

/-- One modifier. -/
theorem held_step (hescape : scancode ≠ 0xE0) {m : Modifier}
    (h : s.keyboard.mods &&& m.mask ≠ 0 ↔ l.Held m) :
    ((keyboardHandler scancode s).keyboard.mods &&& m.mask ≠ 0 ↔ (l.receive scancode).Held m) ↔
      (l.key scancode ∈ m.keys → keyIsPress scancode = false →
        ∀ k ∈ m.keys, k ≠ l.key scancode → l.down k = false) ∧
      (keyScancode scancode ∈ m.codes → l.key scancode ∉ m.keys →
        (keyIsPress scancode = true ↔ l.Held m)) := by
  have hmem : l.key scancode ∈ m.keys → keyScancode scancode ∈ m.codes :=
    fun hk => List.mem_map.mpr ⟨_, hk, rfl⟩
  rw [m.and_mask_ne_zero_iff] at h
  rw [m.and_mask_ne_zero_iff, handler_bit hescape]
  by_cases hkey : l.key scancode ∈ m.keys
  · -- The key of the byte is one of the two.
    rw [if_pos (hmem hkey), held_receive hescape]
    constructor
    · intro hright
      refine ⟨fun _ hbreak k hk hne => ?_, fun _ hnot => absurd hkey hnot⟩
      rw [← Bool.not_eq_true]
      intro hset
      exact absurd (hright.mpr (Or.inr ⟨k, hk, hne, hset⟩)) (by rw [hbreak]; decide)
    · rintro ⟨halone, -⟩
      refine ⟨fun hpress => Or.inl ⟨hkey, hpress⟩, ?_⟩
      rintro (⟨_, hpress⟩ | ⟨k, hk, hne, hset⟩)
      · exact hpress
      · by_contra hbreak
        rw [Bool.not_eq_true] at hbreak
        exact absurd (hset.symm.trans (halone hkey hbreak k hk hne)) (by decide)
  · rw [held_receive_of_not_mem hescape hkey]
    by_cases hcode : keyScancode scancode ∈ m.codes
    · rw [if_pos hcode]
      exact ⟨fun hright => ⟨fun hk => absurd hk hkey, fun _ _ => hright⟩,
        fun hfollow => hfollow.2 hcode hkey⟩
    · rw [if_neg hcode]
      exact ⟨fun _ => ⟨fun hk => absurd hk hkey, fun hc => absurd hc hcode⟩, fun _ => h⟩

theorem caps_step (hescape : scancode ≠ 0xE0) (hext : s.extended = l.prefixed)
    (h : s.keyboard.mods &&& keyModCapsLock ≠ 0 ↔ Odd l.capsMakes) :
    ((keyboardHandler scancode s).keyboard.mods &&& keyModCapsLock ≠ 0 ↔
        Odd (l.receive scancode).capsMakes) ↔
      (l.prefixed = true → keyScancode scancode = keyCapsLock →
        (keyIsPress scancode = true ↔ Odd l.capsMakes)) := by
  rw [and_capsLock_ne_zero_iff] at h
  rw [and_capsLock_ne_zero_iff, handler_caps hescape, hext, KeyLog.receive, if_neg hescape]
  cases hpre : l.prefixed with
  | true =>
    have hmakes : (if true = false ∧ scancode = keyCapsLock then l.capsMakes + 1 else l.capsMakes) =
        l.capsMakes := if_neg fun hc => absurd hc.1 (by decide)
    simp only [hmakes, if_true]
    by_cases hcode : keyScancode scancode = keyCapsLock
    · rw [if_pos hcode]
      exact ⟨fun hright _ _ => hright, fun hfollow => hfollow trivial hcode⟩
    · rw [if_neg hcode]
      exact ⟨fun _ _ hc => absurd hc hcode, fun _ => h⟩
  | false =>
    have hplain : (False → keyScancode scancode = keyCapsLock →
        (keyIsPress scancode = true ↔ Odd l.capsMakes)) ↔ True := by simp
    simp only [Bool.false_eq_true, if_false, true_and, hplain, iff_true]
    by_cases hcode : scancode = keyCapsLock
    · rw [if_pos hcode, if_pos hcode, Bool.not_eq_true', ← Bool.not_eq_true, h, Nat.odd_add_one]
    · rw [if_neg hcode, if_neg hcode]
      exact h

/-- **The bits stay right exactly at a byte that they follow.** -/
theorem modsRight_step (hext : s.extended = l.prefixed) (h : ModsRight s.keyboard.mods l) :
    ModsRight (keyboardHandler scancode s).keyboard.mods (l.receive scancode) ↔
      BitsFollow l scancode := by
  by_cases hescape : scancode = 0xE0
  · subst hescape
    constructor
    · intro _
      refine ⟨fun m hk => ?_, fun m hc => ?_, fun _ hc => ?_⟩
      · exact absurd (List.mem_map.mpr ⟨_, hk, rfl⟩ : keyScancode 0xE0 ∈ m.codes)
          (by cases m <;> decide)
      · exact absurd hc (by cases m <;> decide)
      · exact absurd hc (by decide)
    · intro _
      exact ⟨h.held, h.caps⟩
  · constructor
    · intro hright
      have hheld := fun m => (held_step hescape (h.held m)).mp (hright.held m)
      exact ⟨fun m => (hheld m).1, fun m => (hheld m).2,
        (caps_step hescape hext h.caps).mp hright.caps⟩
    · intro hfollow
      exact ⟨fun m => (held_step hescape (h.held m)).mpr ⟨hfollow.alone m, hfollow.other m⟩,
        (caps_step hescape hext h.caps).mpr hfollow.caps⟩

/-- The handler and the log agree on the prefix. -/
theorem extended_step :
    (keyboardHandler scancode s).extended = (l.receive scancode).prefixed := by
  rw [keyboardHandler, KeyLog.receive]
  by_cases hescape : scancode = 0xE0
  · rw [if_pos hescape, if_pos hescape]
  · rw [if_neg hescape, if_neg hescape]
    split
    · rfl
    · rename_i h
      exact Bool.not_eq_true _ ▸ h

end Step

/-! ### Runs -/

/-- The keyboard and what its bytes mean. -/
def receiveByte (x : KeyboardState × KeyLog) (scancode : BitVec 8) : KeyboardState × KeyLog :=
  (keyboardHandler scancode x.1, x.2.receive scancode)

def receiveBytes (bs : List (BitVec 8)) : KeyboardState × KeyLog :=
  bs.foldl receiveByte (keyboardStart, .start)

theorem modsRight_start : ModsRight keyboardStart.keyboard.mods .start where
  held m := by cases m <;> decide
  caps := by decide

/-- **The bits are right after every byte exactly if they follow every byte.** -/
theorem mods_right_iff (bs : List (BitVec 8)) :
    (∀ bs', bs' <+: bs →
        ModsRight (receiveBytes bs').1.keyboard.mods (receiveBytes bs').2) ↔
      ∀ bs' b, bs' ++ [b] <+: bs → BitsFollow (receiveBytes bs').2 b :=
  Prefixes.forall_prefix_iff receiveByte (fun x => ModsRight x.1.keyboard.mods x.2)
    (fun x => x.1.extended = x.2.prefixed) (fun x b => BitsFollow x.2 b) modsRight_start rfl
    (fun _ _ _ => extended_step) (fun _ _ hext h => modsRight_step hext h) bs

/-- Both shift keys go down and the left one goes up. -/
def exampleShifts : List (BitVec 8) := [0x2A, 0x36, 0xAA]

theorem exampleShifts_not_right :
    ¬∀ bs bs', bs' <+: bs →
      ModsRight (receiveBytes bs').1.keyboard.mods (receiveBytes bs').2 := by
  intro h
  have hright := (h exampleShifts exampleShifts (List.prefix_refl _)).held .shift
  have hheld : (receiveBytes exampleShifts).2.Held .shift := by decide
  exact absurd (hright.mpr hheld) (by decide)

end AncoreOS.Kernel
