import Mathlib.Data.BitVec
import Mathlib.Tactic

/-!
# The keyboard driver

`keyboard_handler` of `kernel/shell/keyboard.c`, run on one scancode.  Set-1 codes come
as one byte, bit 7 of which tells a break from a make, and some keys put the byte `0xE0`
before it; the static variable `extended` of the handler remembers that byte.

The handler keeps two tables of flags.  `keys` has one entry for each key and `chars` one
for each character: a make sets and a break clears the entry of the character that the key
has *now*, under the modifiers of that moment (`keyDown`).  Keys without a character share
the entry `0`.

The spin of `keyboard_read_response_safe` ends with the byte, so a run starts from it.  The
writes to the local APIC are kept in `apic`, latest first.
-/

namespace AncoreOS.Kernel

/-! ### Codes and layout -/

def keyBackspace : BitVec 8 := 0x08
def keyTab : BitVec 8 := 0x09
def keyEnter : BitVec 8 := 0x0A

def keyInsert : BitVec 8 := 0x90
def keyDelete : BitVec 8 := 0x91
def keyHome : BitVec 8 := 0x92
def keyEnd : BitVec 8 := 0x93
def keyPageUp : BitVec 8 := 0x94
def keyPageDown : BitVec 8 := 0x95
def keyLeft : BitVec 8 := 0x9B
def keyUp : BitVec 8 := 0x98
def keyRight : BitVec 8 := 0x9D
def keyDownArrow : BitVec 8 := 0xA0

def keyF1 : BitVec 8 := 0x80

def keyCtrl : BitVec 8 := 0x1D
def keyAlt : BitVec 8 := 0x38
def keyLshift : BitVec 8 := 0x2A
def keyRshift : BitVec 8 := 0x36
def keyCapsLock : BitVec 8 := 0x3A
def keyScrollLock : BitVec 8 := 0x46
def keyNumLock : BitVec 8 := 0x45

def keyModAlt : BitVec 16 := 0x0200
def keyModCtrl : BitVec 16 := 0x0400
def keyModShift : BitVec 16 := 0x0800
def keyModCapsLock : BitVec 16 := 0x1000
def keyModNumLock : BitVec 16 := 0x2000
def keyModScrollLock : BitVec 16 := 0x4000

/-- `KEYBOARD_RELEASE`. -/
def keyboardRelease : BitVec 8 := 0x80

/-- `MAGIC_CAPSLOCK_TOGGLE`. -/
def magicCapslockToggle : BitVec 8 := 0x3A

private def ascii (cs : List Char) : List (BitVec 8) := cs.map fun c => BitVec.ofNat 8 c.toNat

/-- The keys after the space bar, the same in both rows. -/
private def layoutTail : List (BitVec 8) :=
  [0, keyF1, keyF1 + 1, keyF1 + 2, keyF1 + 3, keyF1 + 4, keyF1 + 5, keyF1 + 6, keyF1 + 7,
    keyF1 + 8, keyF1 + 9, 0, 0, keyHome, keyUp, keyPageUp, 0x2D, keyLeft, 0x35, keyRight, 0x2B,
    keyEnd, keyDownArrow, keyPageDown, keyInsert, keyDelete, 0, 0, 0, keyF1 + 10, keyF1 + 11]

/-- `keyboard_layout_us[0]`. -/
def layoutPlain : List (BitVec 8) :=
  [0, 1] ++ ascii ['1', '2', '3', '4', '5', '6', '7', '8', '9', '0', '-', '='] ++
    [keyBackspace, keyTab] ++ ascii ['q', 'w', 'e', 'r', 't', 'y', 'u', 'i', 'o', 'p', '[', ']'] ++
    [keyEnter, 0] ++ ascii ['a', 's', 'd', 'f', 'g', 'h', 'j', 'k', 'l', ';', '\'', '`'] ++
    [0] ++ ascii ['\\', 'z', 'x', 'c', 'v', 'b', 'n', 'm', ',', '.', '/'] ++
    [0, 0, 0] ++ ascii [' '] ++ layoutTail

/-- `keyboard_layout_us[1]`. -/
def layoutShift : List (BitVec 8) :=
  [0, 1] ++ ascii ['!', '@', '#', '$', '%', '^', '&', '*', '(', ')', '_', '+'] ++
    [keyBackspace, keyTab] ++ ascii ['Q', 'W', 'E', 'R', 'T', 'Y', 'U', 'I', 'O', 'P', '{', '}'] ++
    [keyEnter, 0] ++ ascii ['A', 'S', 'D', 'F', 'G', 'H', 'J', 'K', 'L', ':', '"', '~'] ++
    [0] ++ ascii ['|', 'Z', 'X', 'C', 'V', 'B', 'N', 'M', '<', '>', '?'] ++
    [0, 0, 0] ++ ascii [' '] ++ layoutTail

/-- `KEY_IS_PRESS`. -/
def keyIsPress (s : BitVec 8) : Bool := s &&& keyboardRelease = 0

/-- `KEY_SCANCODE`. -/
def keyScancode (s : BitVec 8) : BitVec 8 := s &&& 0x7F

/-- `KEY_CHAR(code | mods)`: bit 11 of the operand chooses the row, its low seven bits the
column. -/
def keyChar (code : BitVec 8) (mods : BitVec 16) : BitVec 8 :=
  (if mods &&& keyModShift ≠ 0 then layoutShift else layoutPlain).getD (keyScancode code).toNat 0

/-! ### The handler -/

structure Keyboard where
  mods : BitVec 16
  keys : BitVec 8 → Bool
  chars : BitVec 8 → Bool

structure KeyboardState where
  keyboard : Keyboard
  extended : Bool
  apic : List (BitVec 32 × BitVec 32)

def keyboardStart : KeyboardState := ⟨⟨0, fun _ => false, fun _ => false⟩, false, []⟩

/-- `HIBIT`. -/
def hibit (x : BitVec 16) : Nat := x.toNat.log2

/-- `BIT_SET`. -/
def bitSet (v : BitVec 16) (n : Nat) (x : Bool) : BitVec 16 :=
  v ^^^ (((if x then -1 else 0) ^^^ v) &&& (1 <<< n))

/-- The cases that both branches of the handler have; `caps` is the one for Caps Lock. -/
def modifierKeys (caps : Option (BitVec 16)) (mods : BitVec 16) (scancode : BitVec 8) : BitVec 16 :=
  let code := keyScancode scancode
  let press := keyIsPress scancode
  if code = keyAlt then bitSet mods (hibit keyModAlt) press
  else if code = keyCtrl then bitSet mods (hibit keyModCtrl) press
  else if code = keyLshift ∨ code = keyRshift then bitSet mods (hibit keyModShift) press
  else match caps with
    | some mods => mods
    | none =>
      if code = keyNumLock then bitSet mods (hibit keyModNumLock) press
      else if code = keyScrollLock then bitSet mods (hibit keyModScrollLock) press
      else mods

/-- After a prefix Caps Lock is a modifier like the others. -/
def extendedMods (mods : BitVec 16) (scancode : BitVec 8) : BitVec 16 :=
  modifierKeys
    (if keyScancode scancode = keyCapsLock then
      some (bitSet mods (hibit keyModCapsLock) (keyIsPress scancode))
    else none) mods scancode

/-- Without one, its make code toggles it. -/
def plainMods (mods : BitVec 16) (scancode : BitVec 8) : BitVec 16 :=
  modifierKeys
    (if scancode = magicCapslockToggle then some (mods ^^^ keyModCapsLock) else none) mods scancode

/-- The keys behind a prefix that have an entry in `keys`. -/
def extendedKey (code : BitVec 8) : Option (BitVec 8) :=
  if code = 0x4B then some keyLeft
  else if code = 0x4D then some keyRight
  else if code = 0x48 then some keyUp
  else if code = 0x50 then some keyDownArrow
  else if code = 0x53 then some keyDelete
  else none

/-- The entry of `chars` for a key under the modifiers `mods`, `keyDOWN` of the source. -/
def keyDown (mods : BitVec 16) (scancode : BitVec 8) : BitVec 8 :=
  let c := keyChar scancode mods
  if mods &&& keyModCapsLock ≠ 0 ∧ 0x61 ≤ c ∧ c ≤ 0x7A then
    if mods &&& keyModShift ≠ 0 then c + 32 else c - 32
  else c

/-- `APIC_EOI`. -/
def apicEoi : BitVec 32 := 0xB0

/-- `LAPIC_SendEOI`. -/
def lapicSendEoi (s : KeyboardState) : KeyboardState := { s with apic := (apicEoi, 0) :: s.apic }

def keyboardHandler (scancode : BitVec 8) (s : KeyboardState) : KeyboardState :=
  if scancode = 0xE0 then { s with extended := true }
  else if s.extended then
    { s with
      keyboard :=
        { s.keyboard with
          keys := match extendedKey (keyScancode scancode) with
            | some k => Function.update s.keyboard.keys k (keyIsPress scancode)
            | none => s.keyboard.keys
          mods := extendedMods s.keyboard.mods scancode }
      extended := false }
  else
    let mods := plainMods s.keyboard.mods scancode
    lapicSendEoi { s with
      keyboard :=
        { mods := mods
          keys := Function.update s.keyboard.keys (keyScancode scancode) (keyIsPress scancode)
          chars := Function.update s.keyboard.chars (keyDown mods scancode) (keyIsPress scancode) } }

end AncoreOS.Kernel
