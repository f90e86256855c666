import AncoreOS.Kernel.Keyboard

/-!
# Characters that stay down

A break clears the entry of `chars` that the key has under the modifiers of the break.  When
these are not the modifiers of the make, another entry is cleared and the first one stays
set, although every key is up.

`track` remembers where the make of each key went, and `SlotsKept` says that every later
make and the break of the key go there too.  Then an entry that is set always has a key
that holds it (`CharsTracked`), so with all keys up none is set.
-/

namespace AncoreOS.Kernel

/-! ### Keys and their codes -/

/-- A key of the set-1 table.  `0x60` is not one: its break code would be the prefix. -/
structure Key where
  ext : Bool
  code : BitVec 8
  small : code < 0x80
  notPrefix : code ≠ 0x60
  deriving DecidableEq

/-- A make or a break of a key. -/
structure KeyEvent where
  key : Key
  press : Bool

namespace KeyEvent

def scancode (e : KeyEvent) : BitVec 8 := if e.press then e.key.code else e.key.code ||| 0x80

/-- The bytes the keyboard sends. -/
def bytes (e : KeyEvent) : List (BitVec 8) := (if e.key.ext then [0xE0] else []) ++ [e.scancode]

def feed (s : KeyboardState) (e : KeyEvent) : KeyboardState :=
  e.bytes.foldl (fun s b => keyboardHandler b s) s

/-- The entry of `chars` that the event is about. -/
def slot (s : KeyboardState) (e : KeyEvent) : BitVec 8 :=
  keyDown (plainMods s.keyboard.mods e.scancode) e.scancode

theorem scancode_ne_prefix (e : KeyEvent) : e.scancode ≠ 0xE0 := by
  have hmake : ∀ c : BitVec 8, c < 0x80 → c ≠ 0xE0 := by decide
  have hbreak : ∀ c : BitVec 8, c < 0x80 → c ≠ 0x60 → c ||| 0x80 ≠ 0xE0 := by decide
  unfold scancode
  split
  · exact hmake _ e.key.small
  · exact hbreak _ e.key.small e.key.notPrefix

theorem keyIsPress_scancode (e : KeyEvent) : keyIsPress e.scancode = e.press := by
  have hmake : ∀ c : BitVec 8, c < 0x80 → keyIsPress c = true := by decide
  have hbreak : ∀ c : BitVec 8, c < 0x80 → keyIsPress (c ||| 0x80) = false := by decide
  unfold scancode
  cases e.press with
  | true => exact hmake _ e.key.small
  | false => exact hbreak _ e.key.small

section Feed

variable {s : KeyboardState} {e : KeyEvent}

/-- A key behind the prefix has no entry in `chars`. -/
theorem feed_ext (hext : e.key.ext = true) :
    (e.feed s).keyboard.chars = s.keyboard.chars ∧ (e.feed s).extended = false := by
  have hrun : e.feed s = keyboardHandler e.scancode { s with extended := true } := by
    simp [feed, bytes, hext, keyboardHandler]
  rw [hrun, keyboardHandler, if_neg e.scancode_ne_prefix]
  exact ⟨rfl, rfl⟩

theorem feed_plain (hs : s.extended = false) (hext : e.key.ext = false) :
    (e.feed s).keyboard.chars = Function.update s.keyboard.chars (e.slot s) e.press ∧
      (e.feed s).extended = false := by
  have hrun : e.feed s = keyboardHandler e.scancode s := by simp [feed, bytes, hext]
  rw [hrun, keyboardHandler, if_neg e.scancode_ne_prefix, hs, if_neg (by decide),
    e.keyIsPress_scancode]
  exact ⟨rfl, rfl⟩

end Feed

end KeyEvent

def feedAll (s : KeyboardState) (es : List KeyEvent) : KeyboardState := es.foldl KeyEvent.feed s

/-- The keys that are down after a sequence of events. -/
def held (es : List KeyEvent) : Key → Bool :=
  es.foldl (fun h e => Function.update h e.key e.press) fun _ => false

/-! ### Where the makes went -/

/-- The entry that the keys that are down hold. -/
def track (s : KeyboardState) (g : Key → Option (BitVec 8)) (e : KeyEvent) :
    Key → Option (BitVec 8) :=
  if e.key.ext then g else Function.update g e.key (if e.press then some (e.slot s) else none)

/-- No event of a key that is down finds another entry than the key's make. -/
def SlotsKept : KeyboardState → (Key → Option (BitVec 8)) → List KeyEvent → Prop
  | _, _, [] => True
  | s, g, e :: es =>
    (g e.key = none ∨ g e.key = some (e.slot s)) ∧ SlotsKept (e.feed s) (track s g e) es

instance instDecidableSlotsKept :
    ∀ (s : KeyboardState) (g : Key → Option (BitVec 8)) (es : List KeyEvent),
      Decidable (SlotsKept s g es)
  | _, _, [] => isTrue trivial
  | s, g, e :: es =>
    have := instDecidableSlotsKept (e.feed s) (track s g e) es
    inferInstanceAs (Decidable (_ ∧ _))

/-- Every entry that is set has a key that holds it, and that key is down. -/
structure CharsTracked (s : KeyboardState) (g : Key → Option (BitVec 8)) (h : Key → Bool) :
    Prop where
  extended : s.extended = false
  plain : ∀ k : Key, k.ext = true → g k = none
  owner : ∀ c, s.keyboard.chars c = true → ∃ k, g k = some c
  down : ∀ k c, g k = some c → h k = true

variable {s : KeyboardState} {g : Key → Option (BitVec 8)} {h : Key → Bool}

/-- An event of an extended key changes no character. -/
theorem CharsTracked.feed_ext (hs : CharsTracked s g h) {e : KeyEvent} (hext : e.key.ext = true) :
    CharsTracked (e.feed s) (track s g e) (Function.update h e.key e.press) := by
  obtain ⟨hchars, hoff⟩ := KeyEvent.feed_ext (s := s) hext
  have htrack : track s g e = g := if_pos hext
  rw [htrack]
  refine ⟨hoff, hs.plain, ?_, ?_⟩
  · rw [hchars]
    exact hs.owner
  · intro k c hk
    have hne : k ≠ e.key := by
      rintro rfl
      exact absurd ((hs.plain _ hext).symm.trans hk) (Option.some_ne_none c).symm
    rw [Function.update_of_ne hne]
    exact hs.down k c hk

/-- Any other event sets or clears the entry of its key. -/
theorem CharsTracked.feed_plain (hs : CharsTracked s g h) {e : KeyEvent}
    (hext : e.key.ext = false) (hkept : g e.key = none ∨ g e.key = some (e.slot s)) :
    CharsTracked (e.feed s) (track s g e) (Function.update h e.key e.press) := by
  obtain ⟨hchars, hoff⟩ := KeyEvent.feed_plain hs.extended hext
  have htrack : track s g e =
      Function.update g e.key (if e.press then some (e.slot s) else none) :=
    if_neg (by rw [hext]; decide)
  rw [htrack]
  refine ⟨hoff, ?_, ?_, ?_⟩
  · intro k hk
    have hne : k ≠ e.key := by
      rintro rfl
      exact absurd (hext.symm.trans hk) (by decide)
    rw [Function.update_of_ne hne]
    exact hs.plain k hk
  · intro c hc
    rw [hchars] at hc
    by_cases hslot : c = e.slot s
    · -- The entry of the event itself is set by a make alone, and the key holds it.
      rw [hslot, Function.update_self] at hc
      refine ⟨e.key, ?_⟩
      rw [Function.update_self, hc, if_pos rfl, hslot]
    · rw [Function.update_of_ne hslot] at hc
      obtain ⟨k, hk⟩ := hs.owner c hc
      have hne : k ≠ e.key := by
        rintro rfl
        rcases hkept with h | h
        · exact absurd (h.symm.trans hk) (Option.some_ne_none c).symm
        · exact hslot (Option.some.inj (hk.symm.trans h))
      exact ⟨k, by rw [Function.update_of_ne hne, hk]⟩
  · intro k c hk
    by_cases hkey : k = e.key
    · subst hkey
      rw [Function.update_self] at hk ⊢
      cases hpress : e.press with
      | true => rfl
      | false => simp [hpress] at hk
    · rw [Function.update_of_ne hkey] at hk ⊢
      exact hs.down k c hk

theorem CharsTracked.feed (hs : CharsTracked s g h) (e : KeyEvent)
    (hkept : g e.key = none ∨ g e.key = some (e.slot s)) :
    CharsTracked (e.feed s) (track s g e) (Function.update h e.key e.press) := by
  cases hext : e.key.ext with
  | true => exact hs.feed_ext hext
  | false => exact hs.feed_plain hext hkept

theorem CharsTracked.feedAll : ∀ (es : List KeyEvent) (s : KeyboardState)
    (g : Key → Option (BitVec 8)) (h : Key → Bool), CharsTracked s g h → SlotsKept s g es →
    ∃ g', CharsTracked (feedAll s es) g'
      (es.foldl (fun h e => Function.update h e.key e.press) h) := by
  intro es
  induction es with
  | nil => exact fun s g h hs _ => ⟨g, hs⟩
  | cons e es ih =>
    intro s g h hs hkept
    exact ih _ _ _ (hs.feed e hkept.1) hkept.2

theorem SlotsKept.of_append : ∀ (es rest : List KeyEvent) (s : KeyboardState)
    (g : Key → Option (BitVec 8)), SlotsKept s g (es ++ rest) → SlotsKept s g es := by
  intro es rest
  induction es with
  | nil => exact fun _ _ _ => trivial
  | cons e es ih =>
    intro s g h
    exact ⟨h.1, ih _ _ h.2⟩

theorem charsTracked_start : CharsTracked keyboardStart (fun _ => none) fun _ => false where
  extended := rfl
  plain _ _ := rfl
  owner _ h := absurd h Bool.false_ne_true
  down _ _ h := absurd h (Option.some_ne_none _).symm

/-- **With all keys up no character is down**, at every point of a run that keeps the
entries of the keys that are held. -/
theorem chars_clear (es : List KeyEvent) (hkept : SlotsKept keyboardStart (fun _ => none) es) :
    ∀ es', es' <+: es → (∀ k, held es' k = false) →
      ∀ c, (feedAll keyboardStart es').keyboard.chars c = false := by
  rintro es' ⟨rest, rfl⟩ hup c
  obtain ⟨g, hg⟩ := CharsTracked.feedAll es' _ _ _ charsTracked_start
    (hkept.of_append es' rest _ _)
  rw [← Bool.not_eq_true]
  intro hc
  obtain ⟨k, hk⟩ := hg.owner c hc
  exact absurd ((hup k).symm.trans (hg.down k c hk)) (by decide)

def keyA : Key := ⟨false, 0x1E, by decide, by decide⟩

def keyShift : Key := ⟨false, 0x2A, by decide, by decide⟩

/-- A capital letter, with the shift key released last. -/
def exampleCapital : List KeyEvent :=
  [⟨keyShift, true⟩, ⟨keyA, true⟩, ⟨keyA, false⟩, ⟨keyShift, false⟩]

theorem exampleCapital_up (k : Key) : held exampleCapital k = false := by
  simp only [held, exampleCapital, List.foldl_cons, List.foldl_nil, Function.update_apply]
  split
  · rfl
  · split <;> rfl

theorem chars_clear_exampleCapital :
    SlotsKept keyboardStart (fun _ => none) exampleCapital ∧
      ∀ c, (feedAll keyboardStart exampleCapital).keyboard.chars c = false :=
  ⟨by decide,
    chars_clear exampleCapital (by decide) exampleCapital (List.prefix_refl _) exampleCapital_up⟩

/-- A letter, with the shift key pressed before the letter is released. -/
def exampleStuck : List KeyEvent :=
  [⟨keyA, true⟩, ⟨keyShift, true⟩, ⟨keyA, false⟩, ⟨keyShift, false⟩]

/-- Every key is up and the letter is down. -/
theorem exampleStuck_not_clear :
    ¬∀ es : List KeyEvent, (∀ k, held es k = false) →
      ∀ c, (feedAll keyboardStart es).keyboard.chars c = false := by
  intro h
  have hup : ∀ k, held exampleStuck k = false := by
    intro k
    simp only [held, exampleStuck, List.foldl_cons, List.foldl_nil, Function.update_apply]
    split
    · rfl
    · split <;> rfl
  exact absurd (h exampleStuck hup 0x61) (by decide)

end AncoreOS.Kernel
