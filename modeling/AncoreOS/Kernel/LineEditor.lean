import AncoreOS.Klibc.Stdio
import AncoreOS.Library.ByteFrame
import AncoreOS.Library.ByteStore
import AncoreOS.Library.TextLine

/-!
# The line editor of the shell

A round of the outer loop of `shell_main`: the prompt, the characters that `getc` returns up to
the end of the line, and the null character behind what is left of them.  The buffer is 256
bytes of memory, and what `printf` prints is kept in `screen`.

`editLine` is what a character is meant to do to a line.  The buffer, its position and the text
that can be seen all follow it (`Edited`), so the line that is handed to `execute` is what
`editLine` makes of the characters (`shell_line_edited`).
-/

namespace AncoreOS.Kernel

open ByteMemory ByteStore Klibc TextLine

/-! ### The loop -/

structure ShellLine where
  mem : Mem
  pos : Nat
  screen : List Char

/-- `printf` with the terminal set up. -/
def ShellLine.print (format : List Char) (args : List Word) (s : ShellLine) : Option ShellLine :=
  (printf true s.mem format args).map fun r => { s with screen := s.screen ++ charsOf r.2.out }

/-- `"\b \b"`. -/
def rubOut : List Char := ['\x08', ' ', '\x08']

/-- A round of the inner loop, for a character that does not end the line. -/
def editChar (buffer : Word) (c : BitVec 8) (s : ShellLine) : Option ShellLine :=
  if c = 0x08 ∨ c = 127 then
    if 0 < s.pos then ShellLine.print rubOut [] { s with pos := s.pos - 1 } else some s
  else if 32 ≤ c.toInt ∧ c.toInt < 127 ∧ s.pos < 255 then
    ShellLine.print ['%', 'c'] [c.signExtend 64]
      { s with
        mem := Function.update s.mem (buffer + BitVec.ofNat 64 s.pos) c
        pos := s.pos + 1 }
  else some s

/-- A character that ends a line. -/
def EndsLine (c : BitVec 8) : Prop := c = 0x0A ∨ c = 0x0D

instance (c : BitVec 8) : Decidable (EndsLine c) := inferInstanceAs (Decidable (_ ∨ _))

/-- The inner loop, with the characters that `getc` returns.  It goes on as long as there are
any, and leaves those behind the end of the line. -/
def readLine (buffer : Word) : List (BitVec 8) → ShellLine → Option (ShellLine × List (BitVec 8))
  | [], _ => none
  | c :: input, s =>
    if EndsLine c then (s.print ['\n'] []).map fun s => (s, input)
    else (editChar buffer c s).bind (readLine buffer input)

def prompt : List Char := "vnix@root:$> ".toList

/-- A round of the outer loop, up to the call of `execute`. -/
def shellLine (buffer : Word) (input : List (BitVec 8)) (mem : Mem) :
    Option (ShellLine × List (BitVec 8)) := do
  let s ← ShellLine.print prompt [] ⟨mem, 0, []⟩
  let (s, input) ← readLine buffer input s
  some ({ s with mem := Function.update s.mem (buffer + BitVec.ofNat 64 s.pos) 0 }, input)

/-! ### What is meant -/

def Printable (c : BitVec 8) : Prop := 32 ≤ c.toNat ∧ c.toNat ≤ 126

instance (c : BitVec 8) : Decidable (Printable c) := inferInstanceAs (Decidable (_ ∧ _))

/-- What a character does to the line. -/
def editLine (line : List (BitVec 8)) (c : BitVec 8) : List (BitVec 8) :=
  if Printable c then if line.length < 255 then line ++ [c] else line
  else if c = 0x08 ∨ c = 127 then line.dropLast
  else line

def charOf (c : BitVec 8) : Char := Char.ofNat c.toNat

/-- The buffer and the terminal show the line. -/
structure Edited (buffer : Word) (mem : Mem) (line : List (BitVec 8)) (s : ShellLine) : Prop where
  pos : s.pos = line.length
  fits : line.length ≤ 255
  printable : ∀ c ∈ line, Printable c
  bytes : BytesAt s.mem buffer line
  frame : SameOutside buffer 256 mem s.mem
  shows : (blank.type s.screen).Shows (prompt ++ line.map charOf)

/-! ### One character -/

section Edit

variable {buffer : Word} {mem : Mem} {line : List (BitVec 8)} {s : ShellLine} {c : BitVec 8}

theorem Printable.ne_zero (h : Printable c) : c ≠ 0 := by
  rintro rfl
  exact absurd h.1 (by decide)

theorem Printable.charOf_ne (h : Printable c) : charOf c ≠ '\x08' := by
  have hall : ∀ c : BitVec 8, Printable c → charOf c ≠ '\x08' := by decide
  exact hall c h

/-- The signed comparisons choose the same characters. -/
theorem printable_iff : Printable c ↔ 32 ≤ c.toInt ∧ c.toInt < 127 := by
  have hall : ∀ c : BitVec 8, Printable c ↔ 32 ≤ c.toInt ∧ c.toInt < 127 := by decide
  exact hall c

theorem Printable.not_erase (h : Printable c) : ¬(c = 0x08 ∨ c = 127) := by
  rintro (rfl | rfl)
  · exact absurd h.1 (by decide)
  · exact absurd h.2 (by decide)

theorem print_rubOut (s : ShellLine) :
    s.print rubOut [] = some { s with screen := s.screen ++ rubOut } := rfl

theorem print_char (s : ShellLine) (c : BitVec 8) :
    s.print ['%', 'c'] [c.signExtend 64] = some { s with screen := s.screen ++ [charOf c] } := by
  have hlow : (c.signExtend 64).setWidth 8 = c := by
    have hall : ∀ c : BitVec 8, (c.signExtend 64).setWidth 8 = c := by decide
    exact hall c
  have hprint : s.print ['%', 'c'] [c.signExtend 64] =
      some { s with screen := s.screen ++ [charOf ((c.signExtend 64).setWidth 8)] } := rfl
  rw [hprint, hlow]

/-- The last character is taken away. -/
theorem Edited.erase {front : List (BitVec 8)} {last : BitVec 8}
    (h : Edited buffer mem (front ++ [last]) s) :
    Edited buffer mem front { s with pos := s.pos - 1, screen := s.screen ++ rubOut } := by
  have hfits := h.fits
  have hpos := h.pos
  have hshows := h.shows
  rw [List.length_append, List.length_singleton] at hfits hpos
  rw [List.map_append, ← List.append_assoc] at hshows
  refine ⟨?_, by omega, fun d hd => h.printable d (List.mem_append_left _ hd),
    (bytesAt_concat.mp h.bytes).1, h.frame, ?_⟩
  · show s.pos - 1 = front.length
    omega
  · show ((blank.type (s.screen ++ rubOut)).Shows _)
    rw [type_append]
    exact hshows.rubOut

/-- A character is added. -/
theorem Edited.append (h : Edited buffer mem line s) (hprint : Printable c) (hroom : line.length < 255) :
    Edited buffer mem (line ++ [c]) {
      mem := Function.update s.mem (buffer + BitVec.ofNat 64 line.length) c
      pos := line.length + 1
      screen := s.screen ++ [charOf c] } := by
  refine ⟨?_, ?_, ?_, ?_, ?_, ?_⟩
  · rw [List.length_append, List.length_singleton]
  · rw [List.length_append, List.length_singleton]
    omega
  · intro d hd
    rcases List.mem_append.mp hd with hd | hd
    · exact h.printable d hd
    · obtain rfl := List.mem_singleton.mp hd
      exact hprint
  · exact bytesAt_concat.mpr ⟨h.bytes.update (by omega) c, Function.update_self _ _ _⟩
  · exact h.frame.trans (SameOutside.update _ (inRange_add (by omega) (by decide)) c)
  · show ((blank.type (s.screen ++ [charOf c])).Shows _)
    rw [type_append, List.map_append, ← List.append_assoc]
    exact h.shows.put hprint.charOf_ne

/-- **A character does to the buffer and to the terminal what it does to the line.** -/
theorem Edited.editChar (h : Edited buffer mem line s) (c : BitVec 8) :
    ∃ s', editChar buffer c s = some s' ∧ Edited buffer mem (editLine line c) s' := by
  by_cases herase : c = 0x08 ∨ c = 127
  · have hnot : ¬Printable c := fun hp => hp.not_erase herase
    have hline : editLine line c = line.dropLast := by
      rw [editLine, if_neg hnot, if_pos herase]
    rw [Kernel.editChar, if_pos herase, hline]
    rcases List.eq_nil_or_concat line with rfl | ⟨front, last, rfl⟩
    · -- There is nothing to take away.
      rw [if_neg (by rw [h.pos]; exact Nat.lt_irrefl 0)]
      exact ⟨s, rfl, h⟩
    · rw [List.concat_eq_append] at h
      have hpos : 0 < s.pos := by
        rw [h.pos, List.length_append]
        exact Nat.succ_pos _
      rw [if_pos hpos, print_rubOut, List.concat_eq_append, List.dropLast_concat]
      exact ⟨_, rfl, h.erase⟩
  · rw [Kernel.editChar, if_neg herase, editLine, if_neg herase]
    by_cases hprint : Printable c
    · rw [if_pos hprint]
      obtain ⟨hlow, hhigh⟩ := printable_iff.mp hprint
      by_cases hroom : line.length < 255
      · rw [if_pos ⟨hlow, hhigh, by rw [h.pos]; exact hroom⟩, if_pos hroom, print_char, h.pos]
        exact ⟨_, rfl, h.append hprint hroom⟩
      · -- The buffer is full.
        rw [if_neg fun hc => hroom (by rw [← h.pos]; exact hc.2.2), if_neg hroom]
        exact ⟨s, rfl, h⟩
    · rw [if_neg hprint, if_neg fun hc => hprint (printable_iff.mpr ⟨hc.1, hc.2.1⟩)]
      exact ⟨s, rfl, h⟩

theorem prompt_eq :
    prompt = ['v', 'n', 'i', 'x', '@', 'r', 'o', 'o', 't', ':', '$', '>', ' '] := rfl

theorem prompt_ne : ∀ c ∈ prompt, c ≠ '\x08' := by
  rw [prompt_eq]
  simp

theorem edited_prompt (buffer : Word) (mem : Mem) :
    ∃ s, ShellLine.print prompt [] ⟨mem, 0, []⟩ = some s ∧ Edited buffer mem [] s := by
  have hprint : ShellLine.print prompt [] ⟨mem, 0, []⟩ = some ⟨mem, 0, prompt⟩ := rfl
  refine ⟨_, hprint, rfl, Nat.zero_le _, fun _ h => absurd h List.not_mem_nil,
    fun _ h => absurd h (Nat.not_lt_zero _), .refl _ _ _, ?_⟩
  have hshows := shows_blank.type prompt_ne
  rwa [List.nil_append, ← List.append_nil prompt] at hshows

/-! ### A line -/

theorem readLine_edited {e : BitVec 8} (he : EndsLine e) (rest : List (BitVec 8)) :
    ∀ (input line : List (BitVec 8)) (s : ShellLine), (∀ c ∈ input, ¬EndsLine c) →
      Edited buffer mem line s →
      ∃ s', readLine buffer (input ++ e :: rest) s =
          some ({ s' with screen := s'.screen ++ ['\n'] }, rest) ∧
        Edited buffer mem (input.foldl editLine line) s' := by
  intro input
  induction input with
  | nil =>
    intro line s _ h
    refine ⟨s, ?_, h⟩
    rw [List.nil_append, readLine, if_pos he]
    rfl
  | cons c input ih =>
    intro line s hinput h
    obtain ⟨s₁, hchar, h₁⟩ := h.editChar c
    obtain ⟨s', hrun, h'⟩ := ih _ s₁ (fun d hd => hinput d (List.mem_cons_of_mem c hd)) h₁
    refine ⟨s', ?_, h'⟩
    rw [List.cons_append, readLine, if_neg (hinput c List.mem_cons_self), hchar, Option.bind_some,
      hrun]

/-- What `execute` gets, and what can be seen then. -/
structure LineGiven (buffer : Word) (mem : Mem) (line : List (BitVec 8)) (s : ShellLine) :
    Prop where
  fits : line.length < 256
  string : StrAt s.mem buffer line
  frame : SameOutside buffer 256 mem s.mem
  screen : ∃ text, s.screen = text ++ ['\n'] ∧ (blank.type text).Shows (prompt ++ line.map charOf)

/-- **The line that is handed to `execute` is what the characters make of it**, in the buffer and
on the terminal. -/
theorem shell_line_edited (buffer : Word) (mem : Mem) {input : List (BitVec 8)}
    (hinput : ∀ c ∈ input, ¬EndsLine c) {e : BitVec 8} (he : EndsLine e) (rest : List (BitVec 8)) :
    ∃ s, shellLine buffer (input ++ e :: rest) mem = some (s, rest) ∧
      LineGiven buffer mem (input.foldl editLine []) s := by
  obtain ⟨s₀, hprompt, h₀⟩ := edited_prompt buffer mem
  obtain ⟨s, hrun, h⟩ := readLine_edited he rest input [] s₀ hinput h₀
  have hline : shellLine buffer (input ++ e :: rest) mem =
      some (⟨Function.update s.mem (buffer + BitVec.ofNat 64 s.pos) 0, s.pos, s.screen ++ ['\n']⟩,
        rest) := by
    rw [shellLine, hprompt]
    simp only [Option.bind_eq_bind, Option.bind_some, hrun]
  refine ⟨_, hline, Nat.lt_succ_of_le h.fits, ?_, ?_, s.screen, rfl, h.shows⟩
  · refine ⟨?_, fun c hc => (h.printable c hc).ne_zero, ?_⟩
    · show BytesAt (Function.update s.mem (buffer + BitVec.ofNat 64 s.pos) 0) buffer _
      rw [h.pos]
      exact h.bytes.update (lt_of_le_of_lt h.fits (by decide)) 0
    · show Function.update s.mem (buffer + BitVec.ofNat 64 s.pos) 0 _ = 0
      rw [h.pos]
      exact Function.update_self _ _ _
  · have hin : InRange buffer 256 (buffer + BitVec.ofNat 64 s.pos) := by
      rw [h.pos]
      exact inRange_add (Nat.lt_succ_of_le h.fits) (by decide)
    exact h.frame.trans (SameOutside.update _ hin 0)

end Edit

/-- `lx`, a backspace and `s`, over what an earlier line has left in the buffer. -/
def exampleInput : List (BitVec 8) := [0x6C, 0x78, 0x08, 0x73]

theorem shell_line_edited_exampleInput :
    ∃ s, shellLine 0x7000 (exampleInput ++ [0x0A]) (fun _ => 0x41) = some (s, []) ∧
      LineGiven 0x7000 (fun _ => 0x41) [0x6C, 0x73] s :=
  shell_line_edited 0x7000 (fun _ => 0x41) (show ∀ c ∈ exampleInput, ¬EndsLine c by decide)
    (Or.inl rfl) []

end AncoreOS.Kernel
