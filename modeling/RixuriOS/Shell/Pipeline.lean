import Mathlib

/-!
# Pipelines

`rix_shell_parse_pipeline` groups the tokens of a command line into commands and the
connectors between them. A C string is the list of its characters before the zero byte.
-/

namespace RixuriOS.Shell

def tokenText : Nat := 128

def maxCommands : Nat := 16

abbrev Text := List Char

inductive TokenType
  | word | pipe | and | or | semi | background | redirIn | redirOut | redirAppend
  | leftParen | rightParen
  deriving DecidableEq, Repr

end RixuriOS.Shell
