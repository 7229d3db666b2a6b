import Mathlib

/-!
# Formatted output

`vsnprintf`. The loop over the format is split into what it reads, the items, and what it
writes for each of them. An argument is a machine word; `strings` gives the texts in memory.
A format that ends inside a conversion is taken to end the output, where the source goes on
behind the terminator.
-/

namespace RixuriOS.Libc

open List

structure Directive where
  left : Bool
  zero : Bool
  alternate : Bool
  width : Nat
  long : Bool

inductive Item
  | char (c : Char)
  | conversion (d : Directive) (kind : Char) (arg : BitVec 64)

def isFlag (c : Char) : Bool := c = '-' || c = '0' || c = '#'

def readDirective (format : List Char) : Directive × List Char :=
  let flags := format.takeWhile isFlag
  let format := format.dropWhile isFlag
  let width := (format.takeWhile Char.isDigit).foldl
    (fun width c => (width * 10 + (c.toNat - '0'.toNat)) % 2 ^ 32) 0
  let format := format.dropWhile Char.isDigit
  let long := format.head? = some 'l'
  let format := if long then format.tail else format
  let size := format.head? = some 'z'
  (⟨'-' ∈ flags, '0' ∈ flags, '#' ∈ flags, width, long || size⟩,
    if size then format.tail else format)

/-- The loop of `vsnprintf`. Every round takes at least one character, so that the length of
the format is enough fuel. -/
def itemLoop : Nat → List Char → List (BitVec 64) → List Item
  | 0, _, _ | _, [], _ => []
  | fuel + 1, c :: format, args =>
    if c ≠ '%' then .char c :: itemLoop fuel format args
    else if format = [] then []
    else if format.head? = some '%' then .char '%' :: itemLoop fuel format.tail args
    else
      match readDirective format with
      | (_, []) => [.char '?']
      | (d, kind :: format) =>
        if kind ∈ ['c', 's', 'd', 'i', 'u', 'o', 'x', 'X', 'p'] then
          .conversion d kind (args.headD 0) :: itemLoop fuel format args.tail
        else .char '?' :: itemLoop fuel format args

def items (format : List Char) (args : List (BitVec 64)) : List Item :=
  itemLoop format.length format args

/-! ## Conversions -/

/-- A number with what is written in front of its digits. The digits are padded to `room`. -/
structure Number where
  mark : List Char
  value : Nat
  base : Nat
  upper : Bool
  room : Nat

def Directive.signed (d : Directive) (arg : BitVec 64) : Int :=
  if d.long then arg.toInt else (arg.setWidth 32).toInt

def Directive.unsigned (d : Directive) (arg : BitVec 64) : Nat :=
  if d.long then arg.toNat else (arg.setWidth 32).toNat

def Directive.marked (d : Directive) (mark : List Char) (base : Nat) (upper : Bool)
    (value : Nat) : Number :=
  ⟨if d.alternate && value ≠ 0 then mark else [], value, base, upper, d.width⟩

def Directive.number (d : Directive) (arg : BitVec 64) : Char → Option Number
  | 'd' | 'i' =>
    if d.signed arg < 0 then
      some ⟨['-'], (d.signed arg).natAbs, 10, false, d.width - 1⟩
    else some ⟨[], (d.signed arg).natAbs, 10, false, d.width⟩
  | 'u' => some ⟨[], d.unsigned arg, 10, false, d.width⟩
  | 'o' => some (d.marked ['0'] 8 false (d.unsigned arg))
  | 'x' => some (d.marked ['0', 'x'] 16 false (d.unsigned arg))
  | 'X' => some (d.marked ['0', 'X'] 16 true (d.unsigned arg))
  | 'p' => some ⟨['0', 'x'], arg.toNat, 16, false, 0⟩
  | _ => none

/-- What the loop of `format_unsigned_padded` leaves in the array `digits`. -/
def Number.digits (n : Number) : List Nat :=
  if n.value = 0 then [0] else n.base.digits n.value

def Number.text (n : Number) : List Char :=
  n.digits.reverse.map fun digit => Char.ofNat <|
    if digit < 10 then '0'.toNat + digit else (if n.upper then 'A' else 'a').toNat + digit - 10

/-- `format_unsigned_padded` and `format_text_padded`, behind the digits. -/
def padded (text : List Char) (width : Nat) (left zero : Bool) : List Char :=
  if left then text ++ replicate (width - text.length) ' '
  else replicate (width - text.length) (if zero then '0' else ' ') ++ text

section

variable (strings : BitVec 64 → List Char)

def pointed (arg : BitVec 64) : List Char :=
  if arg = 0 then "(null)".toList else strings arg

def character (arg : BitVec 64) : Char := Char.ofNat (arg.toNat % 256)

def Item.text : Item → List Char
  | .char c => [c]
  | .conversion d kind arg =>
    match d.number arg kind with
    | some n => n.mark ++ padded n.text n.room d.left d.zero
    | none =>
      if kind = 'c' then
        padded (if character arg = '\x00' then [] else [character arg]) d.width d.left false
      else padded (pointed strings arg) d.width d.left false

end

section

variable (strings : BitVec 64 → List Char) (buffer : Nat → Char) (capacity : Nat)
  (format : List Char) (args : List (BitVec 64))

end

end RixuriOS.Libc
