import Mathlib
import KirbLaSnoop.Lib.Chunks

/-!
# Bytes on the console

A message as a dump in rows of sixteen bytes, and as one line of printable
characters.
-/

namespace KirbLaSnoop

namespace Hexdump

def hexChar (n : ℕ) : Char := if n < 10 then Char.ofNat (48 + n) else Char.ofNat (87 + n)

/-- `{b:02x}`. -/
def hexByte (b : UInt8) : List Char := [hexChar (b.toNat / 16), hexChar (b.toNat % 16)]

/-- `{n:08x}`. -/
def hexOffset (n : ℕ) : List Char :=
  let digits := Nat.toDigits 16 n
  List.replicate (8 - digits.length) '0' ++ digits

def cell : Option UInt8 → List Char
  | some b => hexByte b ++ [' ']
  | none => [' ', ' ', ' ']

/-- The sixteen cells of a row; one more space comes after the eighth. -/
def cells (chunk : List UInt8) : List Char :=
  (List.range 16).flatMap fun i => cell chunk[i]? ++ if i = 7 then [' '] else []

def gutterByte (b : UInt8) : Char :=
  if (0x21 ≤ b ∧ b ≤ 0x7e) ∨ b = 0x20 then Char.ofNat b.toNat else '.'

def renderRow (indent : String) (row : ℕ) (chunk : List UInt8) : List Char :=
  indent.toList ++ hexOffset (row * 16) ++ [' ', ' '] ++ cells chunk ++ [' ', '|'] ++
    chunk.map gutterByte ++ ['|', '\n']

/-- `render`; a `max` of 0 is no limit. -/
def render (data : List UInt8) (max : ℕ) (indent : String) : String :=
  let limit := if max = 0 then data.length else min data.length max
  String.ofList ((Chunks.chunks 16 (data.take limit)).zipIdx.flatMap fun c =>
      renderRow indent c.2 c.1) ++
    if limit < data.length then
      indent ++ "... " ++ toString (data.length - limit) ++ " more bytes\n"
    else ""

def asciiByte (b : UInt8) : List Char :=
  if b = 0x0d then ['\\', 'r']
  else if b = 0x0a then ['\\', 'n']
  else if b = 0x09 then ['\\', 't']
  else if 0x20 ≤ b ∧ b ≤ 0x7e then [Char.ofNat b.toNat]
  else '\\' :: 'x' :: hexByte b

/-- `ascii_line`; a `max` of 0 is no limit. -/
def asciiLine (data : List UInt8) (max : ℕ) : String :=
  let limit := if max = 0 then data.length else min data.length max
  String.ofList ((data.take limit).flatMap asciiByte) ++
    if limit < data.length then " ...(+" ++ toString (data.length - limit) ++ ")" else ""

end Hexdump

end KirbLaSnoop
