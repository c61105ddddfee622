import StackScript.Bytecode.Op
import StackScript.Value

/-!
# Chunks

A chunk is a unit of compiled code: its bytes, the source line of every byte, and its constant
pool.  Jump operands are two bytes, high byte first.  Looking past the end of the code answers
no byte, and line `0`.
-/

namespace StackScript

/-- Compiled code: bytes, one source line per byte, and the constants they refer to. -/
structure Chunk where
  code : Array UInt8
  lines : Array Nat
  constants : Array Value
deriving Inhabited

namespace Chunk

/-- The empty chunk. -/
def empty : Chunk := ⟨#[], #[], #[]⟩

/-- The number of bytes. -/
def size (c : Chunk) : Nat := c.code.size

/-- Append a byte from the given source line. -/
def write (c : Chunk) (byte : Nat) (line : Nat) : Chunk :=
  { c with code := c.code.push (UInt8.ofNat byte), lines := c.lines.push line }

/-- Append an instruction's byte. -/
def writeOp (c : Chunk) (op : Op) (line : Nat) : Chunk := c.write op.byte line

/-- Append a constant to the pool. -/
def addConstant (c : Chunk) (v : Value) : Chunk := { c with constants := c.constants.push v }

/-- The byte at an offset, if the code reaches it. -/
def byteAt? (c : Chunk) (offset : Nat) : Option Nat := (c.code[offset]?).map UInt8.toNat

/-- The two-byte operand at an offset, high byte first, if both bytes are there. -/
def readU16? (c : Chunk) (offset : Nat) : Option Nat := do
  let hi ← c.byteAt? offset
  let lo ← c.byteAt? (offset + 1)
  return hi * 256 + lo

/-- Overwrite the two-byte operand at an offset. -/
def patchU16 (c : Chunk) (offset : Nat) (value : Nat) : Chunk :=
  let hi := UInt8.ofNat (value / 256)
  let lo := UInt8.ofNat (value % 256)
  { c with code := (c.code.setIfInBounds offset hi).setIfInBounds (offset + 1) lo }

/-- The source line of the byte at an offset, or `0` past the end. -/
def lineAt (c : Chunk) (offset : Nat) : Nat := c.lines.getD offset 0

/-- A chunk written byte by byte, byte `i` from line `lines[i]` or from `line` where `lines` has
no entry, with the given constants. -/
def assemble (code : List Nat) (lines : List Nat) (line : Nat) (constants : List Value) : Chunk :=
  let written := (code.zipIdx).foldl (fun c (b, i) => c.write b (lines.getD i line)) empty
  { written with constants := constants.toArray }

end Chunk

end StackScript
