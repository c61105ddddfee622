import StackScript.Bytecode.Chunk

/-!
# Listings of chunks

A listing shows a chunk one instruction per line under a `== name ==` header.  Each line starts
with the offset (four digits, zero-filled), then the source line in a field of four, or `   |`
when it repeats the line of the byte before.  Then comes the mnemonic, in a field of sixteen,
with its operand: a local slot, or a constant index followed by the constant in single quotes,
or for jumps the offset and the target offset after an arrow.

A listing never fails on malformed code: an unknown byte is shown as such and the listing goes
on with the next byte, and an instruction whose operand is cut off ends the listing.
-/

namespace StackScript

namespace Listing

/-- The digits of `n`, zero-filled on the left to `width`. -/
def zeroFill (n : Nat) (width : Nat) : String :=
  let s := toString n
  String.ofList (List.replicate (width - s.length) '0') ++ s

/-- A text right-aligned in a field of `width`. -/
def alignRight (s : String) (width : Nat) : String :=
  String.ofList (List.replicate (width - s.length) ' ') ++ s

/-- A text left-aligned in a field of `width`. -/
def alignLeft (s : String) (width : Nat) : String :=
  s ++ String.ofList (List.replicate (width - s.length) ' ')

/-- The offset and line columns of the instruction at `offset`. -/
def margin (c : Chunk) (offset : Nat) : String :=
  let line := c.lineAt offset
  let lineText :=
    if 0 < offset ∧ line = c.lineAt (offset - 1) then "   | "
    else alignRight (toString line) 4 ++ " "
  zeroFill offset 4 ++ " " ++ lineText

/-- The text of an instruction with a one-byte operand, and the offset after it. -/
def withOperand (c : Chunk) (op : Op) (offset : Nat) : String × Nat :=
  match c.byteAt? (offset + 1) with
  | none => (alignLeft op.mnemonic 16 ++ " <truncated>", c.size)
  | some k =>
    let head := alignLeft op.mnemonic 16 ++ " " ++ alignRight (toString k) 4
    match op with
    | .getLocal | .setLocal => (head, offset + 2)
    | _ =>
      let shown := match c.constants[k]? with
        | some v => v.render
        | none => "<missing>"
      (head ++ " '" ++ shown ++ "'", offset + 2)

/-- The text of a jump, and the offset after it.  The target is counted from the end of the
operand, backward for `LOOP`, and may lie outside the chunk. -/
def withJump (c : Chunk) (op : Op) (offset : Nat) : String × Nat :=
  match c.readU16? (offset + 1) with
  | none => (alignLeft op.mnemonic 16 ++ " <truncated>", c.size)
  | some d =>
    let next : Int := offset + 3
    let target := if op = .loop then next - d else next + d
    (alignLeft op.mnemonic 16 ++ " " ++ alignRight (toString offset) 4 ++ " -> " ++
      toString target, offset + 3)

end Listing

open Listing in
/-- The listing line of the instruction at `offset`, without its line break, and the offset
where the next instruction starts. -/
def Chunk.instructionText (c : Chunk) (offset : Nat) : String × Nat :=
  let (body, next) :=
    match c.byteAt? offset with
    | none => ("<end of chunk>", offset + 1)
    | some b =>
      match Op.ofByte? b with
      | none => ("Unknown opcode " ++ toString b, offset + 1)
      | some op =>
        match op.operandSize with
        | 0 => (op.mnemonic, offset + 1)
        | 1 => withOperand c op offset
        | _ => withJump c op offset
  (margin c offset ++ body, next)

/-- The lines of a listing from `offset` on, for at most `fuel` instructions. -/
def Chunk.listFrom (c : Chunk) : Nat → Nat → List String
  | 0, _ => []
  | fuel + 1, offset =>
    if offset < c.size then
      let (text, next) := c.instructionText offset
      text :: c.listFrom fuel next
    else []

/-- The listing of a chunk under a `== name ==` header, each line ending with a line break.
Every instruction takes at least one byte, so the listing has at most one line per byte. -/
def Chunk.listing (c : Chunk) (name : String) : String :=
  "== " ++ name ++ " ==\n" ++ String.join ((c.listFrom c.size 0).map (· ++ "\n"))

end StackScript
