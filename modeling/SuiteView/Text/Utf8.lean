import SuiteView.Text.Hex

/-!
# Strict UTF-8

Decoding stops at the first byte sequence that is no character: a byte that cannot start one, a
continuation byte that is missing or out of range, or an end inside a character. The fault names
the bytes from the start of the sequence to the last one that could still belong to it.
-/

namespace SuiteView.Text

/-- Why a byte sequence is no UTF-8. -/
inductive Utf8Cause where
  | startByte
  | continuationByte
  | endOfData
deriving DecidableEq, Repr

/-- A fault: the offset of the sequence, its first byte and the number of bytes it takes. -/
structure Utf8Fault where
  cause : Utf8Cause
  offset : Nat
  byte : UInt8
  length : Nat
deriving DecidableEq, Repr

def Utf8Cause.message : Utf8Cause → String
  | .startByte => "invalid start byte"
  | .continuationByte => "invalid continuation byte"
  | .endOfData => "unexpected end of data"

/-- The whole fault: a single byte is named with its place, several by their range. -/
def Utf8Fault.message (f : Utf8Fault) : String :=
  let place :=
    if f.length = 1 then
      "byte 0x" ++ String.ofList (hex 2 f.byte.toNat) ++ " in position " ++ toString f.offset
    else
      "bytes in position " ++ toString f.offset ++ "-" ++ toString (f.offset + f.length - 1)
  "'utf-8' codec can't decode " ++ place ++ ": " ++ f.cause.message

def isContinuation (b : UInt8) : Bool := 0x80 ≤ b && b ≤ 0xBF

/-- The second bytes that a first byte admits: overlong forms, surrogates and numbers past the last
code point are cut off here. -/
def admitsSecond (first second : UInt8) : Bool :=
  isContinuation second &&
    !((first == 0xE0 && second < 0xA0) || (first == 0xED && 0xA0 ≤ second) ||
      (first == 0xF0 && second < 0x90) || (first == 0xF4 && 0x90 ≤ second))

def sequenceLength? (b : UInt8) : Option Nat :=
  if b < 0x80 then some 1
  else if 0xC2 ≤ b ∧ b ≤ 0xDF then some 2
  else if 0xE0 ≤ b ∧ b ≤ 0xEF then some 3
  else if 0xF0 ≤ b ∧ b ≤ 0xF4 then some 4
  else none

/-- The character with the given payload of the first byte and continuation bytes. -/
def assemble (first : Nat) (continuations : List UInt8) : Char :=
  Char.ofNat (continuations.foldl (fun n b => 64 * n + (b.toNat - 0x80)) first)

def decodeFrom (offset : Nat) : List UInt8 → Except Utf8Fault (List Char)
  | [] => .ok []
  | a :: rest =>
    let fault := fun cause length => Except.error ⟨cause, offset, a, length⟩
    match sequenceLength? a with
    | some 1 => (decodeFrom (offset + 1) rest).map (assemble a.toNat [] :: ·)
    | some 2 =>
      match rest with
      | [] => fault .endOfData 1
      | b :: rest =>
        if !admitsSecond a b then fault .continuationByte 1
        else (decodeFrom (offset + 2) rest).map (assemble (a.toNat - 0xC0) [b] :: ·)
    | some 3 =>
      match rest with
      | [] => fault .endOfData 1
      | b :: rest =>
        if !admitsSecond a b then fault .continuationByte 1
        else match rest with
          | [] => fault .endOfData 2
          | c :: rest =>
            if !isContinuation c then fault .continuationByte 2
            else (decodeFrom (offset + 3) rest).map (assemble (a.toNat - 0xE0) [b, c] :: ·)
    | some _ =>
      match rest with
      | [] => fault .endOfData 1
      | b :: rest =>
        if !admitsSecond a b then fault .continuationByte 1
        else match rest with
          | [] => fault .endOfData 2
          | c :: rest =>
            if !isContinuation c then fault .continuationByte 2
            else match rest with
              | [] => fault .endOfData 3
              | d :: rest =>
                if !isContinuation d then fault .continuationByte 3
                else (decodeFrom (offset + 4) rest).map (assemble (a.toNat - 0xF0) [b, c, d] :: ·)
    | none => fault .startByte 1

def decode (bytes : List UInt8) : Except Utf8Fault (List Char) := decodeFrom 0 bytes

def encode (s : String) : List UInt8 := s.toUTF8.toList

end SuiteView.Text
