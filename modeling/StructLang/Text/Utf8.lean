/-!
# Reading UTF-8

`Utf8.decode` reads bytes as text and says where and how the first ill-formed sequence breaks off.
A sequence that could still be completed by more bytes is told apart from one that could not.
-/

namespace StructLang.Utf8

/-- The first ill-formed sequence of a byte string. -/
inductive Malformed where
  /-- The bytes from `index` on are the beginning of a character. -/
  | incomplete (index : Nat)
  /-- The `length` bytes at `index` begin no character. -/
  | invalid (length index : Nat)
deriving DecidableEq

/-- What is wrong, in words. -/
def Malformed.message : Malformed → String
  | .incomplete i => s!"incomplete utf-8 byte sequence from index {i}"
  | .invalid n i => s!"invalid utf-8 sequence of {n} bytes from index {i}"

/-- A byte that continues a character. -/
def isTail (b : UInt8) : Bool := 0x80 ≤ b && b ≤ 0xBF

/-- Second bytes that may follow the first byte of a three-byte character. -/
def secondOfThree (a b : UInt8) : Bool :=
  if a = 0xE0 then 0xA0 ≤ b && b ≤ 0xBF
  else if a = 0xED then 0x80 ≤ b && b ≤ 0x9F
  else isTail b

/-- Second bytes that may follow the first byte of a four-byte character. -/
def secondOfFour (a b : UInt8) : Bool :=
  if a = 0xF0 then 0x90 ≤ b && b ≤ 0xBF
  else if a = 0xF4 then 0x80 ≤ b && b ≤ 0x8F
  else isTail b

/-- The low six bits of a continuing byte. -/
def payload (b : UInt8) : Nat := b.toNat % 64

/-- Read characters from the byte at `index` on. -/
def decodeFrom (index : Nat) : List UInt8 → Except Malformed (List Char)
  | [] => .ok []
  | a :: rest =>
    if a < 0x80 then
      (Char.ofNat a.toNat :: ·) <$> decodeFrom (index + 1) rest
    else if 0xC2 ≤ a && a ≤ 0xDF then
      match rest with
      | [] => .error (.incomplete index)
      | b :: rest =>
        if isTail b then
          (Char.ofNat (a.toNat % 32 * 64 + payload b) :: ·) <$> decodeFrom (index + 2) rest
        else .error (.invalid 1 index)
    else if 0xE0 ≤ a && a ≤ 0xEF then
      match rest with
      | [] => .error (.incomplete index)
      | b :: rest =>
        if secondOfThree a b then
          match rest with
          | [] => .error (.incomplete index)
          | c :: rest =>
            if isTail c then
              (Char.ofNat ((a.toNat % 16 * 64 + payload b) * 64 + payload c) :: ·)
                <$> decodeFrom (index + 3) rest
            else .error (.invalid 2 index)
        else .error (.invalid 1 index)
    else if 0xF0 ≤ a && a ≤ 0xF4 then
      match rest with
      | [] => .error (.incomplete index)
      | b :: rest =>
        if secondOfFour a b then
          match rest with
          | [] => .error (.incomplete index)
          | c :: rest =>
            if isTail c then
              match rest with
              | [] => .error (.incomplete index)
              | d :: rest =>
                if isTail d then
                  (Char.ofNat (((a.toNat % 8 * 64 + payload b) * 64 + payload c) * 64
                    + payload d) :: ·) <$> decodeFrom (index + 4) rest
                else .error (.invalid 3 index)
            else .error (.invalid 2 index)
        else .error (.invalid 1 index)
    else .error (.invalid 1 index)

def decode (bytes : List UInt8) : Except Malformed String := String.ofList <$> decodeFrom 0 bytes

def encode (s : String) : List UInt8 := s.toUTF8.data.toList

end StructLang.Utf8
