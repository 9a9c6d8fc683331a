/-! Decoding UTF-8 bytes that may be ill-formed. -/
namespace HtmlQuery
namespace Utf8

def replacement : Char := '�'

def isContinuation (b : UInt8) : Bool := 0x80 ≤ b && b ≤ 0xBF

def leadRange (b : UInt8) : Option (Nat × UInt8 × UInt8) :=
  if 0xC2 ≤ b && b ≤ 0xDF then some (1, 0x80, 0xBF)
  else if b == 0xE0 then some (2, 0xA0, 0xBF)
  else if b == 0xED then some (2, 0x80, 0x9F)
  else if 0xE1 ≤ b && b ≤ 0xEF then some (2, 0x80, 0xBF)
  else if b == 0xF0 then some (3, 0x90, 0xBF)
  else if 0xF1 ≤ b && b ≤ 0xF3 then some (3, 0x80, 0xBF)
  else if b == 0xF4 then some (3, 0x80, 0x8F)
  else none

def low6 (b : UInt8) : Nat := (b &&& 0x3F).toNat

/-- Decodes bytes, replacing each maximal ill-formed part by U+FFFD. -/
def decodeLossy : List UInt8 → List Char
  | [] => []
  | b0 :: rest =>
    if b0 < 0x80 then Char.ofNat b0.toNat :: decodeLossy rest
    else
      match leadRange b0 with
      | none => replacement :: decodeLossy rest
      | some (n, lo, hi) =>
        match rest with
        | [] => [replacement]
        | b1 :: r1 =>
          if !(lo ≤ b1 && b1 ≤ hi) then replacement :: decodeLossy (b1 :: r1)
          else if n = 1 then
            Char.ofNat ((b0 &&& 0x1F).toNat * 64 + low6 b1) :: decodeLossy r1
          else
            match r1 with
            | [] => [replacement]
            | b2 :: r2 =>
              if !isContinuation b2 then replacement :: decodeLossy (b2 :: r2)
              else if n = 2 then
                Char.ofNat ((b0 &&& 0x0F).toNat * 4096 + low6 b1 * 64 + low6 b2) :: decodeLossy r2
              else
                match r2 with
                | [] => [replacement]
                | b3 :: r3 =>
                  if !isContinuation b3 then replacement :: decodeLossy (b3 :: r3)
                  else
                    Char.ofNat ((b0 &&& 0x07).toNat * 262144 + low6 b1 * 4096 + low6 b2 * 64 +
                      low6 b3) :: decodeLossy r3

/-- The text of some bytes, read as UTF-8 with ill-formed parts replaced. -/
def decodeText (bytes : ByteArray) : String := String.ofList (decodeLossy bytes.toList)

example : decodeLossy [0x61, 0xFF, 0xFE, 0xC3, 0xA9, 0xE2, 0x82, 0x3C] =
    ['a', replacement, replacement, 'é', replacement, '<'] := by decide

end Utf8
end HtmlQuery
