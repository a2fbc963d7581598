import PegScribe.Text.Quoted

/-!
Character sets: how the bytes of a file stand for text.

A decoder reads to the end or stops at the first bytes that stand for nothing.
-/
namespace PegScribe.Text

/-- The character sets that can be read. -/
inductive Charset where
  | utf8 | utf8Marked | ascii | latin1 | utf16le
  deriving DecidableEq

/-- Bytes that stand for nothing. -/
structure DecodeError where
  codec : String
  /-- The first byte at fault. -/
  byte : Nat
  start : Nat
  stop : Nat
  reason : String

/-- The wording names a single byte, and a row of bytes by its ends. -/
def DecodeError.message (e : DecodeError) : String :=
  let what :=
    if e.start + 1 = e.stop then
      " codec can't decode byte 0x" ++ String.ofList (hex 2 e.byte) ++ " in position " ++
        toString e.start
    else
      " codec can't decode bytes in position " ++ toString e.start ++ "-" ++
        toString (e.stop - 1)
  quote e.codec ++ what ++ ": " ++ e.reason

namespace Charset

/-- A character set by its name; case and the kind of dash do not matter. -/
def ofName? (name : String) : Option Charset :=
  let plain := (name.toList.map Char.toLower).map fun c => if c = '_' || c = ' ' then '-' else c
  match String.ofList plain with
  | "utf-8" | "utf8" | "u8" | "utf" | "cp65001" => some .utf8
  | "utf-8-sig" => some .utf8Marked
  | "ascii" | "us-ascii" | "646" => some .ascii
  | "latin-1" | "latin1" | "iso-8859-1" | "iso8859-1" | "8859" | "cp819" | "l1" | "latin" =>
    some .latin1
  | "utf-16-le" | "utf-16le" => some .utf16le
  | _ => none

/-! ### UTF-8 -/

/-- Bytes that go on with a character. -/
def isTail (b : Nat) : Bool := 0x80 ≤ b && b ≤ 0xBF

/-- May `b` follow the lead byte? Overlong forms, surrogates and numbers past the last code point
are shut out here. -/
def isSecond (lead b : Nat) : Bool :=
  isTail b && (lead != 0xE0 || 0xA0 ≤ b) && (lead != 0xED || b ≤ 0x9F) &&
    (lead != 0xF0 || 0x90 ≤ b) && (lead != 0xF4 || b ≤ 0x8F)

/-- One step of the UTF-8 reader: the character and the number of its bytes, or the number of
bytes at fault and the reason. -/
def utf8Step (lead : Nat) (rest : List Nat) : Except (Nat × String) (Char × Nat) :=
  let ended := "unexpected end of data"
  let broken := "invalid continuation byte"
  if lead < 0x80 then .ok (Char.ofNat lead, 1)
  else if lead < 0xC2 || 0xF4 < lead then .error (1, "invalid start byte")
  else match rest with
    | [] => .error (1, ended)
    | b :: rest =>
      if !isSecond lead b then .error (1, broken)
      else if lead < 0xE0 then .ok (Char.ofNat ((lead % 0x20) * 0x40 + b % 0x40), 2)
      else match rest with
        | [] => .error (2, ended)
        | c :: rest =>
          if !isTail c then .error (2, broken)
          else if lead < 0xF0 then
            .ok (Char.ofNat (((lead % 0x10) * 0x40 + b % 0x40) * 0x40 + c % 0x40), 3)
          else match rest with
            | [] => .error (3, ended)
            | d :: _ =>
              if !isTail d then .error (3, broken)
              else .ok (Char.ofNat
                ((((lead % 8) * 0x40 + b % 0x40) * 0x40 + c % 0x40) * 0x40 + d % 0x40), 4)

/-- Reads UTF-8 from position `pos` on; `skip` bytes of the last character are still to pass. -/
def utf8From : (bytes : List Nat) → (pos skip : Nat) → Except DecodeError (List Char)
  | [], _, _ => .ok []
  | _ :: rest, pos, skip + 1 => utf8From rest (pos + 1) skip
  | b :: rest, pos, 0 =>
    match utf8Step b rest with
    | .ok (c, n) => (utf8From rest (pos + 1) (n - 1)).map (c :: ·)
    | .error (n, reason) => .error ⟨"utf-8", b, pos, pos + n, reason⟩

/-- Drops a byte order mark from the front. -/
def dropMark : List Nat → List Nat
  | 0xEF :: 0xBB :: 0xBF :: rest => rest
  | bytes => bytes

/-! ### The other character sets -/

/-- Reads ASCII from position `pos` on. -/
def asciiFrom : List Nat → Nat → Except DecodeError (List Char)
  | [], _ => .ok []
  | b :: rest, pos =>
    if b < 0x80 then (asciiFrom rest (pos + 1)).map (Char.ofNat b :: ·)
    else .error ⟨"ascii", b, pos, pos + 1, "ordinal not in range(128)"⟩

/-- Reads UTF-16 with the low byte first, from position `pos` on. -/
def utf16From : List Nat → Nat → Except DecodeError (List Char)
  | [], _ => .ok []
  | [b], pos => .error ⟨"utf-16-le", b, pos, pos + 1, "truncated data"⟩
  | lo :: hi :: rest, pos =>
    let unit := hi * 0x100 + lo
    if unit < 0xD800 || 0xDFFF < unit then
      (utf16From rest (pos + 2)).map (Char.ofNat unit :: ·)
    else if 0xDC00 ≤ unit then
      .error ⟨"utf-16-le", lo, pos, pos + 2, "illegal encoding"⟩
    else match rest with
      | [] => .error ⟨"utf-16-le", lo, pos, pos + 2, "unexpected end of data"⟩
      | [_] => .error ⟨"utf-16-le", lo, pos, pos + 3, "unexpected end of data"⟩
      | lo' :: hi' :: rest' =>
        let low := hi' * 0x100 + lo'
        if 0xDC00 ≤ low && low ≤ 0xDFFF then
          (utf16From rest' (pos + 4)).map
            (Char.ofNat (0x10000 + (unit - 0xD800) * 0x400 + (low - 0xDC00)) :: ·)
        else .error ⟨"utf-16-le", lo, pos, pos + 2, "illegal UTF-16 surrogate"⟩

/-- Reads bytes that were handed over whole. -/
def decode (set : Charset) (bytes : List Nat) : Except DecodeError (List Char) :=
  match set with
  | .utf8 => utf8From bytes 0 0
  | .utf8Marked => utf8From (dropMark bytes) 0 0
  | .ascii => asciiFrom bytes 0
  | .latin1 => .ok (bytes.map Char.ofNat)
  | .utf16le => utf16From bytes 0

/-- Reads the bytes of a file. A file that stops inside the byte order mark holds no text. -/
def decodeFile (set : Charset) (bytes : List Nat) : Except DecodeError (List Char) :=
  if set = .utf8Marked && (bytes = [0xEF] || bytes = [0xEF, 0xBB]) then .ok []
  else decode set bytes

end Charset
end PegScribe.Text
