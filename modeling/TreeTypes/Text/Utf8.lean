import TreeTypes.Text.Basic

/-!
# UTF-8

Files hold bytes. Reading decodes them as UTF-8, strictly: over-long forms,
encoded surrogates and numbers past the last code point are refused, and the
refusal tells which bytes are at fault and why. Writing encodes; a surrogate
has no encoding, so a text that holds one cannot be written.

## Main definitions

* `Utf8.decode`: bytes to text, or the first fault.
* `Utf8.encode?`: text to bytes, or `none` when a surrogate stands in it.
* `Text.unifyLineEnds`: the line ends CR LF and CR become LF.
-/

namespace TreeTypes.Utf8

/-- Why bytes are not UTF-8. -/
inductive Reason
  /-- No character begins with this byte. -/
  | invalidStart
  /-- The byte that should continue a character does not. -/
  | invalidContinuation
  /-- The bytes end inside a character. -/
  | unexpectedEnd
  deriving DecidableEq

/-- The words for a reason. -/
def Reason.text : Reason → Text
  | invalidStart => "invalid start byte"
  | invalidContinuation => "invalid continuation byte"
  | unexpectedEnd => "unexpected end of data"

/-- Bytes at fault: where they begin, the first of them, their number and the reason. -/
structure Fault where
  position : Nat
  byte : UInt8
  count : Nat
  reason : Reason
  deriving DecidableEq

/-- The description of a fault, with one position or the range of them. -/
def Fault.text (fault : Fault) : Text :=
  if fault.count = 1 then
    Text.concat ["'utf-8' codec can't decode byte 0x", Text.hexadecimal 2 fault.byte.toNat,
      " in position ", Text.numeral fault.position, ": ", fault.reason.text]
  else
    Text.concat ["'utf-8' codec can't decode bytes in position ", Text.numeral fault.position,
      "-", Text.numeral (fault.position + fault.count - 1), ": ", fault.reason.text]

/--
What the first byte of a character announces: how many continuation bytes
follow, the bits it contributes, and the range that the *first* continuation
byte has to lie in. The narrow ranges keep out over-long forms, surrogates and
numbers past the last code point.
-/
structure Lead where
  following : Nat
  bits : Nat
  low : Nat
  high : Nat

/-- The announcement of a first byte from 128 on, if a character may begin with it. -/
def lead? (b : Nat) : Option Lead :=
  if b < 0xC2 then none
  else if b < 0xE0 then some ⟨1, b - 0xC0, 0x80, 0xBF⟩
  else if b = 0xE0 then some ⟨2, 0, 0xA0, 0xBF⟩
  else if b = 0xED then some ⟨2, b - 0xE0, 0x80, 0x9F⟩
  else if b < 0xF0 then some ⟨2, b - 0xE0, 0x80, 0xBF⟩
  else if b = 0xF0 then some ⟨3, 0, 0x90, 0xBF⟩
  else if b < 0xF4 then some ⟨3, b - 0xF0, 0x80, 0xBF⟩
  else if b = 0xF4 then some ⟨3, 4, 0x80, 0x8F⟩
  else none

/--
Reads `following` continuation bytes onto `value`, the first of them from the
given range. A failure tells how many bytes were right and why it stopped.
-/
def continuation (following value low high : Nat) (good : Nat) :
    List UInt8 → Except (Nat × Reason) (Nat × List UInt8)
  | rest =>
    match following with
    | 0 => .ok (value, rest)
    | following + 1 =>
      match rest with
      | [] => .error (good, .unexpectedEnd)
      | b :: rest =>
        if low ≤ b.toNat ∧ b.toNat ≤ high then
          continuation following (value * 64 + (b.toNat - 0x80)) 0x80 0xBF (good + 1) rest
        else .error (good, .invalidContinuation)

/--
Reads characters from `position` on. `fuel` bounds the number of characters;
the number of bytes is enough.
-/
def decodeFrom : (fuel position : Nat) → List UInt8 → Except Fault Text
  | _, _, [] => .ok []
  | 0, _, _ :: _ => .ok []
  | fuel + 1, position, b :: rest =>
    if b.toNat < 0x80 then
      match decodeFrom fuel (position + 1) rest with
      | .ok text => .ok (.char (Char.ofNat b.toNat) :: text)
      | .error fault => .error fault
    else
      match lead? b.toNat with
      | none => .error ⟨position, b, 1, .invalidStart⟩
      | some lead =>
        match continuation lead.following lead.bits lead.low lead.high 1 rest with
        | .error (good, reason) => .error ⟨position, b, good, reason⟩
        | .ok (value, rest) =>
          match decodeFrom fuel (position + 1 + lead.following) rest with
          | .ok text => .ok (.char (Char.ofNat value) :: text)
          | .error fault => .error fault

/-- The text that the bytes stand for, or the first fault. -/
def decode (bytes : List UInt8) : Except Fault Text := decodeFrom bytes.length 0 bytes

/-- The bytes of one character. -/
def encodeChar (c : Char) : List UInt8 :=
  let n := c.toNat
  if n < 0x80 then [n.toUInt8]
  else if n < 0x800 then [(0xC0 + n / 64).toUInt8, (0x80 + n % 64).toUInt8]
  else if n < 0x10000 then
    [(0xE0 + n / 4096).toUInt8, (0x80 + n / 64 % 64).toUInt8, (0x80 + n % 64).toUInt8]
  else
    [(0xF0 + n / 262144).toUInt8, (0x80 + n / 4096 % 64).toUInt8,
      (0x80 + n / 64 % 64).toUInt8, (0x80 + n % 64).toUInt8]

/-- The bytes of a text, if no surrogate stands in it. -/
def encode? : Text → Option (List UInt8)
  | [] => some []
  | .char c :: rest => (encode? rest).map (encodeChar c ++ ·)
  | .surrogate _ :: _ => none

end TreeTypes.Utf8

namespace TreeTypes.Text

/-- A text with the line ends CR LF and CR replaced by LF. -/
def unifyLineEnds : Text → Text
  | [] => []
  | .char '\r' :: .char '\n' :: rest => .char '\n' :: unifyLineEnds rest
  | .char '\r' :: rest => .char '\n' :: unifyLineEnds rest
  | p :: rest => p :: unifyLineEnds rest

/-- A text with every surrogate spelled out as an escape, so that it can be written. -/
def escapeSurrogates (text : Text) : Text :=
  text.flatMap fun
    | .char c => [.char c]
    | .surrogate offset => "\\u" ++ hexadecimal 4 (0xD800 + offset.val)

end TreeTypes.Text
