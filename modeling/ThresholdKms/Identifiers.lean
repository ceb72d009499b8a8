import ThresholdKms.UserDecryptionResponse

/-!
# Identifiers

Requests, keys, epochs and contexts are named by 32 bytes, written in messages as text. Reading the
text drops surrounding white space and a leading `0x` and accepts both cases of the hexadecimal
digits, so one identifier has several texts.
-/

namespace ThresholdKms

def idLength : ℕ := 32

structure Identifier where
  bytes : Bytes
  length_bytes : bytes.length = idLength
  deriving DecidableEq

/-- The identifier that starts with a byte and continues with zeros. -/
def Identifier.ofByte (byte : UInt8) : Identifier := ⟨byte :: List.replicate 31 0, rfl⟩

/-- The characters with the Unicode property `White_Space`. -/
def isWhitespace (c : Char) : Bool :=
  let n := c.toNat
  (0x9 ≤ n && n ≤ 0xd) || n == 0x20 || n == 0x85 || n == 0xa0 || n == 0x1680 ||
    (0x2000 ≤ n && n ≤ 0x200a) || n == 0x2028 || n == 0x2029 || n == 0x202f || n == 0x205f ||
    n == 0x3000

variable (s : List Char)

def trim : List Char :=
  ((s.dropWhile isWhitespace).reverse.dropWhile isWhitespace).reverse

def hexDigit (c : Char) : Option UInt8 :=
  let n := c.toNat
  if 48 ≤ n && n ≤ 57 then some (UInt8.ofNat (n - 48))
  else if 97 ≤ n && n ≤ 102 then some (UInt8.ofNat (n - 87))
  else if 65 ≤ n && n ≤ 70 then some (UInt8.ofNat (n - 55))
  else none

/-- The bytes written by pairs of digits, the first pair at position `i` of the text. -/
def hexPairs (i : ℕ) : List Char → Except String Bytes
  | high :: low :: rest =>
    match hexDigit high, hexDigit low with
    | some h, some l => do
        let bytes ← hexPairs (i + 2) rest
        return (h * 16 + l) :: bytes
    | none, _ => .error s!"Invalid character {repr high} at position {i}"
    | _, none => .error s!"Invalid character {repr low} at position {i + 1}"
  | _ => .ok []

def hexDecode : Except String Bytes :=
  if s.length % 2 ≠ 0 then .error "Odd number of digits" else hexPairs 0 s

def withoutPrefix0x : List Char :=
  match trim s with
  | '0' :: 'x' :: rest => rest
  | s => s

def Identifier.fromStr : Outcome Identifier :=
  match hexDecode (withoutPrefix0x s) with
  | .error e => Outcome.err s!"Invalid hex format in identifier: {e}"
  | .ok bytes =>
    if h : bytes.length = idLength then .ok ⟨bytes, h⟩
    else Outcome.err (s!"Invalid identifier length: expected {idLength} bytes, " ++
      s!"got {bytes.length}")

/-- The text of an identifier is always hexadecimal, so only zeros make it invalid. -/
def Identifier.isValid (id : Identifier) : Bool := !id.bytes.all (· == 0)

/-- The conversion of an identifier in a message. -/
def Identifier.tryFrom : Outcome Identifier := do
  let out ← Identifier.fromStr s
  if out.isValid then return out else Outcome.err "Identifier validation failure"

/-- The prefix, the case and the surrounding space are read over. -/
example : Identifier.tryFrom (" 0x".toList ++ List.replicate 64 'A') =
    Identifier.tryFrom (List.replicate 64 'a') := by
  decide +kernel

end ThresholdKms
