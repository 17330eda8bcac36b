import PropSchema.Text.Quoted
/-!
Characters from their bytes. Only the shortest form of a character is accepted, and none of the
surrogates; a fault tells the bytes that cannot go on and where they stand.
-/
namespace PropSchema.Utf8

inductive Reason where
  | startByte
  | continuation
  | endOfData
  deriving DecidableEq

def Reason.text : Reason → String
  | .startByte => "invalid start byte"
  | .continuation => "invalid continuation byte"
  | .endOfData => "unexpected end of data"

structure Fault where
  bytes : List UInt8
  position : Nat
  reason : Reason
  deriving DecidableEq

def Fault.message (f : Fault) : String :=
  let what := match f.bytes with
    | [b] => "byte 0x" ++ String.ofList (Text.hexChars 2 b.toNat) ++ s!" in position {f.position}"
    | bytes => s!"bytes in position {f.position}-{f.position + bytes.length - 1}"
  "'utf-8' codec can't decode " ++ what ++ ": " ++ f.reason.text

def isContinuation (b : UInt8) : Bool := 0x80 ≤ b && b < 0xC0

/-- Whether a byte may follow the first one: some first bytes leave less room. -/
def isSecond (first b : UInt8) : Bool :=
  isContinuation b && (first != 0xE0 || 0xA0 ≤ b) && (first != 0xED || b < 0xA0) &&
    (first != 0xF0 || 0x90 ≤ b) && (first != 0xF4 || b < 0x90)

/-- The six bits of a continuation byte behind others. -/
def more (n : Nat) (b : UInt8) : Nat := n * 64 + (b.toNat - 0x80)

/-- The characters of bytes that begin at a position. -/
def decodeFrom (position : Nat) : List UInt8 → Except Fault (List Char)
  | [] => .ok []
  | a :: rest =>
    if a < 0x80 then do
      pure (Char.ofNat a.toNat :: (← decodeFrom (position + 1) rest))
    else if a < 0xC2 || 0xF5 ≤ a then .error ⟨[a], position, .startByte⟩
    else match rest with
    | [] => .error ⟨[a], position, .endOfData⟩
    | b :: rest =>
      if !isSecond a b then .error ⟨[a], position, .continuation⟩
      else if a < 0xE0 then do
        pure (Char.ofNat (more (a.toNat - 0xC0) b) :: (← decodeFrom (position + 2) rest))
      else match rest with
      | [] => .error ⟨[a, b], position, .endOfData⟩
      | c :: rest =>
        if !isContinuation c then .error ⟨[a, b], position, .continuation⟩
        else if a < 0xF0 then do
          pure (Char.ofNat (more (more (a.toNat - 0xE0) b) c) ::
            (← decodeFrom (position + 3) rest))
        else match rest with
        | [] => .error ⟨[a, b, c], position, .endOfData⟩
        | d :: rest =>
          if !isContinuation d then .error ⟨[a, b, c], position, .continuation⟩
          else do
            pure (Char.ofNat (more (more (more (a.toNat - 0xF0) b) c) d) ::
              (← decodeFrom (position + 4) rest))

def decode (bytes : List UInt8) : Except Fault (List Char) := decodeFrom 0 bytes

/-- The text of a file, whose lines all end in line feeds. -/
def readText (bytes : List UInt8) : Except Fault String := do
  pure (String.ofList (Text.universalNewlines (← decode bytes)))

end PropSchema.Utf8
