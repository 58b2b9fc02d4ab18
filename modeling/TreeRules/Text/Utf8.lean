/-! # UTF-8 text

Bytes are decoded by a small state machine. A byte sequence that cannot be completed becomes one
replacement character, and the byte that broke it is looked at again as a fresh start, so every
maximal invalid part of the input gives exactly one replacement character.
-/
namespace TreeRules.Utf8

/-- What stands in the text for bytes that encode no character. -/
def replacement : Char := Char.ofNat 0xFFFD

/-- A state between two bytes: at a boundary, or inside a sequence that still needs `need + 1`
continuation bytes, the next of them between `low` and `high`. -/
inductive State where
  | boundary
  | inside (need : Nat) (low high : UInt8) (bits : Nat)
  deriving DecidableEq, Repr

/-- The first byte of a character: a character of its own, the start of a longer sequence, or
nothing that can start one. -/
def start (byte : UInt8) : List Char × State :=
  if byte < 0x80 then ([Char.ofNat byte.toNat], .boundary)
  else if byte < 0xC2 then ([replacement], .boundary)
  else if byte < 0xE0 then ([], .inside 0 0x80 0xBF (byte.toNat - 0xC0))
  else if byte < 0xF0 then
    ([], .inside 1 (if byte = 0xE0 then 0xA0 else 0x80) (if byte = 0xED then 0x9F else 0xBF)
      (byte.toNat - 0xE0))
  else if byte < 0xF5 then
    ([], .inside 2 (if byte = 0xF0 then 0x90 else 0x80) (if byte = 0xF4 then 0x8F else 0xBF)
      (byte.toNat - 0xF0))
  else ([replacement], .boundary)

/-- The characters that one more byte settles, and the state after it. -/
def step : State → UInt8 → List Char × State
  | .boundary, byte => start byte
  | .inside need low high bits, byte =>
    if low ≤ byte ∧ byte ≤ high then
      let bits := bits * 64 + (byte.toNat - 0x80)
      match need with
      | 0 => ([Char.ofNat bits], .boundary)
      | need + 1 => ([], .inside need 0x80 0xBF bits)
    else
      let (characters, state) := start byte
      (replacement :: characters, state)

/-- What the end of the input leaves behind. -/
def finish : State → List Char
  | .boundary => []
  | .inside .. => [replacement]

/-- The text of the bytes that follow a state. -/
def decodeFrom (state : State) : List UInt8 → List Char
  | [] => finish state
  | byte :: rest => (step state byte).1 ++ decodeFrom (step state byte).2 rest

def decode (bytes : List UInt8) : List Char := decodeFrom .boundary bytes

def encode (text : List Char) : List UInt8 := text.flatMap String.utf8EncodeChar

def text (bytes : List UInt8) : String := String.ofList (decode bytes)

/-- Bytes of the ASCII range are characters of their own, whatever follows them. -/
theorem decode_ascii_append {bytes : List UInt8} (h : ∀ byte ∈ bytes, byte < 0x80)
    (rest : List UInt8) :
    decode (bytes ++ rest) = bytes.map (fun byte => Char.ofNat byte.toNat) ++ decode rest := by
  induction bytes with
  | nil => rfl
  | cons byte bytes ih =>
    obtain ⟨hbyte, hbytes⟩ := List.forall_mem_cons.1 h
    have hstep : step .boundary byte = ([Char.ofNat byte.toNat], .boundary) := if_pos hbyte
    have hcons : decode (byte :: (bytes ++ rest))
        = Char.ofNat byte.toNat :: decode (bytes ++ rest) := by
      rw [decode, decodeFrom, hstep]
      rfl
    rw [List.cons_append, hcons, ih hbytes, List.map_cons, List.cons_append]

end TreeRules.Utf8
