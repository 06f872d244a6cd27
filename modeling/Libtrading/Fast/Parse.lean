import Libtrading.Buffer

/-!
# The wire readers of FAST

`parse_uint`, `parse_int`, `parse_string`, `parse_bytes` and `parse_pmap`:
every reader asks the buffer for one byte at a time and stops with
`FAST_MSG_STATE_PARTIAL` when none is left. `nextByte` is that test and the
`buffer_get_8` after it. The loops of the source run a counter up to a bound;
here they recurse on what is left of the bound.
-/

namespace Libtrading.Fast
open Buffer

/-- `i64` and `u64` share the 64 bits of the value union; `i64` reads them signed. -/
abbrev I64 := BitVec 64
abbrev U64 := BitVec 64

/-- What a decoder returns: 0, `FAST_MSG_STATE_GARBLED`, `FAST_MSG_STATE_PARTIAL`.
`fault` is a store outside a field's array, after which C says nothing. -/
inductive Ret where
  | ok
  | garbled
  | msgPartial
  | fault
  deriving DecidableEq, Repr

/-- The result of a reader: a value, or why there is none, and where the buffer stands. -/
inductive Parse (α : Type) where
  | done (value : α) (buffer : Buffer)
  | fail (ret : Ret) (buffer : Buffer)
  deriving DecidableEq, Repr

/-- `if (!buffer_size(buffer)) goto partial; c = buffer_get_8(buffer);` -/
def nextByte (b : Buffer) : Option (UInt8 × Buffer) :=
  if b.bufferSize = 0 then none else some b.bufferGet8

/-- The low seven bits of a wire byte. -/
def septet (c : UInt8) : BitVec 64 := (c &&& 0x7F).toBitVec.setWidth 64

/-- The stop bit. -/
def isStop (c : UInt8) : Bool := c &&& 0x80 != 0

/-- The stop-bit loop shared by `parse_uint` and `parse_int`: `bytes` more groups allowed. -/
def parseGroups : Nat → BitVec 64 → Buffer → Parse (BitVec 64)
  | 0, _, b => .fail .garbled b
  | bytes + 1, result, b =>
    match nextByte b with
    | none => .fail .msgPartial b
    | some (c, b) =>
      if isStop c then .done ((result <<< 7) ||| septet c) b
      else parseGroups bytes ((result <<< 7) ||| septet c) b

/-- `parse_uint`: at most 9 groups. -/
def parseUint (b : Buffer) : Parse U64 := parseGroups 9 0 b

/-- `parse_int`: at most 10 groups, the sign taken from bit `0x40` of the first byte. -/
def parseInt (b : Buffer) : Parse I64 :=
  if b.bufferSize = 0 then .fail .msgPartial b
  else parseGroups 10 (if b.bufferPeek8 &&& 0x40 != 0 then -1 else 0) b

/-- What `parse_string` leaves: the array it wrote to, also when it fails half-way. -/
structure StringRead where
  ret : Ret
  len : Nat
  value : List UInt8
  buffer : Buffer
  deriving DecidableEq, Repr

/-- The loop of `parse_string`, `room` more characters allowed before the terminator. -/
def parseStringFrom : Nat → Nat → List UInt8 → Buffer → StringRead
  | 0, len, value, b => ⟨.garbled, len, value, b⟩
  | room + 1, len, value, b =>
    match nextByte b with
    | none => ⟨.msgPartial, len, value, b⟩
    | some (c, b) =>
      if isStop c then ⟨.ok, len + 1, (value.set len (c &&& 0x7F)).set (len + 1) 0, b⟩
      else parseStringFrom room (len + 1) (value.set len c) b

/-- `parse_string` into an array of `size` bytes. -/
def parseString (b : Buffer) (value : List UInt8) (size : Nat) : StringRead :=
  parseStringFrom (size - 1) 0 value b

/-- `n` bytes of the buffer, or as many as are there. -/
def takeBytes : Nat → Buffer → List UInt8 × Buffer
  | 0, b => ([], b)
  | n + 1, b =>
    let (c, b) := b.bufferGet8
    let (cs, b) := takeBytes n b
    (c :: cs, b)

/-- `parse_bytes` into a 256-byte array, with the `int len` its callers narrow to:
a negative length is a huge `unsigned long` in the size test, which no buffer meets. -/
def parseBytes (b : Buffer) (value : List UInt8) (len : BitVec 32) : Parse (List UInt8) :=
  if len.msb ∨ b.bufferSize < len.toNat then .fail .msgPartial b
  else if value.length < len.toNat then .fail .fault b
  else
    let (bytes, b) := takeBytes len.toNat b
    .done (bytes ++ value.drop len.toNat) b

def pmapMaxBytes : Nat := 8

/-- `struct fast_pmap`. -/
structure Pmap where
  isValid : Bool
  pmapBit : Int
  nrBytes : Nat
  bytes : List UInt8
  deriving DecidableEq, Repr

namespace Pmap

/-- A zero-initialised map. -/
def empty : Pmap := ⟨false, 0, 0, List.replicate pmapMaxBytes 0⟩

/-- `pmap_is_set(pmap, pmap->pmap_bit)`; a negative bit is a huge `unsigned long`. -/
def pmapIsSet (p : Pmap) : Bool :=
  match p.pmapBit with
  | .ofNat bit =>
    if p.nrBytes ≤ bit / 7 then false
    else (p.bytes.getD (bit / 7) 0 &&& ((1 : UInt8) <<< (6 - bit % 7).toUInt8)) != 0
  | .negSucc _ => false

/-- `pmap->pmap_bit++`. -/
def next (p : Pmap) : Pmap := { p with pmapBit := p.pmapBit + 1 }

end Pmap

/-- The loop of `parse_pmap`. -/
def parsePmapFrom : Nat → Pmap → Buffer → Ret × Pmap × Buffer
  | 0, p, b => (.garbled, p, b)
  | room + 1, p, b =>
    match nextByte b with
    | none => (.msgPartial, p, b)
    | some (c, b) =>
      let p := { p with bytes := p.bytes.set p.nrBytes c, nrBytes := p.nrBytes + 1 }
      if isStop c then (.ok, p, b) else parsePmapFrom room p b

/-- `parse_pmap`. -/
def parsePmap (b : Buffer) (p : Pmap) : Ret × Pmap × Buffer :=
  parsePmapFrom pmapMaxBytes { p with nrBytes := 0 } b

end Libtrading.Fast
