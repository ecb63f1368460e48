import OpenZL.Lib.Buffer
import OpenZL.Lib.LittleEndian
import OpenZL.Lib.Result

/-!
# CBOR (`a1cbor.c`)

Trees of items, their encoder and their decoder.
-/

namespace OpenZL.Shared.A1cbor

open OpenZL.Lib

/-- `A1C_Item`.  A null and an undefined item hold no value, but there is a byte in the union where
`simple` is: `A1C_Item_null` and `A1C_Item_undefined` leave it as it was. -/
inductive Item where
  | undefined (simple : UInt8)
  | int64 (v : Int64)
  | bytes (data : List UInt8)
  | string (data : List UInt8)
  | array (items : List Item)
  | map (items : List (Item × Item))
  | boolean (b : Bool)
  | null (simple : UInt8)
  | float16 (bits : UInt16)
  | float32 (bits : UInt32)
  | float64 (bits : UInt64)
  | simple (v : UInt8)
  | tag (tag : UInt64) (item : Item)

/-- The cases of `A1C_Item_eq` for byte and text strings. -/
def dataEq (a b : List UInt8) : Bool :=
  if a.length ≠ b.length then false
  else if a.length = 0 then true
  else decide (a = b)

mutual

/-- `A1C_Item_eq` -/
def Item.eq : Item → Item → Bool
  | .int64 a, .int64 b => a == b
  | .float16 a, .float16 b => a == b
  | .float32 a, .float32 b => a == b
  | .float64 a, .float64 b => a == b
  | .boolean a, .boolean b => a == b
  | .null a, .null b => a == b
  | .undefined a, .undefined b => a == b
  | .simple a, .simple b => a == b
  | .bytes a, .bytes b => dataEq a b
  | .string a, .string b => dataEq a b
  | .array a, .array b => if a.length ≠ b.length then false else Item.eqItems a b
  | .map a, .map b => if a.length ≠ b.length then false else Item.eqPairs a b
  | .tag t a, .tag u b => t == u && Item.eq a b
  | _, _ => false

/-- The loop of `A1C_Item_eq` over two arrays of one size. -/
def Item.eqItems : List Item → List Item → Bool
  | a :: as, b :: bs => if !Item.eq a b then false else Item.eqItems as bs
  | _, _ => true

/-- The loop of `A1C_Item_eq` over two maps of one size. -/
def Item.eqPairs : List (Item × Item) → List (Item × Item) → Bool
  | (k, v) :: as, (k', v') :: bs =>
      if !Item.eq k k' then false else if !Item.eq v v' then false else Item.eqPairs as bs
  | _, _ => true

end

/-- `A1C_ErrorType`, as far as the coders use it. -/
inductive ErrorType
  | truncated
  | invalidItemHeader
  | largeIntegersUnsupported
  | integerOverflow
  | invalidChunkedString
  | maxDepthExceeded
  | invalidSimpleEncoding
  | breakNotAllowed
  | writeFailed
  | invalidSimpleValue
  | trailingData
  deriving DecidableEq, Repr

/-- `A1C_Error` -/
structure Error where
  type : ErrorType
  srcPos : Nat
  depth : Nat
  deriving DecidableEq, Repr

/-- `A1C_MajorType` -/
inductive MajorType
  | uint
  | int
  | bytes
  | string
  | array
  | map
  | tag
  | special
  deriving DecidableEq, Repr

/-- The number of a major type. -/
def MajorType.toNat : MajorType → Nat
  | .uint => 0
  | .int => 1
  | .bytes => 2
  | .string => 3
  | .array => 4
  | .map => 5
  | .tag => 6
  | .special => 7

/-- The major type of a number. -/
def majorTypeOf : Nat → MajorType
  | 0 => .uint
  | 1 => .int
  | 2 => .bytes
  | 3 => .string
  | 4 => .array
  | 5 => .map
  | 6 => .tag
  | _ => .special

/-- `A1C_ItemHeader_make` -/
def headerMake (type : MajorType) (shortCount : UInt8) : UInt8 :=
  UInt8.ofNat (type.toNat <<< 5) ||| shortCount

/-- `A1C_ItemHeader_majorType` -/
def majorType (header : UInt8) : MajorType := majorTypeOf (header >>> 5).toNat

/-- `A1C_ItemHeader_shortCount` -/
def shortCount (header : UInt8) : Nat := (header &&& 0x1F).toNat

/-- `A1C_ItemHeader_isBreak` -/
def isBreak (header : UInt8) : Bool := header == 0xFF

/-- `A1C_ItemHeader_isIndefinite` -/
def isIndefinite (header : UInt8) : Bool := shortCount header == 31

/-- `A1C_ItemHeader_isLegal` -/
def isLegal (header : UInt8) : Bool :=
  if shortCount header ≥ 28 then
    if shortCount header < 31 then false
    else !(majorType header == .uint || majorType header == .int || majorType header == .tag)
  else true

/-- A number of `k` bytes, the highest first. -/
def toBE (k n : Nat) : List UInt8 := (toLE k n).reverse

/-- The number of bytes with the highest first. -/
def ofBE (bs : List UInt8) : Nat := ofLE bs.reverse

section Encoder

variable {σ : Type}

/-- The write callback: the number of bytes it takes. -/
structure Sink (σ : Type) where
  write : σ → List UInt8 → Nat × σ

/-- `A1C_Encoder` -/
structure Encoder (σ : Type) where
  target : σ
  bytesWritten : Nat

/-- `A1C_Encoder_write` -/
def write (sink : Sink σ) (depth : Nat) (data : List UInt8) (e : Encoder σ) :
    Except Error (Encoder σ) :=
  if data.length = 0 then .ok e
  else
    let (written, target) := sink.write e.target data
    let bytesWritten := e.bytesWritten + written
    if written < data.length then .error ⟨.writeFailed, bytesWritten, depth⟩
    else .ok ⟨target, bytesWritten⟩

/-- The short count that `A1C_Encoder_encodeHeaderAndCount` picks. -/
def shortCountOf (count : Nat) : Nat :=
  if count < 24 then count
  else if count ≤ 0xFF then 24
  else if count ≤ 0xFFFF then 25
  else if count ≤ 0xFFFFFFFF then 26
  else 27

/-- `A1C_Encoder_encodeHeaderAndCount` -/
def encodeHeaderAndCount (sink : Sink σ) (depth : Nat) (type : MajorType) (count : Nat)
    (e : Encoder σ) : Except Error (Encoder σ) := do
  let shortCount := shortCountOf count
  let e ← write sink depth [headerMake type (UInt8.ofNat shortCount)] e
  if shortCount = 24 then write sink depth (toBE 1 count) e
  else if shortCount = 25 then write sink depth (toBE 2 count) e
  else if shortCount = 26 then write sink depth (toBE 4 count) e
  else if shortCount = 27 then write sink depth (toBE 8 count) e
  else .ok e

/-- `A1C_Encoder_encodeInt` -/
def encodeInt (sink : Sink σ) (depth : Nat) (v : Int64) (e : Encoder σ) :
    Except Error (Encoder σ) :=
  if v ≥ 0 then encodeHeaderAndCount sink depth .uint v.toUInt64.toNat e
  else encodeHeaderAndCount sink depth .int (~~~v).toUInt64.toNat e

/-- `A1C_Encoder_encodeData` -/
def encodeData (sink : Sink σ) (depth : Nat) (type : MajorType) (data : List UInt8)
    (e : Encoder σ) : Except Error (Encoder σ) := do
  let e ← encodeHeaderAndCount sink depth type data.length e
  write sink depth data e

/-- The cases of `A1C_Encoder_encodeSpecial` for floats of `k` bytes. -/
def encodeFloat (sink : Sink σ) (depth : Nat) (shortCount : UInt8) (k bits : Nat)
    (e : Encoder σ) : Except Error (Encoder σ) := do
  let e ← write sink depth [headerMake .special shortCount] e
  write sink depth (toBE k bits) e

/-- The case of `A1C_Encoder_encodeSpecial` for simple values. -/
def encodeSimple (sink : Sink σ) (depth : Nat) (v : UInt8) (e : Encoder σ) :
    Except Error (Encoder σ) :=
  if v ≥ 20 ∧ v < 32 then .error ⟨.invalidSimpleValue, e.bytesWritten, depth⟩
  else encodeHeaderAndCount sink depth .special v.toNat e

mutual

/-- `A1C_Encoder_encodeOne` -/
def encodeOne (sink : Sink σ) (depth : Nat) : Item → Encoder σ → Except Error (Encoder σ)
  | .int64 v, e => encodeInt sink (depth + 1) v e
  | .bytes data, e => encodeData sink (depth + 1) .bytes data e
  | .string data, e => encodeData sink (depth + 1) .string data e
  | .array items, e => do
      let e ← encodeHeaderAndCount sink (depth + 1) .array items.length e
      encodeItems sink (depth + 1) items e
  | .map items, e => do
      let e ← encodeHeaderAndCount sink (depth + 1) .map items.length e
      encodePairs sink (depth + 1) items e
  | .tag tag item, e => do
      let e ← encodeHeaderAndCount sink (depth + 1) .tag tag.toNat e
      encodeOne sink (depth + 1) item e
  | .boolean b, e => encodeHeaderAndCount sink (depth + 1) .special (if b then 21 else 20) e
  | .null _, e => encodeHeaderAndCount sink (depth + 1) .special 22 e
  | .undefined _, e => encodeHeaderAndCount sink (depth + 1) .special 23 e
  | .float16 bits, e => encodeFloat sink (depth + 1) 25 2 bits.toNat e
  | .float32 bits, e => encodeFloat sink (depth + 1) 26 4 bits.toNat e
  | .float64 bits, e => encodeFloat sink (depth + 1) 27 8 bits.toNat e
  | .simple v, e => encodeSimple sink (depth + 1) v e

/-- The loop of `A1C_Encoder_encodeArray`. -/
def encodeItems (sink : Sink σ) (depth : Nat) : List Item → Encoder σ → Except Error (Encoder σ)
  | [], e => .ok e
  | item :: items, e => do
      let e ← encodeOne sink depth item e
      encodeItems sink depth items e

/-- The loop of `A1C_Encoder_encodeMap`. -/
def encodePairs (sink : Sink σ) (depth : Nat) :
    List (Item × Item) → Encoder σ → Except Error (Encoder σ)
  | [], e => .ok e
  | (key, val) :: items, e => do
      let e ← encodeOne sink depth key e
      let e ← encodeOne sink depth val e
      encodePairs sink depth items e

end

end Encoder

/-- `A1C_noopWrite` -/
def noopWrite : Sink Unit where
  write _ data := (data.length, ())

/-- `A1C_Item_encodedSize` -/
def encodedSize (item : Item) : Nat :=
  match encodeOne noopWrite 0 item ⟨(), 0⟩ with
  | .error _ => 0
  | .ok e => e.bytesWritten

/-- `A1C_Buffer`: what was written, and the room that is left. -/
structure EncodeBuffer where
  written : List UInt8
  room : Nat

/-- `A1C_bufferWrite` -/
def bufferWrite : Sink EncodeBuffer where
  write buffer data :=
    let size := if data.length > buffer.room then buffer.room else data.length
    (size, ⟨buffer.written ++ data.take size, buffer.room - size⟩)

/-- `A1C_Item_encode`: the bytes that are written. -/
def encode (item : Item) (dstCapacity : Nat) : Except Error (List UInt8) := do
  let e ← encodeOne bufferWrite 0 item ⟨⟨[], dstCapacity⟩, 0⟩
  .ok e.target.written

/-- Why a decoder stops. -/
inductive Stop
  | error (e : Error)
  | outOfBounds
  | outOfFuel
  deriving DecidableEq, Repr

/-- `A1C_DecoderConfig`, without the limit on memory. -/
structure DecoderConfig where
  maxDepth : Nat
  referenceSource : Bool
  rejectUnknownSimple : Bool

/-- `A1C_Decoder`: the source and what does not change. -/
structure Decoder where
  src : List UInt8
  maxDepth : Nat
  referenceSource : Bool
  rejectUnknownSimple : Bool

/-- `A1C_Decoder_init` and `A1C_Decoder_reset` -/
def Decoder.init (config : DecoderConfig) (src : List UInt8) : Decoder where
  src := src
  maxDepth := if config.maxDepth = 0 then 128 else config.maxDepth
  referenceSource := config.referenceSource
  rejectUnknownSimple := config.rejectUnknownSimple

section Decoder

variable (d : Decoder) (depth : Nat)

/-- `A1C_Decoder_error` -/
def fail {α : Type} (type : ErrorType) (ptr : Nat) : Except Stop α :=
  .error (.error ⟨type, ptr, depth⟩)

/-- The load of a `memcpy`. -/
def load (ptr size : Nat) : Except Stop (List UInt8) :=
  if ptr + size ≤ d.src.length then .ok (Buffer.read d.src ptr size) else .error .outOfBounds

/-- `A1C_Decoder_remaining` -/
def remaining (ptr : Nat) : Nat := d.src.length - ptr

/-- `A1C_Decoder_peek` -/
def peek (size ptr : Nat) : Except Stop (List UInt8) :=
  if remaining d ptr < size then fail depth .truncated ptr else load d ptr size

/-- `A1C_Decoder_skip` -/
def skip (size ptr : Nat) : Except Stop Nat :=
  if remaining d ptr < size then fail depth .truncated ptr else .ok (ptr + size)

/-- `A1C_Decoder_read` -/
def read (size ptr : Nat) : Except Stop (List UInt8 × Nat) := do
  let out ← peek d depth size ptr
  let ptr ← skip d depth size ptr
  .ok (out, ptr)

/-- The header that a `read` or a `peek` gives. -/
def headerOf (out : List UInt8) : UInt8 := out.headD 0

/-- A number that is read with its highest byte first. -/
def readBE (size ptr : Nat) : Except Stop (Nat × Nat) := do
  let (value, ptr) ← read d depth size ptr
  .ok (ofBE value, ptr)

/-- `A1C_Decoder_readCount` -/
def readCount (header : UInt8) (ptr : Nat) : Except Stop (Nat × Nat) :=
  if shortCount header < 24 ∨ shortCount header = 31 then .ok (shortCount header, ptr)
  else if shortCount header = 24 then readBE d depth 1 ptr
  else if shortCount header = 25 then readBE d depth 2 ptr
  else if shortCount header = 26 then readBE d depth 4 ptr
  else if shortCount header = 27 then readBE d depth 8 ptr
  else .ok (0, ptr)

/-- `SIZE_MAX` -/
def sizeMax : Nat := 2 ^ 64 - 1

/-- `A1C_Decoder_readSize` -/
def readSize (header : UInt8) (ptr : Nat) : Except Stop (Nat × Nat) := do
  let (size, ptr) ← readCount d depth header ptr
  if size > sizeMax then fail depth .integerOverflow ptr else .ok (size, ptr)

/-- `A1C_Decoder_decodeUInt` -/
def decodeUInt (header : UInt8) (ptr : Nat) : Except Stop (Item × Nat) := do
  let (pos, ptr) ← readCount d depth header ptr
  if pos > 2 ^ 63 - 1 then fail depth .largeIntegersUnsupported ptr
  else .ok (.int64 (UInt64.ofNat pos).toInt64, ptr)

/-- `A1C_Decoder_decodeInt` -/
def decodeInt (header : UInt8) (ptr : Nat) : Except Stop (Item × Nat) := do
  let (neg, ptr) ← readCount d depth header ptr
  if neg ≥ 2 ^ 63 then fail depth .largeIntegersUnsupported ptr
  else .ok (.int64 (~~~(UInt64.ofNat neg)).toInt64, ptr)

/-- `A1C_Decoder_decodeDataDefinite`: what a pointer into the source refers to is read there. -/
def decodeDataDefinite (referenceSource : Bool) (header : UInt8) (ptr : Nat) :
    Except Stop (List UInt8 × Nat) := do
  let (size, ptr) ← readSize d depth header ptr
  if remaining d ptr < size then fail depth .truncated ptr
  else if referenceSource then do
    let data ← load d ptr size
    let ptr ← skip d depth size ptr
    .ok (data, ptr)
  else read d depth size ptr

/-- The loop of `A1C_Decoder_decodeData` over the chunks of a string, the last one first. -/
def decodeChunks (type : MajorType) :
    Nat → Nat → Nat → List (List UInt8) → Except Stop (List (List UInt8) × Nat)
  | 0, _, _, _ => .error .outOfFuel
  | fuel + 1, ptr, totalSize, previous => do
      let (out, ptr) ← read d depth 1 ptr
      let childHeader := headerOf out
      if !isLegal childHeader then fail depth .invalidItemHeader ptr
      else if isBreak childHeader then .ok (previous, ptr)
      else if majorType childHeader ≠ type ∨ isIndefinite childHeader then
        fail depth .invalidChunkedString ptr
      else do
        let (child, ptr) ← decodeDataDefinite d depth true childHeader ptr
        if totalSize + child.length > sizeMax then fail depth .integerOverflow ptr
        else decodeChunks type fuel ptr (totalSize + child.length) (child :: previous)

/-- The copies of the chunks into one buffer, from its end. -/
def rejoin (previous : List (List UInt8)) : List UInt8 :=
  previous.foldl (fun data chunk => chunk ++ data) []

/-- `A1C_Decoder_decodeData` -/
def decodeData (header : UInt8) (ptr : Nat) : Except Stop (List UInt8 × Nat) :=
  if !isIndefinite header then decodeDataDefinite d depth d.referenceSource header ptr
  else do
    let (previous, ptr) ← decodeChunks d depth (majorType header) (remaining d ptr + 1) ptr 0 []
    .ok (rejoin previous, ptr)

section Containers

variable {α : Type} (one : Nat → Except Stop (α × Nat))

/-- The loops over a number of items. -/
def decodeMany : Nat → Nat → Except Stop (List α × Nat)
  | 0, ptr => .ok ([], ptr)
  | size + 1, ptr => do
      let (item, ptr) ← one ptr
      let (items, ptr) ← decodeMany size ptr
      .ok (item :: items, ptr)

/-- The loops over items up to a break, the last item first. -/
def decodeUntilBreak : Nat → Nat → List α → Except Stop (List α × Nat)
  | 0, _, _ => .error .outOfFuel
  | fuel + 1, ptr, previous => do
      let out ← peek d depth 1 ptr
      if isBreak (headerOf out) then do
        let ptr ← skip d depth 1 ptr
        .ok (previous, ptr)
      else do
        let (child, ptr) ← one ptr
        decodeUntilBreak fuel ptr (child :: previous)

/-- `A1C_Decoder_decodeArray` and `A1C_Decoder_decodeMap`: the elements in order. -/
def decodeContainer (header : UInt8) (ptr : Nat) : Except Stop (List α × Nat) := do
  let (size, ptr) ← readSize d depth header ptr
  if isIndefinite header then do
    let (previous, ptr) ← decodeUntilBreak d depth one (remaining d ptr + 1) ptr []
    .ok (previous.reverse, ptr)
  else if remaining d ptr < size then fail depth .truncated ptr
  else decodeMany one size ptr

end Containers

/-- `A1C_Decoder_decodeArray` -/
def decodeArray (one : Nat → Except Stop (Item × Nat)) (header : UInt8) (ptr : Nat) :
    Except Stop (Item × Nat) := do
  let (items, ptr) ← decodeContainer d depth one header ptr
  .ok (.array items, ptr)

/-- A key and its value. -/
def decodePair (one : Nat → Except Stop (Item × Nat)) (ptr : Nat) :
    Except Stop ((Item × Item) × Nat) := do
  let (key, ptr) ← one ptr
  let (val, ptr) ← one ptr
  .ok ((key, val), ptr)

/-- `A1C_Decoder_decodeMap` -/
def decodeMap (one : Nat → Except Stop (Item × Nat)) (header : UInt8) (ptr : Nat) :
    Except Stop (Item × Nat) := do
  let (items, ptr) ← decodeContainer d depth (decodePair one) header ptr
  .ok (.map items, ptr)

/-- `A1C_Decoder_decodeTag` -/
def decodeTag (one : Nat → Except Stop (Item × Nat)) (header : UInt8) (ptr : Nat) :
    Except Stop (Item × Nat) := do
  let (value, ptr) ← readCount d depth header ptr
  let (child, ptr) ← one ptr
  .ok (.tag (UInt64.ofNat value) child, ptr)

/-- The case of `A1C_Decoder_decodeSpecial` for simple values behind the header. -/
def decodeSimple (ptr : Nat) : Except Stop (Item × Nat) :=
  if d.rejectUnknownSimple then fail depth .invalidSimpleEncoding ptr
  else do
    let (value, ptr) ← readBE d depth 1 ptr
    if value < 32 then fail depth .invalidSimpleEncoding ptr
    else .ok (.simple (UInt8.ofNat value), ptr)

/-- `A1C_Decoder_decodeSpecial`: the union of an item in zeroed memory is zero. -/
def decodeSpecial (header : UInt8) (ptr : Nat) : Except Stop (Item × Nat) :=
  let shortCount := shortCount header
  if shortCount = 20 ∨ shortCount = 21 then .ok (.boolean (shortCount = 21), ptr)
  else if shortCount = 22 then .ok (.null 0, ptr)
  else if shortCount = 23 then .ok (.undefined 0, ptr)
  else if shortCount = 24 then decodeSimple d depth ptr
  else if shortCount = 25 then do
    let (value, ptr) ← readBE d depth 2 ptr
    .ok (.float16 (UInt16.ofNat value), ptr)
  else if shortCount = 26 then do
    let (value, ptr) ← readBE d depth 4 ptr
    .ok (.float32 (UInt32.ofNat value), ptr)
  else if shortCount = 27 then do
    let (value, ptr) ← readBE d depth 8 ptr
    .ok (.float64 (UInt64.ofNat value), ptr)
  else if shortCount < 20 then
    if d.rejectUnknownSimple then fail depth .invalidSimpleEncoding ptr
    else .ok (.simple (UInt8.ofNat shortCount), ptr)
  else if shortCount = 31 then fail depth .breakNotAllowed ptr
  else .ok (.undefined 0, ptr)

/-- The cases of `A1C_Decoder_decodeOneInto`, with the decoder of the items inside. -/
def decodeBody (one : Nat → Except Stop (Item × Nat)) (header : UInt8) (ptr : Nat) :
    Except Stop (Item × Nat) :=
  match majorType header with
  | .uint => decodeUInt d depth header ptr
  | .int => decodeInt d depth header ptr
  | .bytes => do
      let (data, ptr) ← decodeData d depth header ptr
      .ok (.bytes data, ptr)
  | .string => do
      let (data, ptr) ← decodeData d depth header ptr
      .ok (.string data, ptr)
  | .array => decodeArray d depth one header ptr
  | .map => decodeMap d depth one header ptr
  | .tag => decodeTag d depth one header ptr
  | .special => decodeSpecial d depth header ptr

end Decoder

/-- `A1C_Decoder_decodeOneInto`, with the number of levels that `maxDepth` leaves. -/
def decodeOneInto (d : Decoder) : Nat → Nat → Except Stop (Item × Nat)
  | 0, ptr => fail (d.maxDepth + 1) .maxDepthExceeded ptr
  | levels + 1, ptr => do
      let depth := d.maxDepth - levels
      let (out, ptr) ← read d depth 1 ptr
      if !isLegal (headerOf out) then fail depth .invalidItemHeader ptr
      else decodeBody d depth (decodeOneInto d levels) (headerOf out) ptr

/-- `A1C_Decoder_decode` -/
def decode (config : DecoderConfig) (src : List UInt8) : Except Stop Item := do
  let d := Decoder.init config src
  let (item, ptr) ← decodeOneInto d d.maxDepth 0
  if ptr < src.length then fail 0 .trailingData ptr else .ok item

end OpenZL.Shared.A1cbor
