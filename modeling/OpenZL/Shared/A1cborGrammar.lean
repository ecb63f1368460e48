import OpenZL.Shared.A1cborEq

/-!
# The documents of CBOR items

Which bytes stand for an item: a count may be in any of the five sizes, and a string or a container
may have its size in front or a break behind it.

Principal results: `Head.exists_cons`, `Written.exists_cons`.
-/

namespace OpenZL.Shared.A1cbor

open OpenZL.Lib

theorem headerMake_parts (type : MajorType) : ∀ n < 32,
    majorType (headerMake type (UInt8.ofNat n)) = type ∧
      shortCount (headerMake type (UInt8.ofNat n)) = n := by
  cases type <;> decide

theorem majorType_headerMake (type : MajorType) {n : Nat} (h : n < 32) :
    majorType (headerMake type (UInt8.ofNat n)) = type := (headerMake_parts type n h).1

theorem shortCount_headerMake (type : MajorType) {n : Nat} (h : n < 32) :
    shortCount (headerMake type (UInt8.ofNat n)) = n := (headerMake_parts type n h).2

theorem headerMake_eq_aux : ∀ n < 256, headerMake (majorType (UInt8.ofNat n))
    (UInt8.ofNat (shortCount (UInt8.ofNat n))) = UInt8.ofNat n := by
  decide +kernel

theorem headerMake_eq (header : UInt8) :
    headerMake (majorType header) (UInt8.ofNat (shortCount header)) = header := by
  have h := headerMake_eq_aux header.toNat header.toNat_lt
  rwa [UInt8.ofNat_toNat] at h

theorem shortCount_lt (header : UInt8) : shortCount header < 32 := by
  have h : header.toNat &&& 31 < 2 ^ 5 := Nat.and_lt_two_pow _ (by decide)
  rwa [shortCount, UInt8.toNat_and]

theorem header_of_small {header : UInt8} (h : shortCount header < 28) :
    isLegal header = true ∧ isIndefinite header = false ∧ isBreak header = false := by
  refine ⟨?_, ?_, ?_⟩
  · rw [isLegal, if_neg (by omega)]
  · rw [isIndefinite, beq_eq_false_iff_ne]
    omega
  · rw [isBreak, beq_eq_false_iff_ne]
    rintro rfl
    exact absurd h (by decide)

/-- The short counts that announce a count of some bytes. -/
def countSizes : List (Nat × Nat) := [(24, 1), (25, 2), (26, 4), (27, 8)]

/-- A header with a count: in the header, or in the bytes behind it. -/
def Head (type : MajorType) (count : Nat) (bs : List UInt8) : Prop :=
  count < 24 ∧ bs = [headerMake type (UInt8.ofNat count)] ∨
  ∃ size ∈ countSizes, count < 256 ^ size.2 ∧
    bs = headerMake type (UInt8.ofNat size.1) :: toBE size.2 count

/-- The bytes from a position on. -/
def At (d : Decoder) (ptr : Nat) (bs : List UInt8) : Prop :=
  ptr ≤ d.src.length ∧ d.src.drop ptr = bs

section Reading

variable {d : Decoder} {depth ptr : Nat} {bs rest : List UInt8}

theorem At.remaining (h : At d ptr bs) : remaining d ptr = bs.length := by
  rw [A1cbor.remaining, ← h.2, List.length_drop]

theorem At.le (h : At d ptr bs) : ptr + bs.length ≤ d.src.length := by
  have hlen := h.remaining
  rw [A1cbor.remaining] at hlen
  have := h.1
  omega

section

variable (h : At d ptr (bs ++ rest))

include h

theorem At.advance : At d (ptr + bs.length) rest := by
  have hle := h.le
  rw [List.length_append] at hle
  refine ⟨by omega, ?_⟩
  rw [← List.drop_drop, h.2, List.drop_left]

theorem At.load : load d ptr bs.length = .ok bs := by
  have hle := h.le
  rw [List.length_append] at hle
  rw [A1cbor.load, if_pos (by omega), Buffer.read_eq, h.2, List.take_left]

theorem At.peek : peek d depth bs.length ptr = .ok bs := by
  rw [A1cbor.peek, h.remaining, List.length_append, if_neg (by omega), h.load]

theorem At.skip : skip d depth bs.length ptr = .ok (ptr + bs.length) := by
  rw [A1cbor.skip, h.remaining, List.length_append, if_neg (by omega)]

theorem At.read : read d depth bs.length ptr = .ok (bs, ptr + bs.length) := by
  rw [A1cbor.read, h.peek, h.skip]
  rfl

end

theorem length_toBE (k n : Nat) : (toBE k n).length = k := by
  rw [toBE, List.length_reverse, length_toLE]

theorem ofBE_toBE {k n : Nat} (h : n < 256 ^ k) : ofBE (toBE k n) = n := by
  rw [ofBE, toBE, List.reverse_reverse, ofLE_toLE, Nat.mod_eq_of_lt h]

theorem toBE_ofBE (bs : List UInt8) : toBE bs.length (ofBE bs) = bs := by
  rw [toBE, ofBE, ← List.length_reverse, toLE_ofLE, List.reverse_reverse]

theorem ofBE_lt (bs : List UInt8) : ofBE bs < 256 ^ bs.length := by
  have h := ofLE_lt bs.reverse
  rwa [List.length_reverse] at h

theorem At.readBE {k n : Nat} (h : At d ptr (toBE k n ++ rest)) (hn : n < 256 ^ k) :
    readBE d depth k ptr = .ok (n, ptr + k) := by
  have hread : A1cbor.read d depth (toBE k n).length ptr = _ := h.read
  rw [length_toBE] at hread
  rw [A1cbor.readBE, hread]
  exact congrArg (fun m => Except.ok (m, ptr + k)) (ofBE_toBE hn)

theorem readCount_of_size {header : UInt8} {size : Nat × Nat} (hsize : size ∈ countSizes)
    (hheader : shortCount header = size.1) :
    readCount d depth header ptr = A1cbor.readBE d depth size.2 ptr := by
  simp only [countSizes, List.mem_cons, List.not_mem_nil, or_false] at hsize
  rcases hsize with rfl | rfl | rfl | rfl <;> simp [readCount, hheader]

/-- **A head** as its reader sees it. -/
theorem Head.exists_cons {type : MajorType} {count : Nat} (h : Head type count bs) :
    ∃ header t, bs = header :: t ∧ majorType header = type ∧ shortCount header < 28 ∧
      count < 2 ^ 64 ∧ ∀ (d : Decoder) (depth ptr : Nat) (rest : List UInt8),
        At d ptr (t ++ rest) → readCount d depth header ptr = .ok (count, ptr + t.length) := by
  rcases h with ⟨hsmall, rfl⟩ | ⟨size, hsize, hlt, rfl⟩
  · have hshort := shortCount_headerMake type (by omega : count < 32)
    refine ⟨_, [], rfl, majorType_headerMake type (by omega), by omega, by omega, ?_⟩
    intro d depth ptr rest _
    rw [readCount, hshort, if_pos (Or.inl hsmall)]
    rfl
  · have hbound : size.1 < 28 ∧ 256 ^ size.2 ≤ 2 ^ 64 := by
      simp only [countSizes, List.mem_cons, List.not_mem_nil, or_false] at hsize
      rcases hsize with rfl | rfl | rfl | rfl <;> decide
    have hshort := shortCount_headerMake type (by omega : size.1 < 32)
    refine ⟨_, _, rfl, majorType_headerMake type (by omega), by omega, by omega, ?_⟩
    intro d depth ptr rest hat
    rw [readCount_of_size hsize hshort, hat.readBE hlt, length_toBE]

end Reading

section Integers

theorem toInt_eq (v : Int64) :
    v.toInt = if 2 * v.toUInt64.toNat < 2 ^ 64 then (v.toUInt64.toNat : Int)
      else v.toUInt64.toNat - 2 ^ 64 := BitVec.toInt_eq_toNat_cond v.toBitVec

theorem nonneg_iff (v : Int64) : v ≥ 0 ↔ v.toUInt64.toNat < 2 ^ 63 := by
  rw [ge_iff_le, Int64.le_iff_toInt_le, Int64.toInt_zero, toInt_eq]
  have hlt := v.toUInt64.toNat_lt
  split <;> omega

theorem toNat_not (v : Int64) : (~~~v).toUInt64.toNat = 2 ^ 64 - 1 - v.toUInt64.toNat :=
  BitVec.toNat_not

theorem toInt64_of_nonneg {pos : Nat} (h : pos < 2 ^ 63) :
    (UInt64.ofNat pos).toInt64 ≥ 0 ∧ (UInt64.ofNat pos).toInt64.toUInt64.toNat = pos := by
  have hto : (UInt64.ofNat pos).toInt64.toUInt64.toNat = pos := by
    show (UInt64.ofNat pos).toNat = pos
    rw [UInt64.toNat_ofNat', Nat.mod_eq_of_lt (by omega)]
  exact ⟨(nonneg_iff _).2 (by rwa [hto]), hto⟩

theorem toInt64_of_neg {neg : Nat} (h : neg < 2 ^ 63) :
    ¬(~~~UInt64.ofNat neg).toInt64 ≥ 0 ∧
      (~~~(~~~UInt64.ofNat neg).toInt64).toUInt64.toNat = neg := by
  have hto : (UInt64.ofNat neg).toNat = neg := by
    rw [UInt64.toNat_ofNat', Nat.mod_eq_of_lt (by omega)]
  have hnot : (~~~UInt64.ofNat neg).toInt64.toUInt64.toNat = 2 ^ 64 - 1 - neg := by
    show (~~~UInt64.ofNat neg).toNat = _
    rw [UInt64.toNat_not, hto]
    rfl
  refine ⟨fun hge => ?_, ?_⟩
  · rw [nonneg_iff, hnot] at hge
    omega
  · rw [toNat_not, hnot]
    omega

theorem toInt64_toUInt64 (v : Int64) : (UInt64.ofNat v.toUInt64.toNat).toInt64 = v := by
  rw [UInt64.ofNat_toNat]
  rfl

theorem not_toInt64_not (v : Int64) : (~~~UInt64.ofNat (~~~v).toUInt64.toNat).toInt64 = v := by
  have hnot : (~~~v).toUInt64 = ~~~v.toUInt64 := rfl
  rw [UInt64.ofNat_toNat, hnot, UInt64.not_not]
  rfl

end Integers

/-- The chunks of a string. -/
def Chunks (type : MajorType) : List (List UInt8) → List UInt8 → Prop
  | [], bs => bs = []
  | chunk :: chunks, bs => ∃ head rest, Head type chunk.length head ∧ Chunks type chunks rest ∧
      bs = head ++ (chunk ++ rest)

/-- A string, whole or in chunks. -/
def WrittenData (type : MajorType) (data bs : List UInt8) : Prop :=
  (∃ head, Head type data.length head ∧ bs = head ++ data) ∨
  ∃ chunks inner, chunks.flatten = data ∧ Chunks type chunks inner ∧
    bs = headerMake type 31 :: (inner ++ [0xFF])

/-- A container around the documents of its elements. -/
def WrittenContainer (type : MajorType) (size : Nat) (inner bs : List UInt8) : Prop :=
  (∃ head, Head type size head ∧ bs = head ++ inner) ∨
  bs = headerMake type 31 :: (inner ++ [0xFF])

mutual

/-- A document for an item; `simple` tells if there may be simple values in it. -/
def Written (simple : Bool) : Item → List UInt8 → Prop
  | .int64 v, bs =>
      if v ≥ 0 then Head .uint v.toUInt64.toNat bs else Head .int (~~~v).toUInt64.toNat bs
  | .bytes data, bs => WrittenData .bytes data bs
  | .string data, bs => WrittenData .string data bs
  | .array items, bs => ∃ inner, WrittenItems simple items inner ∧
      WrittenContainer .array items.length inner bs
  | .map items, bs => ∃ inner, WrittenPairs simple items inner ∧
      WrittenContainer .map items.length inner bs
  | .tag tag item, bs => ∃ head inner, Head .tag tag.toNat head ∧ Written simple item inner ∧
      bs = head ++ inner
  | .boolean b, bs => bs = [headerMake .special (if b then 21 else 20)]
  | .null _, bs => bs = [headerMake .special 22]
  | .undefined _, bs => bs = [headerMake .special 23]
  | .float16 bits, bs => bs = headerMake .special 25 :: toBE 2 bits.toNat
  | .float32 bits, bs => bs = headerMake .special 26 :: toBE 4 bits.toNat
  | .float64 bits, bs => bs = headerMake .special 27 :: toBE 8 bits.toNat
  | .simple v, bs => simple = true ∧ (v < 20 ∧ bs = [headerMake .special v] ∨
      32 ≤ v ∧ bs = [headerMake .special 24, v])

/-- Documents for items, one behind the other. -/
def WrittenItems (simple : Bool) : List Item → List UInt8 → Prop
  | [], bs => bs = []
  | item :: items, bs => ∃ first rest, Written simple item first ∧
      WrittenItems simple items rest ∧ bs = first ++ rest

/-- Documents for keys and values, one behind the other. -/
def WrittenPairs (simple : Bool) : List (Item × Item) → List UInt8 → Prop
  | [], bs => bs = []
  | (key, val) :: items, bs => ∃ first second rest, Written simple key first ∧
      Written simple val second ∧ WrittenPairs simple items rest ∧
      bs = first ++ (second ++ rest)

end

mutual

/-- The number of levels of a tree. -/
def Item.depth : Item → Nat
  | .array items => 1 + Item.depthItems items
  | .map items => 1 + Item.depthPairs items
  | .tag _ item => 1 + item.depth
  | _ => 1

/-- The number of levels of the items of an array. -/
def Item.depthItems : List Item → Nat
  | [] => 0
  | item :: items => max item.depth (Item.depthItems items)

/-- The number of levels of the items of a map. -/
def Item.depthPairs : List (Item × Item) → Nat
  | [] => 0
  | (key, val) :: items => max key.depth (max val.depth (Item.depthPairs items))

end

theorem Item.depth_pos (item : Item) : 0 < item.depth := by
  cases item <;> simp only [Item.depth] <;> omega

theorem Written.exists_cons {simple : Bool} {item : Item} {bs : List UInt8}
    (h : Written simple item bs) :
    ∃ header t, bs = header :: t ∧ isLegal header = true ∧ isBreak header = false := by
  have hhead : ∀ {type : MajorType} {count : Nat} {head rest : List UInt8},
      Head type count head → bs = head ++ rest →
        ∃ header t, bs = header :: t ∧ isLegal header = true ∧ isBreak header = false := by
    rintro type count head rest hhead rfl
    obtain ⟨header, t, rfl, -, hsmall, -⟩ := hhead.exists_cons
    obtain ⟨hlegal, -, hbreak⟩ := header_of_small hsmall
    exact ⟨header, t ++ rest, rfl, hlegal, hbreak⟩
  have hspecial : ∀ {n : UInt8} {rest : List UInt8}, n.toNat < 28 →
      bs = headerMake .special n :: rest →
        ∃ header t, bs = header :: t ∧ isLegal header = true ∧ isBreak header = false := by
    rintro n rest hn rfl
    have hshort := shortCount_headerMake .special (by omega : n.toNat < 32)
    rw [UInt8.ofNat_toNat] at hshort
    obtain ⟨hlegal, -, hbreak⟩ :=
      header_of_small (by omega : shortCount (headerMake .special n) < 28)
    exact ⟨_, rest, rfl, hlegal, hbreak⟩
  cases item with
  | int64 v =>
    rw [Written] at h
    split at h <;> exact hhead h (List.append_nil bs).symm
  | bytes data =>
    rcases h with ⟨head, hh, hbs⟩ | ⟨chunks, inner, -, -, rfl⟩
    · exact hhead hh hbs
    · exact ⟨_, _, rfl, by decide, by decide⟩
  | string data =>
    rcases h with ⟨head, hh, hbs⟩ | ⟨chunks, inner, -, -, rfl⟩
    · exact hhead hh hbs
    · exact ⟨_, _, rfl, by decide, by decide⟩
  | array items =>
    rw [Written] at h
    obtain ⟨inner, -, ⟨head, hh, hbs⟩ | rfl⟩ := h
    · exact hhead hh hbs
    · exact ⟨_, _, rfl, by decide, by decide⟩
  | map items =>
    rw [Written] at h
    obtain ⟨inner, -, ⟨head, hh, hbs⟩ | rfl⟩ := h
    · exact hhead hh hbs
    · exact ⟨_, _, rfl, by decide, by decide⟩
  | tag t item =>
    rw [Written] at h
    obtain ⟨head, inner, hh, -, hbs⟩ := h
    exact hhead hh hbs
  | boolean b =>
    rw [Written] at h
    cases b <;> exact hspecial (by decide) h
  | null unused => exact hspecial (by decide) h
  | undefined unused => exact hspecial (by decide) h
  | float16 bits => exact hspecial (by decide) h
  | float32 bits => exact hspecial (by decide) h
  | float64 bits => exact hspecial (by decide) h
  | simple v =>
    rw [Written] at h
    obtain ⟨-, ⟨hv, hbs⟩ | ⟨-, hbs⟩⟩ := h
    · rw [UInt8.lt_iff_toNat_lt] at hv
      exact hspecial (hv.trans (by decide)) hbs
    · exact hspecial (by decide) hbs

end OpenZL.Shared.A1cbor
