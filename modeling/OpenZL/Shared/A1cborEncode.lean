import OpenZL.Shared.A1cborGrammar

/-!
# What the CBOR encoder writes

The encoder writes one document for each item, whatever the write callback does with it.

Principal results: `encodeOne_emits`, `encodedSize_eq`, `encode_eq_ok_iff`, `written_itemBytes`.
-/

namespace OpenZL.Shared.A1cbor

open OpenZL.Lib

/-- A count in the smallest size. -/
def countBytes (count : Nat) : List UInt8 :=
  if shortCountOf count = 24 then toBE 1 count
  else if shortCountOf count = 25 then toBE 2 count
  else if shortCountOf count = 26 then toBE 4 count
  else if shortCountOf count = 27 then toBE 8 count
  else []

/-- A header with a count in the smallest size. -/
def headBytes (type : MajorType) (count : Nat) : List UInt8 :=
  headerMake type (UInt8.ofNat (shortCountOf count)) :: countBytes count

mutual

/-- The document that the encoder writes. -/
def itemBytes : Item → List UInt8
  | .int64 v =>
      if v ≥ 0 then headBytes .uint v.toUInt64.toNat else headBytes .int (~~~v).toUInt64.toNat
  | .bytes data => headBytes .bytes data.length ++ data
  | .string data => headBytes .string data.length ++ data
  | .array items => headBytes .array items.length ++ itemsBytes items
  | .map items => headBytes .map items.length ++ pairsBytes items
  | .tag tag item => headBytes .tag tag.toNat ++ itemBytes item
  | .boolean b => headBytes .special (if b then 21 else 20)
  | .null _ => headBytes .special 22
  | .undefined _ => headBytes .special 23
  | .float16 bits => headerMake .special 25 :: toBE 2 bits.toNat
  | .float32 bits => headerMake .special 26 :: toBE 4 bits.toNat
  | .float64 bits => headerMake .special 27 :: toBE 8 bits.toNat
  | .simple v => headBytes .special v.toNat

/-- The documents of the items of an array. -/
def itemsBytes : List Item → List UInt8
  | [] => []
  | item :: items => itemBytes item ++ itemsBytes items

/-- The documents of the keys and values of a map. -/
def pairsBytes : List (Item × Item) → List UInt8
  | [] => []
  | (key, val) :: items => itemBytes key ++ (itemBytes val ++ pairsBytes items)

end

mutual

/-- An item that can be built: its sizes are sizes, and its simple values are legal. -/
def Item.Valid : Item → Prop
  | .bytes data => data.length < 2 ^ 64
  | .string data => data.length < 2 ^ 64
  | .array items => items.length < 2 ^ 64 ∧ Item.ValidItems items
  | .map items => items.length < 2 ^ 64 ∧ Item.ValidPairs items
  | .tag _ item => item.Valid
  | .simple v => v < 20 ∨ 32 ≤ v
  | _ => True

/-- Items of an array that can be built. -/
def Item.ValidItems : List Item → Prop
  | [] => True
  | item :: items => item.Valid ∧ Item.ValidItems items

/-- Keys and values of a map that can be built. -/
def Item.ValidPairs : List (Item × Item) → Prop
  | [] => True
  | (key, val) :: items => key.Valid ∧ val.Valid ∧ Item.ValidPairs items

end

section Emits

variable {σ : Type}

/-- A write callback that keeps what fits: `target` is its state after some bytes. -/
structure Takes (sink : Sink σ) (target : List UInt8 → σ) (fits : List UInt8 → Prop) : Prop where
  fits_of_append : ∀ {out data : List UInt8}, fits (out ++ data) → fits out
  write_of_fits : ∀ {out data : List UInt8}, fits (out ++ data) →
    sink.write (target out) data = (data.length, target (out ++ data))
  write_of_full : ∀ {out data : List UInt8}, fits out → ¬fits (out ++ data) →
    (sink.write (target out) data).1 < data.length

/-- What is written after some bytes. -/
def encoderAt (target : List UInt8 → σ) (out : List UInt8) : Encoder σ := ⟨target out, out.length⟩

/-- The encoder writes these bytes, or fails where they do not fit. -/
def Emits (target : List UInt8 → σ) (fits : List UInt8 → Prop)
    (f : Encoder σ → Except Error (Encoder σ)) (bs : List UInt8) : Prop :=
  ∀ out, fits out →
    (fits (out ++ bs) → f (encoderAt target out) = .ok (encoderAt target (out ++ bs))) ∧
    (¬fits (out ++ bs) → ∃ e, f (encoderAt target out) = .error e)

variable {sink : Sink σ} {target : List UInt8 → σ} {fits : List UInt8 → Prop} {depth : Nat}
  {f g : Encoder σ → Except Error (Encoder σ)} {bs cs : List UInt8}

theorem Emits.ok : Emits target fits (fun e => .ok e) [] := by
  intro out hout
  rw [List.append_nil]
  exact ⟨fun _ => rfl, fun hnot => absurd hout hnot⟩

theorem Emits.bind (hsink : Takes sink target fits) (hf : Emits target fits f bs)
    (hg : Emits target fits g cs) : Emits target fits (fun e => f e >>= g) (bs ++ cs) := by
  intro out hout
  rw [← List.append_assoc]
  by_cases hfits : fits (out ++ bs)
  · simp only [(hf out hout).1 hfits, ok_bind]
    exact hg (out ++ bs) hfits
  · obtain ⟨e, he⟩ := (hf out hout).2 hfits
    refine ⟨fun hall => absurd (hsink.fits_of_append hall) hfits, fun _ => ⟨e, ?_⟩⟩
    simp only [he]
    rfl

theorem Emits.congr (hg : Emits target fits g bs) (h : ∀ e, f e = g e) :
    Emits target fits f bs := by
  obtain rfl : f = g := funext h
  exact hg

section

variable (hsink : Takes sink target fits)

include hsink

theorem write_emits (data : List UInt8) :
    Emits target fits (write sink depth data) data := by
  intro out hout
  by_cases hnil : data.length = 0
  · rw [List.length_eq_zero_iff.1 hnil, List.append_nil]
    exact ⟨fun _ => rfl, fun hnot => absurd hout hnot⟩
  · refine ⟨fun hfits => ?_, fun hfull => ?_⟩
    · rw [write, if_neg hnil]
      simp only [encoderAt, hsink.write_of_fits hfits, lt_irrefl, if_false, List.length_append]
    · rw [write, if_neg hnil]
      exact ⟨_, if_pos (hsink.write_of_full hout hfull)⟩

theorem encodeHeaderAndCount_emits (type : MajorType) (count : Nat) :
    Emits target fits (encodeHeaderAndCount sink depth type count) (headBytes type count) := by
  have hcount : Emits target fits
      (fun e =>
        if shortCountOf count = 24 then write sink depth (toBE 1 count) e
        else if shortCountOf count = 25 then write sink depth (toBE 2 count) e
        else if shortCountOf count = 26 then write sink depth (toBE 4 count) e
        else if shortCountOf count = 27 then write sink depth (toBE 8 count) e
        else .ok e) (countBytes count) := by
    rw [countBytes]
    split_ifs
    · exact write_emits hsink _
    · exact write_emits hsink _
    · exact write_emits hsink _
    · exact write_emits hsink _
    · exact Emits.ok
  exact Emits.bind hsink (write_emits hsink [_]) hcount

theorem encodeInt_emits (v : Int64) :
    Emits target fits (encodeInt sink depth v) (itemBytes (.int64 v)) := by
  rw [itemBytes]
  intro out hout
  rw [encodeInt]
  split
  · exact encodeHeaderAndCount_emits hsink _ _ out hout
  · exact encodeHeaderAndCount_emits hsink _ _ out hout

theorem encodeData_emits (type : MajorType) (data : List UInt8) :
    Emits target fits (encodeData sink depth type data) (headBytes type data.length ++ data) :=
  Emits.bind hsink (encodeHeaderAndCount_emits hsink _ _) (write_emits hsink _)

theorem encodeFloat_emits (shortCount : UInt8) (k bits : Nat) :
    Emits target fits (encodeFloat sink depth shortCount k bits)
      (headerMake .special shortCount :: toBE k bits) :=
  Emits.bind hsink (write_emits hsink [_]) (write_emits hsink _)

theorem encodeSimple_emits {v : UInt8} (hv : v < 20 ∨ 32 ≤ v) :
    Emits target fits (encodeSimple sink depth v) (headBytes .special v.toNat) := by
  intro out hout
  rw [encodeSimple, if_neg]
  · exact encodeHeaderAndCount_emits hsink _ _ out hout
  · rintro ⟨hge, hlt⟩
    rw [ge_iff_le, UInt8.le_iff_toNat_le] at hge
    rw [UInt8.lt_iff_toNat_lt] at hlt
    rcases hv with hv | hv
    · rw [UInt8.lt_iff_toNat_lt] at hv
      exact absurd hge (Nat.not_le.2 hv)
    · rw [UInt8.le_iff_toNat_le] at hv
      exact absurd hlt (Nat.not_lt.2 hv)

end

mutual

/-- **The encoder** writes the document of an item. -/
theorem encodeOne_emits (hsink : Takes sink target fits) (depth : Nat) : ∀ {item : Item},
    item.Valid → Emits target fits (encodeOne sink depth item) (itemBytes item)
  | .int64 v, _ => (encodeInt_emits hsink v).congr fun e => by rw [encodeOne]
  | .bytes data, _ => by
      rw [itemBytes]
      exact (encodeData_emits hsink _ _).congr fun e => by rw [encodeOne]
  | .string data, _ => by
      rw [itemBytes]
      exact (encodeData_emits hsink _ _).congr fun e => by rw [encodeOne]
  | .array items, h => by
      rw [Item.Valid] at h
      rw [itemBytes]
      exact (Emits.bind hsink (encodeHeaderAndCount_emits hsink _ _)
        (encodeItems_emits hsink (depth + 1) h.2)).congr fun e => by rw [encodeOne]
  | .map items, h => by
      rw [Item.Valid] at h
      rw [itemBytes]
      exact (Emits.bind hsink (encodeHeaderAndCount_emits hsink _ _)
        (encodePairs_emits hsink (depth + 1) h.2)).congr fun e => by rw [encodeOne]
  | .tag tag item, h => by
      rw [Item.Valid] at h
      rw [itemBytes]
      exact (Emits.bind hsink (encodeHeaderAndCount_emits hsink _ _)
        (encodeOne_emits hsink (depth + 1) h)).congr fun e => by rw [encodeOne]
  | .boolean b, _ => by
      rw [itemBytes]
      exact (encodeHeaderAndCount_emits hsink _ _).congr fun e => by rw [encodeOne]
  | .null _, _ => by
      rw [itemBytes]
      exact (encodeHeaderAndCount_emits hsink _ _).congr fun e => by rw [encodeOne]
  | .undefined _, _ => by
      rw [itemBytes]
      exact (encodeHeaderAndCount_emits hsink _ _).congr fun e => by rw [encodeOne]
  | .float16 bits, _ => by
      rw [itemBytes]
      exact (encodeFloat_emits hsink _ _ _).congr fun e => by rw [encodeOne]
  | .float32 bits, _ => by
      rw [itemBytes]
      exact (encodeFloat_emits hsink _ _ _).congr fun e => by rw [encodeOne]
  | .float64 bits, _ => by
      rw [itemBytes]
      exact (encodeFloat_emits hsink _ _ _).congr fun e => by rw [encodeOne]
  | .simple v, h => by
      rw [Item.Valid] at h
      rw [itemBytes]
      exact (encodeSimple_emits hsink h).congr fun e => by rw [encodeOne]

theorem encodeItems_emits (hsink : Takes sink target fits) (depth : Nat) : ∀ {items : List Item},
    Item.ValidItems items → Emits target fits (encodeItems sink depth items) (itemsBytes items)
  | [], _ => by
      rw [itemsBytes]
      exact Emits.ok.congr fun e => by rw [encodeItems]
  | item :: items, h => by
      rw [Item.ValidItems] at h
      rw [itemsBytes]
      exact (Emits.bind hsink (encodeOne_emits hsink depth h.1)
        (encodeItems_emits hsink depth h.2)).congr fun e => by rw [encodeItems]

theorem encodePairs_emits (hsink : Takes sink target fits) (depth : Nat) :
    ∀ {items : List (Item × Item)}, Item.ValidPairs items →
      Emits target fits (encodePairs sink depth items) (pairsBytes items)
  | [], _ => by
      rw [pairsBytes]
      exact Emits.ok.congr fun e => by rw [encodePairs]
  | (key, val) :: items, h => by
      rw [Item.ValidPairs] at h
      rw [pairsBytes]
      exact (Emits.bind hsink (encodeOne_emits hsink depth h.1)
        (Emits.bind hsink (encodeOne_emits hsink depth h.2.1)
          (encodePairs_emits hsink depth h.2.2))).congr fun e => by rw [encodePairs]

end

end Emits

theorem noopWrite_takes : Takes noopWrite (fun _ => ()) fun _ => True where
  fits_of_append _ := trivial
  write_of_fits _ := rfl
  write_of_full _ hfull := absurd trivial hfull

/-- A buffer with its first bytes written. -/
def bufferAt (dstCapacity : Nat) (out : List UInt8) : EncodeBuffer :=
  ⟨out, dstCapacity - out.length⟩

theorem bufferWrite_takes (dstCapacity : Nat) :
    Takes bufferWrite (bufferAt dstCapacity) fun out => out.length ≤ dstCapacity where
  fits_of_append h := by
    rw [List.length_append] at h
    omega
  write_of_fits {out data} h := by
    rw [List.length_append] at h
    simp only [bufferWrite, bufferAt]
    rw [if_neg (by omega), List.take_length, List.length_append, Nat.sub_sub]
  write_of_full {out data} hout hfull := by
    rw [List.length_append] at hfull
    simp only [bufferWrite, bufferAt]
    rw [if_pos (by omega)]
    omega

/-- **The size** is that of the document. -/
theorem encodedSize_eq {item : Item} (h : item.Valid) :
    encodedSize item = (itemBytes item).length := by
  have hone : encodeOne noopWrite 0 item ⟨(), 0⟩ = _ :=
    (encodeOne_emits noopWrite_takes 0 h [] trivial).1 trivial
  rw [encodedSize, hone]
  rfl

/-- **The encoder** writes the document where it fits, and fails elsewhere. -/
theorem encode_eq_ok_iff {item : Item} (h : item.Valid) (dstCapacity : Nat) (bs : List UInt8) :
    encode item dstCapacity = .ok bs ↔
      (itemBytes item).length ≤ dstCapacity ∧ bs = itemBytes item := by
  have hemits := encodeOne_emits (bufferWrite_takes dstCapacity) 0 h [] (Nat.zero_le dstCapacity)
  have hstart : encoderAt (bufferAt dstCapacity) [] = ⟨⟨[], dstCapacity⟩, 0⟩ := rfl
  rw [hstart, List.nil_append] at hemits
  rw [encode]
  by_cases hfits : (itemBytes item).length ≤ dstCapacity
  · rw [hemits.1 hfits, ok_bind]
    exact ⟨fun hok => ⟨hfits, (Except.ok.inj hok).symm⟩, fun hok => congrArg Except.ok hok.2.symm⟩
  · obtain ⟨e, he⟩ := hemits.2 hfits
    rw [he]
    exact iff_of_false (fun hok => nomatch hok) fun hok => hfits hok.1

theorem head_headBytes (type : MajorType) {count : Nat} (h : count < 2 ^ 64) :
    Head type count (headBytes type count) := by
  by_cases h24 : count < 24
  · refine Or.inl ⟨h24, ?_⟩
    have hshort : shortCountOf count = count := if_pos h24
    rw [headBytes, countBytes, hshort, if_neg (by omega), if_neg (by omega), if_neg (by omega),
      if_neg (by omega)]
  · refine Or.inr ?_
    by_cases h8 : count ≤ 0xFF
    · have hshort : shortCountOf count = 24 := by rw [shortCountOf, if_neg h24, if_pos h8]
      refine ⟨(24, 1), by decide, h8.trans_lt (by decide), ?_⟩
      rw [headBytes, countBytes, hshort]
      rfl
    · by_cases h16 : count ≤ 0xFFFF
      · have hshort : shortCountOf count = 25 := by
          rw [shortCountOf, if_neg h24, if_neg h8, if_pos h16]
        refine ⟨(25, 2), by decide, h16.trans_lt (by decide), ?_⟩
        rw [headBytes, countBytes, hshort]
        rfl
      · by_cases h32 : count ≤ 0xFFFFFFFF
        · have hshort : shortCountOf count = 26 := by
            rw [shortCountOf, if_neg h24, if_neg h8, if_neg h16, if_pos h32]
          refine ⟨(26, 4), by decide, h32.trans_lt (by decide), ?_⟩
          rw [headBytes, countBytes, hshort]
          rfl
        · have hshort : shortCountOf count = 27 := by
            rw [shortCountOf, if_neg h24, if_neg h8, if_neg h16, if_neg h32]
          refine ⟨(27, 8), by decide, h.trans_eq (by decide), ?_⟩
          rw [headBytes, countBytes, hshort]
          rfl

theorem headBytes_simple {v : UInt8} (hv : v < 20 ∨ 32 ≤ v) :
    v < 20 ∧ headBytes .special v.toNat = [headerMake .special v] ∨
      32 ≤ v ∧ headBytes .special v.toNat = [headerMake .special 24, v] := by
  rcases hv with hv | hv
  · refine Or.inl ⟨hv, ?_⟩
    rw [UInt8.lt_iff_toNat_lt] at hv
    have hlt : v.toNat < 20 := hv
    rcases head_headBytes .special (by omega : v.toNat < 2 ^ 64) with ⟨-, h⟩ | ⟨size, -, -, h⟩
    · rw [h, UInt8.ofNat_toNat]
    · have hshort : shortCountOf v.toNat = v.toNat := if_pos (by omega)
      rw [headBytes, countBytes, hshort, if_neg (by omega), if_neg (by omega), if_neg (by omega),
        if_neg (by omega), UInt8.ofNat_toNat]
  · refine Or.inr ⟨hv, ?_⟩
    rw [UInt8.le_iff_toNat_le] at hv
    have hge : 32 ≤ v.toNat := hv
    have hlt := v.toNat_lt
    have hshort : shortCountOf v.toNat = 24 := by
      rw [shortCountOf, if_neg (by omega), if_pos (by omega)]
    have hone : toBE 1 v.toNat = [v] := by
      show [UInt8.ofNat v.toNat] = [v]
      rw [UInt8.ofNat_toNat]
    rw [headBytes, countBytes, hshort, if_pos rfl, hone]
    rfl

mutual

/-- **What is written** is a document for the item. -/
theorem written_itemBytes : ∀ {item : Item}, item.Valid → Written true item (itemBytes item)
  | .int64 v, _ => by
      rw [Written, itemBytes]
      split
      · exact head_headBytes _ (UInt64.toNat_lt _)
      · exact head_headBytes _ (UInt64.toNat_lt _)
  | .bytes data, h => by
      rw [Item.Valid] at h
      rw [Written, itemBytes]
      exact Or.inl ⟨_, head_headBytes _ h, rfl⟩
  | .string data, h => by
      rw [Item.Valid] at h
      rw [Written, itemBytes]
      exact Or.inl ⟨_, head_headBytes _ h, rfl⟩
  | .array items, h => by
      rw [Item.Valid] at h
      rw [Written, itemBytes]
      exact ⟨_, written_itemsBytes h.2, Or.inl ⟨_, head_headBytes _ h.1, rfl⟩⟩
  | .map items, h => by
      rw [Item.Valid] at h
      rw [Written, itemBytes]
      exact ⟨_, written_pairsBytes h.2, Or.inl ⟨_, head_headBytes _ h.1, rfl⟩⟩
  | .tag tag item, h => by
      rw [Item.Valid] at h
      rw [Written, itemBytes]
      exact ⟨_, _, head_headBytes _ tag.toNat_lt, written_itemBytes h, rfl⟩
  | .boolean b, _ => by
      rw [Written, itemBytes]
      cases b <;> rfl
  | .null _, _ => by
      rw [Written, itemBytes]
      rfl
  | .undefined _, _ => by
      rw [Written, itemBytes]
      rfl
  | .float16 bits, _ => by rw [Written, itemBytes]
  | .float32 bits, _ => by rw [Written, itemBytes]
  | .float64 bits, _ => by rw [Written, itemBytes]
  | .simple v, h => by
      rw [Item.Valid] at h
      rw [Written, itemBytes]
      exact ⟨rfl, headBytes_simple h⟩

theorem written_itemsBytes : ∀ {items : List Item}, Item.ValidItems items →
    WrittenItems true items (itemsBytes items)
  | [], _ => by rw [WrittenItems, itemsBytes]
  | item :: items, h => by
      rw [Item.ValidItems] at h
      rw [WrittenItems, itemsBytes]
      exact ⟨_, _, written_itemBytes h.1, written_itemsBytes h.2, rfl⟩

theorem written_pairsBytes : ∀ {items : List (Item × Item)}, Item.ValidPairs items →
    WrittenPairs true items (pairsBytes items)
  | [], _ => by rw [WrittenPairs, pairsBytes]
  | (key, val) :: items, h => by
      rw [Item.ValidPairs] at h
      rw [WrittenPairs, pairsBytes]
      exact ⟨_, _, _, written_itemBytes h.1, written_itemBytes h.2.1, written_pairsBytes h.2.2, rfl⟩

end

end OpenZL.Shared.A1cbor
