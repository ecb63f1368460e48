import OpenZL.Shared.A1cborEncode
import OpenZL.Shared.A1cborSound

/-!
# CBOR there and back

What is written for an item is read as its value.  `A1C_Item_eq` finds the two equal unless a null
or an undefined item has something in the byte that it does not use: the decoder leaves zero there,
and `A1C_Item_eq` compares it.

Principal result: `faithful_iff`.
-/

namespace OpenZL.Shared.A1cbor

mutual

theorem Item.value_eq_self_iff : ∀ item : Item,
    item.value = item ↔ ∀ unused ∈ item.leftovers, unused = 0
  | .null unused => by
      rw [Item.value, Item.leftovers, List.forall_mem_singleton, Item.null.injEq, eq_comm]
  | .undefined unused => by
      rw [Item.value, Item.leftovers, List.forall_mem_singleton, Item.undefined.injEq, eq_comm]
  | .array items => by
      rw [Item.value, Item.leftovers, Item.array.injEq]
      exact Item.valueItems_eq_self_iff items
  | .map items => by
      rw [Item.value, Item.leftovers, Item.map.injEq]
      exact Item.valuePairs_eq_self_iff items
  | .tag t item => by
      rw [Item.value, Item.leftovers, Item.tag.injEq, eq_self_iff_true, true_and]
      exact Item.value_eq_self_iff item
  | .int64 _ => by simp [Item.value, Item.leftovers]
  | .bytes _ => by simp [Item.value, Item.leftovers]
  | .string _ => by simp [Item.value, Item.leftovers]
  | .boolean _ => by simp [Item.value, Item.leftovers]
  | .float16 _ => by simp [Item.value, Item.leftovers]
  | .float32 _ => by simp [Item.value, Item.leftovers]
  | .float64 _ => by simp [Item.value, Item.leftovers]
  | .simple _ => by simp [Item.value, Item.leftovers]

theorem Item.valueItems_eq_self_iff : ∀ items : List Item,
    Item.valueItems items = items ↔ ∀ unused ∈ Item.leftoversItems items, unused = 0
  | [] => by simp [Item.valueItems, Item.leftoversItems]
  | item :: items => by
      rw [Item.valueItems, Item.leftoversItems, List.forall_mem_append, List.cons.injEq,
        Item.value_eq_self_iff item, Item.valueItems_eq_self_iff items]

theorem Item.valuePairs_eq_self_iff : ∀ items : List (Item × Item),
    Item.valuePairs items = items ↔ ∀ unused ∈ Item.leftoversPairs items, unused = 0
  | [] => by simp [Item.valuePairs, Item.leftoversPairs]
  | (key, val) :: items => by
      rw [Item.valuePairs, Item.leftoversPairs, List.forall_mem_append, List.forall_mem_append,
        List.cons.injEq, Prod.mk.injEq, Item.value_eq_self_iff key, Item.value_eq_self_iff val,
        Item.valuePairs_eq_self_iff items, and_assoc]

end

mutual

/-- There are no simple values in the item. -/
def Item.SimpleFree : Item → Prop
  | .simple _ => False
  | .array items => Item.SimpleFreeItems items
  | .map items => Item.SimpleFreePairs items
  | .tag _ item => item.SimpleFree
  | _ => True

/-- There are no simple values in the items of an array. -/
def Item.SimpleFreeItems : List Item → Prop
  | [] => True
  | item :: items => item.SimpleFree ∧ Item.SimpleFreeItems items

/-- There are no simple values in the keys and values of a map. -/
def Item.SimpleFreePairs : List (Item × Item) → Prop
  | [] => True
  | (key, val) :: items => key.SimpleFree ∧ val.SimpleFree ∧ Item.SimpleFreePairs items

end

mutual

theorem Written.of_simpleFree {s t : Bool} : ∀ {item : Item} {bs : List UInt8},
    item.SimpleFree → Written s item bs → Written t item bs
  | .simple _, _, hfree, _ => by
      rw [Item.SimpleFree] at hfree
      exact hfree.elim
  | .array items, _, hfree, h => by
      rw [Item.SimpleFree] at hfree
      rw [Written] at h ⊢
      obtain ⟨inner, hinner, hbs⟩ := h
      exact ⟨inner, WrittenItems.of_simpleFree hfree hinner, hbs⟩
  | .map items, _, hfree, h => by
      rw [Item.SimpleFree] at hfree
      rw [Written] at h ⊢
      obtain ⟨inner, hinner, hbs⟩ := h
      exact ⟨inner, WrittenPairs.of_simpleFree hfree hinner, hbs⟩
  | .tag _ item, _, hfree, h => by
      rw [Item.SimpleFree] at hfree
      rw [Written] at h ⊢
      obtain ⟨head, inner, hhead, hinner, hbs⟩ := h
      exact ⟨head, inner, hhead, Written.of_simpleFree hfree hinner, hbs⟩
  | .int64 _, _, _, h => by rwa [Written] at h ⊢
  | .bytes _, _, _, h => by rwa [Written] at h ⊢
  | .string _, _, _, h => by rwa [Written] at h ⊢
  | .boolean _, _, _, h => by rwa [Written] at h ⊢
  | .null _, _, _, h => by rwa [Written] at h ⊢
  | .undefined _, _, _, h => by rwa [Written] at h ⊢
  | .float16 _, _, _, h => by rwa [Written] at h ⊢
  | .float32 _, _, _, h => by rwa [Written] at h ⊢
  | .float64 _, _, _, h => by rwa [Written] at h ⊢

theorem WrittenItems.of_simpleFree {s t : Bool} : ∀ {items : List Item} {bs : List UInt8},
    Item.SimpleFreeItems items → WrittenItems s items bs → WrittenItems t items bs
  | [], _, _, h => by rwa [WrittenItems] at h ⊢
  | item :: items, _, hfree, h => by
      rw [Item.SimpleFreeItems] at hfree
      rw [WrittenItems] at h ⊢
      obtain ⟨first, rest, hfirst, hrest, hbs⟩ := h
      exact ⟨first, rest, Written.of_simpleFree hfree.1 hfirst,
        WrittenItems.of_simpleFree hfree.2 hrest, hbs⟩

theorem WrittenPairs.of_simpleFree {s t : Bool} : ∀ {items : List (Item × Item)} {bs : List UInt8},
    Item.SimpleFreePairs items → WrittenPairs s items bs → WrittenPairs t items bs
  | [], _, _, h => by rwa [WrittenPairs] at h ⊢
  | (key, val) :: items, _, hfree, h => by
      rw [Item.SimpleFreePairs] at hfree
      rw [WrittenPairs] at h ⊢
      obtain ⟨first, second, rest, hfirst, hsecond, hrest, hbs⟩ := h
      exact ⟨first, second, rest, Written.of_simpleFree hfree.1 hfirst,
        Written.of_simpleFree hfree.2.1 hsecond, WrittenPairs.of_simpleFree hfree.2.2 hrest, hbs⟩

end

/-- A tree that the decoder has room for: it can be built, it has no more levels and no other values
than the decoder takes, and its document fits in memory. -/
structure Item.Supported (config : DecoderConfig) (item : Item) : Prop where
  valid : item.Valid
  depth_le : item.depth ≤ config.levels
  simpleFree : config.rejectUnknownSimple = true → item.SimpleFree
  size_lt : encodedSize item < 2 ^ 64

/-- What the coders and the comparison promise of a tree, and of it beside another. -/
structure Faithful (config : DecoderConfig) (item other : Item) : Prop where
  /-- The announced size is that of what is written, and room enough. -/
  size : ∀ dstCapacity < 2 ^ 64, (∀ bs, encode item dstCapacity = .ok bs →
    bs.length = encodedSize item) ∧
      (encodedSize item ≤ dstCapacity → ∃ bs, encode item dstCapacity = .ok bs)
  /-- What is written is decoded to an equal tree. -/
  roundTrip : ∀ dstCapacity < 2 ^ 64, ∀ bs, encode item dstCapacity = .ok bs →
    ∃ copy, decode config bs = .ok copy ∧ Item.eq item copy = true
  /-- Every other document of the tree, with indefinite lengths or not, is decoded alike. -/
  documents : ∀ dstCapacity < 2 ^ 64, ∀ bs, encode item dstCapacity = .ok bs →
    ∀ doc : List UInt8, doc.length < 2 ^ 64 → Written (!config.rejectUnknownSimple) item doc →
      decode config doc = decode config bs
  /-- Equality is an equivalence. -/
  eq_equivalence : Equivalence fun a b => Item.eq a b = true
  /-- Trees are equal when they have the same structure and values. -/
  eq_iff : Item.eq item other = true ↔ item.value = other.value
  /-- The decoder stops within the source, with an item or an error. -/
  stops : ∀ src : List UInt8, (∃ copy, decode config src = .ok copy) ∨
    ∃ e, decode config src = .error (.error e)
  /-- What is behind a document is refused. -/
  trailing : ∀ src extra : List UInt8, (src ++ extra).length < 2 ^ 64 → extra ≠ [] →
    ∀ copy, decode config src = .ok copy →
      decode config (src ++ extra) = .error (.error ⟨.trailingData, src.length, 0⟩)

section RoundTrip

variable {config : DecoderConfig} {item : Item}

theorem Item.Supported.written (h : item.Supported config) :
    Written (!config.rejectUnknownSimple) item (itemBytes item) := by
  have hwritten := written_itemBytes h.valid
  cases hreject : config.rejectUnknownSimple with
  | false => exact hwritten
  | true => exact hwritten.of_simpleFree (h.simpleFree hreject)

theorem decode_itemBytes (h : item.Supported config) :
    decode config (itemBytes item) = .ok item.value := by
  have hsize := h.size_lt
  rw [encodedSize_eq h.valid] at hsize
  exact decode_written hsize h.written h.depth_le

/-- **CBOR there and back**: the promise holds where the unused bytes of the tree are zero, and
those of the other one are if it has the same value. -/
theorem faithful_iff (config : DecoderConfig) (item other : Item) (h : item.Supported config) :
    Faithful config item other ↔ (∀ unused ∈ item.leftovers, unused = 0) ∧
      (item.value = other.value → item.leftovers = other.leftovers) := by
  have hvalid := h.valid
  have hsize := encodedSize_eq hvalid
  have hback := decode_itemBytes h
  rw [← Item.value_eq_self_iff]
  constructor
  · intro hfaithful
    refine ⟨?_, fun hvalue =>
      ((Item.eq_value_iff item other).1 (hfaithful.eq_iff.2 hvalue)).2⟩
    have hfits := (encode_eq_ok_iff hvalid (encodedSize item) (itemBytes item)).2
      ⟨hsize.symm.le, rfl⟩
    obtain ⟨copy, hcopy, heq⟩ := hfaithful.roundTrip _ h.size_lt _ hfits
    rw [hback] at hcopy
    rw [← Except.ok.inj hcopy, Item.eq_iff] at heq
    exact heq.symm
  · rintro ⟨hclean, hother⟩
    exact
      { size := fun dstCapacity _ => by
          refine ⟨fun bs hok => ?_, fun hroom => ?_⟩
          · rw [((encode_eq_ok_iff hvalid _ _).1 hok).2, hsize]
          · exact ⟨itemBytes item, (encode_eq_ok_iff hvalid _ _).2 ⟨hsize ▸ hroom, rfl⟩⟩
        roundTrip := fun dstCapacity _ bs hok => by
          rw [((encode_eq_ok_iff hvalid _ _).1 hok).2]
          exact ⟨item.value, hback, (Item.eq_iff _ _).2 hclean.symm⟩
        documents := fun dstCapacity _ bs hok doc hdoc hwritten => by
          rw [((encode_eq_ok_iff hvalid _ _).1 hok).2, hback,
            decode_written hdoc hwritten h.depth_le]
        eq_equivalence := Item.eq_equivalence
        eq_iff := by
          rw [Item.eq_value_iff]
          exact ⟨And.left, fun hvalue => ⟨hvalue, hother hvalue⟩⟩
        stops := decode_stops config
        trailing := fun src extra hsrc hextra copy hcopy => decode_append hsrc hcopy hextra }

/-- An array of a number and a null, beside an undefined item. -/
theorem faithful_iff_array :
    Item.Supported ⟨0, false, true⟩ (.array [.int64 (-5), .null 0]) ∧
      Faithful ⟨0, false, true⟩ (.array [.int64 (-5), .null 0]) (.undefined 3) := by
  have h : Item.Supported ⟨0, false, true⟩ (.array [.int64 (-5), .null 0]) :=
    { valid := by simp [Item.Valid, Item.ValidItems]
      depth_le := by decide
      simpleFree := fun _ => by simp [Item.SimpleFree, Item.SimpleFreeItems]
      size_lt := by decide }
  refine ⟨h, (faithful_iff _ _ _ h).2 ⟨by simp [Item.leftovers, Item.leftoversItems], fun hvalue => ?_⟩⟩
  simp [Item.value] at hvalue

/-- A null that was a number before is not equal to what is read back. -/
theorem null_not_equal_to_copy :
    ¬Faithful ⟨0, false, false⟩ (.null 5) (.null 0) ∧
      encode (.null 5) 1 = .ok [0xF6] ∧ decode ⟨0, false, false⟩ [0xF6] = .ok (.null 0) ∧
      Item.eq (.null 5) (.null 0) = false := by
  have hencode : encode (.null 5) 1 = .ok [0xF6] := rfl
  have hdecode : decode ⟨0, false, false⟩ [0xF6] = .ok (.null 0) := rfl
  refine ⟨fun hfaithful => ?_, hencode, hdecode, rfl⟩
  obtain ⟨copy, hcopy, heq⟩ := hfaithful.roundTrip 1 (by decide) _ hencode
  rw [hdecode] at hcopy
  obtain rfl := Except.ok.inj hcopy
  exact absurd heq (by decide)

end RoundTrip

end OpenZL.Shared.A1cbor
