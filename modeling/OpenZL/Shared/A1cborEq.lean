import OpenZL.Shared.A1cbor

/-!
# Equality of CBOR items

`A1C_Item_eq` compares all that an item holds, the byte of the union that a null or an undefined
item does not use included.

Principal results: `Item.eq_iff`, `Item.eq_value_iff`.
-/

namespace OpenZL.Shared.A1cbor

theorem dataEq_iff (a b : List UInt8) : dataEq a b = true ↔ a = b := by
  rw [dataEq]
  split
  · rename_i hlen
    exact iff_of_false Bool.false_ne_true fun h => hlen (congrArg List.length h)
  · rename_i hlen
    split
    · rename_i hnil
      rw [not_not, hnil] at hlen
      rw [List.length_eq_zero_iff.1 hnil, List.length_eq_zero_iff.1 hlen.symm]
      exact iff_of_true rfl rfl
    · exact decide_eq_true_iff

mutual

/-- **Equal items are the same.** -/
theorem Item.eq_iff : ∀ a b : Item, Item.eq a b = true ↔ a = b
  | .array a, b => by
      cases b with
      | array b =>
        rw [Item.eq, Item.array.injEq]
        split
        · rename_i hlen
          exact iff_of_false Bool.false_ne_true fun h => hlen (congrArg List.length h)
        · rename_i hlen
          exact Item.eqItems_iff a b (not_not.1 hlen)
      | _ => simp [Item.eq]
  | .map a, b => by
      cases b with
      | map b =>
        rw [Item.eq, Item.map.injEq]
        split
        · rename_i hlen
          exact iff_of_false Bool.false_ne_true fun h => hlen (congrArg List.length h)
        · rename_i hlen
          exact Item.eqPairs_iff a b (not_not.1 hlen)
      | _ => simp [Item.eq]
  | .tag t a, b => by
      cases b with
      | tag u b =>
        rw [Item.eq, Bool.and_eq_true, beq_iff_eq, Item.eq_iff a b, Item.tag.injEq]
      | _ => simp [Item.eq]
  | .bytes a, b => by cases b <;> simp [Item.eq, dataEq_iff]
  | .string a, b => by cases b <;> simp [Item.eq, dataEq_iff]
  | .undefined a, b => by cases b <;> simp [Item.eq]
  | .int64 a, b => by cases b <;> simp [Item.eq]
  | .boolean a, b => by cases b <;> simp [Item.eq]
  | .null a, b => by cases b <;> simp [Item.eq]
  | .float16 a, b => by cases b <;> simp [Item.eq]
  | .float32 a, b => by cases b <;> simp [Item.eq]
  | .float64 a, b => by cases b <;> simp [Item.eq]
  | .simple a, b => by cases b <;> simp [Item.eq]

theorem Item.eqItems_iff : ∀ as bs : List Item, as.length = bs.length →
    (Item.eqItems as bs = true ↔ as = bs)
  | [], [], _ => by simp [Item.eqItems]
  | a :: as, b :: bs, h => by
      have hrest := Item.eqItems_iff as bs (Nat.succ.inj h)
      have hfirst := Item.eq_iff a b
      rw [Item.eqItems, List.cons.injEq, ← hfirst, ← hrest]
      cases Item.eq a b <;> simp

theorem Item.eqPairs_iff : ∀ as bs : List (Item × Item), as.length = bs.length →
    (Item.eqPairs as bs = true ↔ as = bs)
  | [], [], _ => by simp [Item.eqPairs]
  | (k, v) :: as, (k', v') :: bs, h => by
      have hrest := Item.eqPairs_iff as bs (Nat.succ.inj h)
      have hkey := Item.eq_iff k k'
      have hval := Item.eq_iff v v'
      rw [Item.eqPairs, List.cons.injEq, Prod.mk.injEq, ← hkey, ← hval, ← hrest]
      cases Item.eq k k' <;> cases Item.eq v v' <;> simp

end

theorem Item.eq_equivalence : Equivalence fun a b => Item.eq a b = true where
  refl a := (Item.eq_iff a a).2 rfl
  symm h := (Item.eq_iff _ _).2 ((Item.eq_iff _ _).1 h).symm
  trans h h' := (Item.eq_iff _ _).2 (((Item.eq_iff _ _).1 h).trans ((Item.eq_iff _ _).1 h'))

mutual

/-- An item with zero in the bytes of the unions that nulls and undefined items do not use. -/
def Item.value : Item → Item
  | .null _ => .null 0
  | .undefined _ => .undefined 0
  | .array items => .array (Item.valueItems items)
  | .map items => .map (Item.valuePairs items)
  | .tag t item => .tag t item.value
  | .int64 v => .int64 v
  | .bytes data => .bytes data
  | .string data => .string data
  | .boolean b => .boolean b
  | .float16 bits => .float16 bits
  | .float32 bits => .float32 bits
  | .float64 bits => .float64 bits
  | .simple v => .simple v

/-- The values of the items of an array. -/
def Item.valueItems : List Item → List Item
  | [] => []
  | item :: items => item.value :: Item.valueItems items

/-- The values of the items of a map. -/
def Item.valuePairs : List (Item × Item) → List (Item × Item)
  | [] => []
  | (key, val) :: items => (key.value, val.value) :: Item.valuePairs items

end

mutual

/-- The bytes that nulls and undefined items do not use, in order. -/
def Item.leftovers : Item → List UInt8
  | .null unused => [unused]
  | .undefined unused => [unused]
  | .array items => Item.leftoversItems items
  | .map items => Item.leftoversPairs items
  | .tag _ item => item.leftovers
  | _ => []

/-- The unused bytes of the items of an array. -/
def Item.leftoversItems : List Item → List UInt8
  | [] => []
  | item :: items => item.leftovers ++ Item.leftoversItems items

/-- The unused bytes of the items of a map. -/
def Item.leftoversPairs : List (Item × Item) → List UInt8
  | [] => []
  | (key, val) :: items => key.leftovers ++ (val.leftovers ++ Item.leftoversPairs items)

end

mutual

theorem Item.split_value : ∀ a b : Item, a.value = b.value →
    a.leftovers.length = b.leftovers.length ∧ (a.leftovers = b.leftovers → a = b)
  | .array a, b, h => by
      cases b with
      | array b =>
        rw [Item.value, Item.value, Item.array.injEq] at h
        obtain ⟨hlen, hsame⟩ := Item.split_valueItems a b h
        exact ⟨hlen, fun hleft => congrArg Item.array (hsame hleft)⟩
      | _ => simp [Item.value] at h
  | .map a, b, h => by
      cases b with
      | map b =>
        rw [Item.value, Item.value, Item.map.injEq] at h
        obtain ⟨hlen, hsame⟩ := Item.split_valuePairs a b h
        exact ⟨hlen, fun hleft => congrArg Item.map (hsame hleft)⟩
      | _ => simp [Item.value] at h
  | .tag t a, b, h => by
      cases b with
      | tag u b =>
        rw [Item.value, Item.value, Item.tag.injEq] at h
        obtain ⟨hlen, hsame⟩ := Item.split_value a b h.2
        exact ⟨hlen, fun hleft => by rw [h.1, hsame hleft]⟩
      | _ => simp [Item.value] at h
  | .null a, b, h => by cases b <;> simp_all [Item.value, Item.leftovers]
  | .undefined a, b, h => by cases b <;> simp_all [Item.value, Item.leftovers]
  | .bytes a, b, h => by cases b <;> simp_all [Item.value, Item.leftovers]
  | .string a, b, h => by cases b <;> simp_all [Item.value, Item.leftovers]
  | .int64 a, b, h => by cases b <;> simp_all [Item.value, Item.leftovers]
  | .boolean a, b, h => by cases b <;> simp_all [Item.value, Item.leftovers]
  | .float16 a, b, h => by cases b <;> simp_all [Item.value, Item.leftovers]
  | .float32 a, b, h => by cases b <;> simp_all [Item.value, Item.leftovers]
  | .float64 a, b, h => by cases b <;> simp_all [Item.value, Item.leftovers]
  | .simple a, b, h => by cases b <;> simp_all [Item.value, Item.leftovers]

theorem Item.split_valueItems : ∀ as bs : List Item,
    Item.valueItems as = Item.valueItems bs →
      (Item.leftoversItems as).length = (Item.leftoversItems bs).length ∧
        (Item.leftoversItems as = Item.leftoversItems bs → as = bs)
  | [], [], _ => ⟨rfl, fun _ => rfl⟩
  | a :: as, b :: bs, h => by
      rw [Item.valueItems, Item.valueItems, List.cons.injEq] at h
      obtain ⟨hlen, hsame⟩ := Item.split_value a b h.1
      obtain ⟨hlens, hsames⟩ := Item.split_valueItems as bs h.2
      rw [Item.leftoversItems, Item.leftoversItems]
      refine ⟨by rw [List.length_append, List.length_append, hlen, hlens], fun hleft => ?_⟩
      obtain ⟨hfirst, hrest⟩ := List.append_inj hleft hlen
      rw [hsame hfirst, hsames hrest]
  | [], b :: bs, h => by simp [Item.valueItems] at h
  | a :: as, [], h => by simp [Item.valueItems] at h

theorem Item.split_valuePairs : ∀ as bs : List (Item × Item),
    Item.valuePairs as = Item.valuePairs bs →
      (Item.leftoversPairs as).length = (Item.leftoversPairs bs).length ∧
        (Item.leftoversPairs as = Item.leftoversPairs bs → as = bs)
  | [], [], _ => ⟨rfl, fun _ => rfl⟩
  | (k, v) :: as, (k', v') :: bs, h => by
      rw [Item.valuePairs, Item.valuePairs, List.cons.injEq, Prod.mk.injEq] at h
      obtain ⟨hlenk, hsamek⟩ := Item.split_value k k' h.1.1
      obtain ⟨hlenv, hsamev⟩ := Item.split_value v v' h.1.2
      obtain ⟨hlens, hsames⟩ := Item.split_valuePairs as bs h.2
      rw [Item.leftoversPairs, Item.leftoversPairs]
      refine ⟨by simp only [List.length_append, hlenk, hlenv, hlens], fun hleft => ?_⟩
      obtain ⟨hkey, hleft⟩ := List.append_inj hleft hlenk
      obtain ⟨hval, hrest⟩ := List.append_inj hleft hlenv
      rw [hsamek hkey, hsamev hval, hsames hrest]
  | [], (k, v) :: bs, h => by simp [Item.valuePairs] at h
  | (k, v) :: as, [], h => by simp [Item.valuePairs] at h

end

/-- **Equality**: the same value, and the same unused bytes. -/
theorem Item.eq_value_iff (a b : Item) :
    Item.eq a b = true ↔ a.value = b.value ∧ a.leftovers = b.leftovers := by
  rw [Item.eq_iff]
  constructor
  · rintro rfl
    exact ⟨rfl, rfl⟩
  · rintro ⟨hvalue, hleft⟩
    exact (Item.split_value a b hvalue).2 hleft

end OpenZL.Shared.A1cbor
