import OpenZL.Shared.A1cborGrammar

/-!
# What the CBOR decoder accepts

The decoder reads every document of an item whose levels it allows, and gives the item with zero in
its unused bytes.

Principal results: `decodeContainer_reads`, `decodeOneInto_reads`.
-/

namespace OpenZL.Shared.A1cbor

open OpenZL.Lib

/-- The decoder reads these bytes as `x`. -/
def Reads {α : Type} (d : Decoder) (one : Nat → Except Stop (α × Nat)) (x : α)
    (bs : List UInt8) : Prop :=
  ∀ (ptr : Nat) (rest : List UInt8), At d ptr (bs ++ rest) → one ptr = .ok (x, ptr + bs.length)

/-- The bytes do not start with a break. -/
def StartsItem (bs : List UInt8) : Prop :=
  ∃ header t, bs = header :: t ∧ isBreak header = false

/-- The decoder reads these bytes as elements, one behind the other. -/
inductive ReadsAll {α : Type} (d : Decoder) (one : Nat → Except Stop (α × Nat)) :
    List α → List UInt8 → Prop
  | nil : ReadsAll d one [] []
  | cons {x : α} {xs : List α} {first rest : List UInt8} (hfirst : Reads d one x first)
      (hstart : StartsItem first) (hrest : ReadsAll d one xs rest) :
      ReadsAll d one (x :: xs) (first ++ rest)

section Containers

variable {α : Type} {d : Decoder} {depth ptr : Nat} {one : Nat → Except Stop (α × Nat)}
  {xs : List α} {inner rest : List UInt8}

theorem ReadsAll.length_le (h : ReadsAll d one xs inner) : xs.length ≤ inner.length := by
  induction h with
  | nil => exact Nat.le_refl 0
  | cons _ hstart _ ih =>
    obtain ⟨header, t, rfl, -⟩ := hstart
    rw [List.length_append, List.length_cons, List.length_cons]
    omega

theorem decodeMany_reads (h : ReadsAll d one xs inner) : ∀ {ptr : Nat},
    At d ptr (inner ++ rest) → decodeMany one xs.length ptr = .ok (xs, ptr + inner.length) := by
  induction h with
  | nil => exact fun _ => rfl
  | cons hfirst _ _ ih =>
    intro ptr hat
    rw [List.append_assoc] at hat
    rw [List.length_cons, decodeMany]
    simp only [hfirst _ _ hat, ih hat.advance, ok_bind, List.length_append, Nat.add_assoc]

theorem At.header {header : UInt8} (h : At d ptr (header :: rest)) :
    A1cbor.peek d depth 1 ptr = .ok [header] :=
  @At.peek d depth ptr [header] rest h

theorem decodeUntilBreak_reads (h : ReadsAll d one xs inner) :
    ∀ {fuel ptr : Nat} {previous : List α}, xs.length < fuel → At d ptr (inner ++ 0xFF :: rest) →
      decodeUntilBreak d depth one fuel ptr previous =
        .ok (xs.reverse ++ previous, ptr + inner.length + 1) := by
  induction h with
  | nil =>
    intro fuel ptr previous hfuel hat
    obtain ⟨fuel, rfl⟩ := Nat.exists_eq_add_one_of_ne_zero (by omega : fuel ≠ 0)
    have hskip : skip d depth 1 ptr = .ok (ptr + 1) := 
      @At.skip d depth ptr [0xFF] rest hat
    have hbreak : isBreak (headerOf [0xFF]) = true := by decide
    rw [decodeUntilBreak, At.header hat, ok_bind, if_pos hbreak, hskip]
    rfl
  | @cons x xs first inner hfirst hstart _ ih =>
    intro fuel ptr previous hfuel hat
    obtain ⟨fuel, rfl⟩ := Nat.exists_eq_add_one_of_ne_zero (by omega : fuel ≠ 0)
    rw [List.append_assoc] at hat
    obtain ⟨header, t, rfl, hbreak⟩ := hstart
    have hmore : ¬isBreak (headerOf [header]) = true := by
      rw [headerOf, List.headD_cons, hbreak]
      exact Bool.false_ne_true
    rw [List.length_cons] at hfuel
    have hloop := @ih fuel (ptr + (header :: t).length) (x :: previous) (by omega) hat.advance
    rw [decodeUntilBreak, At.header hat, ok_bind, if_neg hmore]
    simp only [hfirst _ _ hat, hloop, ok_bind, List.reverse_cons, List.append_assoc,
      List.singleton_append, List.length_append, Nat.add_assoc]

theorem readSize_of_head {size : Nat} {header : UInt8} {t : List UInt8} (hsize : size < 2 ^ 64)
    (h : readCount d depth header ptr = .ok (size, ptr + t.length)) :
    readSize d depth header ptr = .ok (size, ptr + t.length) := by
  rw [readSize, h, ok_bind]
  exact if_neg (by rw [sizeMax]; omega)

theorem readSize_indefinite {header : UInt8} (h : shortCount header = 31) :
    readSize d depth header ptr = .ok (31, ptr) := by
  rw [readSize, readCount, if_pos (Or.inr h), ok_bind, h]
  exact if_neg (by decide)

/-- **A container** of elements that the decoder reads. -/
theorem decodeContainer_reads {type : MajorType} {bs : List UInt8} (h : ReadsAll d one xs inner)
    (hbs : WrittenContainer type xs.length inner bs) :
    ∃ header t, bs = header :: t ∧ majorType header = type ∧
      Reads d (decodeContainer d depth one header) xs t := by
  rcases hbs with ⟨head, hhead, rfl⟩ | rfl
  · obtain ⟨header, t, rfl, htype, hsmall, hlt, hcount⟩ := hhead.exists_cons
    obtain ⟨-, hindefinite, -⟩ := header_of_small hsmall
    refine ⟨header, t ++ inner, rfl, htype, fun ptr rest hat => ?_⟩
    rw [List.append_assoc] at hat
    have hle := h.length_le
    have hroom : ¬inner.length + rest.length < xs.length := by omega
    rw [decodeContainer]
    simp only [readSize_of_head hlt (hcount d depth ptr _ hat), ok_bind, hindefinite,
      Bool.false_eq_true, if_false, hat.advance.remaining, hroom, decodeMany_reads h hat.advance,
      List.length_append, Nat.add_assoc]
  · have hshort : shortCount (headerMake type 31) = 31 := shortCount_headerMake type (by decide)
    refine ⟨_, _, rfl, majorType_headerMake type (by decide), fun ptr rest hat => ?_⟩
    rw [List.append_assoc] at hat
    have hle := h.length_le
    have hindefinite : isIndefinite (headerMake type 31) = true := by
      rw [isIndefinite, hshort]
      rfl
    have hloop := @decodeUntilBreak_reads α d depth one xs inner rest h (remaining d ptr + 1) ptr []
      (by rw [hat.remaining, List.length_append]; omega) hat
    rw [decodeContainer]
    simp only [readSize_indefinite hshort, ok_bind, hindefinite, if_true, hloop, List.append_nil,
      List.reverse_reverse, List.length_append, List.length_singleton, Nat.add_assoc]

end Containers

section Strings

variable {d : Decoder} {depth ptr : Nat} {type : MajorType} {data inner rest : List UInt8}

theorem decodeDataDefinite_reads {header : UInt8} {t : List UInt8} (hlt : data.length < 2 ^ 64)
    (hcount : ∀ (d : Decoder) (depth ptr : Nat) (rest : List UInt8), At d ptr (t ++ rest) →
      readCount d depth header ptr = .ok (data.length, ptr + t.length)) (referenceSource : Bool) :
    Reads d (decodeDataDefinite d depth referenceSource header) data (t ++ data) := by
  intro ptr rest hat
  rw [List.append_assoc] at hat
  have hdata := hat.advance
  have hroom : ¬data.length + rest.length < data.length := by omega
  rw [decodeDataDefinite]
  simp only [readSize_of_head hlt (hcount d depth ptr _ hat), ok_bind, hdata.remaining,
    List.length_append, hroom, if_false]
  cases referenceSource with
  | true => simp only [if_true, hdata.load, hdata.skip, ok_bind, Nat.add_assoc]
  | false => simp only [Bool.false_eq_true, if_false, hdata.read, Nat.add_assoc]

theorem Chunks.length_le : ∀ {chunks : List (List UInt8)} {inner : List UInt8},
    Chunks type chunks inner → chunks.length + chunks.flatten.length ≤ inner.length
  | [], _, h => by
      rw [Chunks] at h
      subst h
      exact Nat.le_refl 0
  | chunk :: chunks, inner, h => by
      rw [Chunks] at h
      obtain ⟨head, rest, hhead, hrest, rfl⟩ := h
      obtain ⟨header, t, rfl, -⟩ := hhead.exists_cons
      have hle := Chunks.length_le hrest
      simp only [List.length_append, List.length_cons, List.flatten_cons]
      omega

theorem decodeChunks_reads : ∀ {chunks : List (List UInt8)} {inner : List UInt8} {fuel ptr
    totalSize : Nat} {previous : List (List UInt8)}, Chunks type chunks inner →
      chunks.length < fuel → totalSize + chunks.flatten.length < 2 ^ 64 →
        At d ptr (inner ++ 0xFF :: rest) →
          decodeChunks d depth type fuel ptr totalSize previous =
            .ok (chunks.reverse ++ previous, ptr + inner.length + 1)
  | [], inner, fuel, ptr, totalSize, previous, hchunks, hfuel, _, hat => by
      rw [Chunks] at hchunks
      subst hchunks
      obtain ⟨fuel, rfl⟩ := Nat.exists_eq_add_one_of_ne_zero (by omega : fuel ≠ 0)
      have hread : read d depth 1 ptr = .ok ([0xFF], ptr + 1) :=
        @At.read d depth ptr [0xFF] rest hat
      have hlegal : isLegal (headerOf [0xFF]) = true := by decide
      have hbreak : isBreak (headerOf [0xFF]) = true := by decide
      rw [decodeChunks]
      simp only [hread, ok_bind, hlegal, hbreak, Bool.not_true, Bool.false_eq_true, if_false,
        if_true]
      rfl
  | chunk :: chunks, inner, fuel, ptr, totalSize, previous, hchunks, hfuel, htotal, hat => by
      rw [Chunks] at hchunks
      obtain ⟨head, inner, hhead, hrest, rfl⟩ := hchunks
      obtain ⟨header, t, rfl, htype, hsmall, hlt, hcount⟩ := hhead.exists_cons
      obtain ⟨hlegal, hindefinite, hbreak⟩ := header_of_small hsmall
      obtain ⟨fuel, rfl⟩ := Nat.exists_eq_add_one_of_ne_zero (by omega : fuel ≠ 0)
      rw [List.length_cons] at hfuel
      rw [List.flatten_cons, List.length_append] at htotal
      have hat' : At d ptr ([header] ++ ((t ++ chunk) ++ (inner ++ 0xFF :: rest))) := by
        simpa only [List.append_assoc, List.cons_append, List.nil_append] using hat
      have hread : read d depth 1 ptr = .ok ([header], ptr + 1) := hat'.read
      have hchunk := @decodeDataDefinite_reads d depth chunk header t hlt hcount true (ptr + 1) _
        hat'.advance
      have hnext := hat'.advance.advance
      have hmore := @decodeChunks_reads chunks inner fuel (ptr + 1 + (t ++ chunk).length)
        (totalSize + chunk.length) (chunk :: previous) hrest (by omega) (by omega) hnext
      have hfit : ¬totalSize + chunk.length > sizeMax := by
        rw [sizeMax]
        omega
      rw [decodeChunks]
      simp only [hread, ok_bind, headerOf, List.headD_cons, hlegal, hbreak, hindefinite, htype,
        Bool.not_true, Bool.false_eq_true, if_false, ne_eq, not_true_eq_false, or_self, hchunk,
        hfit, hmore, List.reverse_cons, List.append_assoc, List.singleton_append]
      simp only [List.length_append, List.length_cons, List.cons_append]
      congr 2
      omega

theorem rejoin_reverse (chunks : List (List UInt8)) : rejoin chunks.reverse = chunks.flatten := by
  rw [rejoin, List.foldl_reverse]
  induction chunks with
  | nil => rfl
  | cons chunk chunks ih => rw [List.foldr_cons, ih, List.flatten_cons]

theorem decodeData_reads {bs : List UInt8} (hsrc : d.src.length < 2 ^ 64)
    (h : WrittenData type data bs) :
    ∃ header t, bs = header :: t ∧ majorType header = type ∧
      Reads d (decodeData d depth header) data t := by
  rcases h with ⟨head, hhead, rfl⟩ | ⟨chunks, inner, rfl, hchunks, rfl⟩
  · obtain ⟨header, t, rfl, htype, hsmall, hlt, hcount⟩ := hhead.exists_cons
    obtain ⟨-, hindefinite, -⟩ := header_of_small hsmall
    refine ⟨header, t ++ data, rfl, htype, fun ptr rest hat => ?_⟩
    rw [decodeData, hindefinite, Bool.not_false, if_pos rfl]
    exact decodeDataDefinite_reads hlt hcount d.referenceSource ptr rest hat
  · have hshort : shortCount (headerMake type 31) = 31 := shortCount_headerMake type (by decide)
    refine ⟨_, _, rfl, majorType_headerMake type (by decide), fun ptr rest hat => ?_⟩
    rw [List.append_assoc] at hat
    have hle := hchunks.length_le
    have hbytes := hat.le
    have hindefinite : isIndefinite (headerMake type 31) = true := by
      rw [isIndefinite, hshort]
      rfl
    rw [List.length_append] at hbytes
    have hloop := @decodeChunks_reads d depth type rest chunks inner (remaining d ptr + 1) ptr 0 []
      hchunks (by rw [hat.remaining, List.length_append]; omega) (by omega) hat
    have htype : majorType (headerMake type 31) = type := majorType_headerMake type (by decide)
    rw [decodeData]
    simp only [hindefinite, Bool.not_true, Bool.false_eq_true, if_false, htype, hloop, ok_bind,
      List.append_nil, rejoin_reverse, List.length_append, List.length_singleton, Nat.add_assoc]

end Strings

section Items

variable {d : Decoder} {levels : Nat}

theorem decodeOneInto_of_body {x : Item} {header : UInt8} {t : List UInt8}
    (hlegal : isLegal header = true)
    (h : Reads d (decodeBody d (d.maxDepth - levels) (decodeOneInto d levels) header) x t) :
    Reads d (decodeOneInto d (levels + 1)) x (header :: t) := by
  intro ptr rest hat
  have hat' : At d ptr ([header] ++ (t ++ rest)) := hat
  have hread : read d (d.maxDepth - levels) 1 ptr = .ok ([header], ptr + 1) := hat'.read
  have hbody : decodeBody d (d.maxDepth - levels) (decodeOneInto d levels) header (ptr + 1) =
      .ok (x, ptr + 1 + t.length) := h (ptr + 1) rest hat'.advance
  rw [decodeOneInto]
  simp only [hread, ok_bind, headerOf, List.headD_cons, hlegal, Bool.not_true, Bool.false_eq_true,
    if_false, hbody, List.length_cons]
  rw [Nat.add_assoc, Nat.add_comm 1]

theorem decodePair_reads {one : Nat → Except Stop (Item × Nat)} {key val : Item}
    {first second : List UInt8} (hkey : Reads d one key first) (hval : Reads d one val second) :
    Reads d (decodePair one) (key, val) (first ++ second) := by
  intro ptr rest hat
  rw [List.append_assoc] at hat
  rw [decodePair]
  simp only [hkey _ _ hat, hval _ _ hat.advance, ok_bind, List.length_append, Nat.add_assoc]

theorem special_reads {x : Item} {n : Nat} (hn : n < 28)
    (h : ∀ depth ptr, decodeSpecial d depth (headerMake .special (UInt8.ofNat n)) ptr =
      .ok (x, ptr)) :
    Reads d (decodeOneInto d (levels + 1)) x [headerMake .special (UInt8.ofNat n)] := by
  have hshort := shortCount_headerMake .special (by omega : n < 32)
  have hsmall : shortCount (headerMake .special (UInt8.ofNat n)) < 28 := by omega
  refine decodeOneInto_of_body (header_of_small hsmall).1 fun ptr rest _ => ?_
  simp only [decodeBody, majorType_headerMake .special (by omega : n < 32), h, List.length_nil,
    Nat.add_zero]

theorem number_reads {n k v : Nat} {f : Nat → Item} (hn : n < 28) (hv : v < 256 ^ k)
    (h : ∀ depth ptr, decodeSpecial d depth (headerMake .special (UInt8.ofNat n)) ptr = do
      let (value, ptr) ← readBE d depth k ptr
      .ok (f value, ptr)) :
    Reads d (decodeOneInto d (levels + 1)) (f v)
      (headerMake .special (UInt8.ofNat n) :: toBE k v) := by
  have hshort := shortCount_headerMake .special (by omega : n < 32)
  have hsmall : shortCount (headerMake .special (UInt8.ofNat n)) < 28 := by omega
  refine decodeOneInto_of_body (header_of_small hsmall).1 fun ptr rest hat => ?_
  simp only [decodeBody, majorType_headerMake .special (by omega : n < 32), h, hat.readBE hv,
    ok_bind, length_toBE]

theorem int64_reads {v : Int64} {bs : List UInt8}
    (h : if v ≥ 0 then Head .uint v.toUInt64.toNat bs else Head .int (~~~v).toUInt64.toNat bs) :
    Reads d (decodeOneInto d (levels + 1)) (.int64 v) bs := by
  by_cases hv : v ≥ 0
  · rw [if_pos hv] at h
    obtain ⟨header, t, rfl, htype, hsmall, hlt, hcount⟩ := h.exists_cons
    refine decodeOneInto_of_body (header_of_small hsmall).1 fun ptr rest hat => ?_
    have hfit : ¬v.toUInt64.toNat > 2 ^ 63 - 1 := by
      have := (nonneg_iff v).1 hv
      omega
    simp only [decodeBody, htype, decodeUInt, hcount _ _ _ _ hat, ok_bind, hfit, if_false,
      toInt64_toUInt64]
  · rw [if_neg hv] at h
    obtain ⟨header, t, rfl, htype, hsmall, hlt, hcount⟩ := h.exists_cons
    refine decodeOneInto_of_body (header_of_small hsmall).1 fun ptr rest hat => ?_
    have hfit : ¬(~~~v).toUInt64.toNat ≥ 2 ^ 63 := by
      rw [nonneg_iff] at hv
      rw [toNat_not]
      omega
    simp only [decodeBody, htype, decodeInt, hcount _ _ _ _ hat, ok_bind, hfit, if_false,
      not_toInt64_not]

theorem simple_reads {v : UInt8} {bs : List UInt8} (hallowed : d.rejectUnknownSimple = false)
    (h : v < 20 ∧ bs = [headerMake .special v] ∨ 32 ≤ v ∧ bs = [headerMake .special 24, v]) :
    Reads d (decodeOneInto d (levels + 1)) (.simple v) bs := by
  rcases h with ⟨hv, rfl⟩ | ⟨hv, rfl⟩
  · have hlt : v.toNat < 20 := UInt8.lt_iff_toNat_lt.1 hv
    have hreads := @special_reads d levels (.simple v) v.toNat (by omega) fun depth ptr => by
      have hshort := shortCount_headerMake .special (by omega : v.toNat < 32)
      rw [decodeSpecial, hshort, if_neg (by omega), if_neg (by omega), if_neg (by omega),
        if_neg (by omega), if_neg (by omega), if_neg (by omega), if_neg (by omega), if_pos hlt,
        hallowed, UInt8.ofNat_toNat]
      rfl
    rwa [UInt8.ofNat_toNat] at hreads
  · have hle : 32 ≤ v.toNat := UInt8.le_iff_toNat_le.1 hv
    have hshort : shortCount (headerMake .special 24) = 24 := by decide
    have htype : majorType (headerMake .special 24) = .special := by decide
    have hone : toBE 1 v.toNat = [v] := by
      rw [toBE, toLE, toLE, List.reverse_singleton, UInt8.ofNat_toNat]
    refine decodeOneInto_of_body (by decide) fun ptr rest hat => ?_
    rw [← hone] at hat
    have hread : readBE d (d.maxDepth - levels) 1 ptr = .ok (v.toNat, ptr + 1) :=
      hat.readBE v.toNat_lt
    have hlarge : ¬v.toNat < 32 := by omega
    simp only [decodeBody, htype, decodeSpecial, hshort, decodeSimple, hallowed, hread, ok_bind,
      hlarge, Bool.false_eq_true, if_false, UInt8.ofNat_toNat]
    rfl

theorem length_valueItems (items : List Item) : (Item.valueItems items).length = items.length := by
  induction items with
  | nil => rfl
  | cons item items ih => rw [Item.valueItems, List.length_cons, ih, List.length_cons]

theorem length_valuePairs (items : List (Item × Item)) :
    (Item.valuePairs items).length = items.length := by
  induction items with
  | nil => rfl
  | cons item items ih => rw [Item.valuePairs, List.length_cons, ih, List.length_cons]

theorem Written.startsItem {simple : Bool} {item : Item} {bs : List UInt8}
    (h : Written simple item bs) : StartsItem bs := by
  obtain ⟨header, t, hbs, -, hbreak⟩ := h.exists_cons
  exact ⟨header, t, hbs, hbreak⟩

theorem StartsItem.append {bs : List UInt8} (h : StartsItem bs) (rest : List UInt8) :
    StartsItem (bs ++ rest) := by
  obtain ⟨header, t, rfl, hbreak⟩ := h
  exact ⟨header, t ++ rest, rfl, hbreak⟩

theorem bytes_reads {data bs : List UInt8} (hsrc : d.src.length < 2 ^ 64)
    (h : WrittenData .bytes data bs) :
    Reads d (decodeOneInto d (levels + 1)) (.bytes data) bs := by
  obtain ⟨header, t, rfl, htype, hdata⟩ := @decodeData_reads d (d.maxDepth - levels) _ _ _ hsrc h
  obtain ⟨header', t', heq, hlegal, -⟩ := @Written.exists_cons true (.bytes data) _ h
  cases heq
  refine decodeOneInto_of_body hlegal fun ptr rest hat => ?_
  simp only [decodeBody, htype, hdata _ _ hat, ok_bind]

theorem string_reads {data bs : List UInt8} (hsrc : d.src.length < 2 ^ 64)
    (h : WrittenData .string data bs) :
    Reads d (decodeOneInto d (levels + 1)) (.string data) bs := by
  obtain ⟨header, t, rfl, htype, hdata⟩ := @decodeData_reads d (d.maxDepth - levels) _ _ _ hsrc h
  obtain ⟨header', t', heq, hlegal, -⟩ := @Written.exists_cons true (.string data) _ h
  cases heq
  refine decodeOneInto_of_body hlegal fun ptr rest hat => ?_
  simp only [decodeBody, htype, hdata _ _ hat, ok_bind]

mutual

/-- **The decoder** reads each document of an item. -/
theorem decodeOneInto_reads (hsrc : d.src.length < 2 ^ 64) :
    ∀ {item : Item} {bs : List UInt8} {levels : Nat},
    Written (!d.rejectUnknownSimple) item bs → item.depth ≤ levels + 1 →
      Reads d (decodeOneInto d (levels + 1)) item.value bs
  | .array items, bs, levels, h, hdepth => by
      obtain ⟨header', t', heq, hlegal, -⟩ := h.exists_cons
      rw [Written] at h
      obtain ⟨inner, hinner, hbs⟩ := h
      rw [Item.depth] at hdepth
      have hall := decodeItems_reads hsrc hinner (by omega : Item.depthItems items ≤ levels)
      rw [← length_valueItems] at hbs
      obtain ⟨header, t, rfl, htype, hreads⟩ :=
        @decodeContainer_reads _ d (d.maxDepth - levels) _ _ _ _ _ hall hbs
      cases heq
      refine decodeOneInto_of_body hlegal fun ptr rest hat => ?_
      simp only [decodeBody, htype, decodeArray, hreads _ _ hat, ok_bind, Item.value]
  | .map items, bs, levels, h, hdepth => by
      obtain ⟨header', t', heq, hlegal, -⟩ := h.exists_cons
      rw [Written] at h
      obtain ⟨inner, hinner, hbs⟩ := h
      rw [Item.depth] at hdepth
      have hall := decodePairs_reads hsrc hinner (by omega : Item.depthPairs items ≤ levels)
      rw [← length_valuePairs] at hbs
      obtain ⟨header, t, rfl, htype, hreads⟩ :=
        @decodeContainer_reads _ d (d.maxDepth - levels) _ _ _ _ _ hall hbs
      cases heq
      refine decodeOneInto_of_body hlegal fun ptr rest hat => ?_
      simp only [decodeBody, htype, decodeMap, hreads _ _ hat, ok_bind, Item.value]
  | .tag tag item, bs, levels, h, hdepth => by
      rw [Written] at h
      obtain ⟨head, inner, hhead, hinner, rfl⟩ := h
      obtain ⟨header, t, rfl, htype, hsmall, hlt, hcount⟩ := hhead.exists_cons
      rw [Item.depth] at hdepth
      have hpos := item.depth_pos
      obtain ⟨levels, rfl⟩ := Nat.exists_eq_add_one_of_ne_zero (by omega : levels ≠ 0)
      have hitem := decodeOneInto_reads hsrc hinner (by omega : item.depth ≤ levels + 1)
      rw [List.cons_append]
      refine decodeOneInto_of_body (header_of_small hsmall).1 fun ptr rest hat => ?_
      rw [List.append_assoc] at hat
      simp only [decodeBody, htype, decodeTag, hcount _ _ _ _ hat, hitem _ _ hat.advance, ok_bind,
        UInt64.ofNat_toNat, Item.value, List.length_append, Nat.add_assoc]
  | .bytes data, bs, levels, h, _ => bytes_reads hsrc h
  | .string data, bs, levels, h, _ => string_reads hsrc h
  | .int64 v, bs, levels, h, _ => int64_reads h
  | .boolean b, bs, levels, h, _ => by
      rw [Written] at h
      subst h
      cases b
      · exact @special_reads d levels (.boolean false) 20 (by decide) fun _ _ => rfl
      · exact @special_reads d levels (.boolean true) 21 (by decide) fun _ _ => rfl
  | .null _, bs, levels, h, _ => by
      rw [Written] at h
      subst h
      exact @special_reads d levels (.null 0) 22 (by decide) fun _ _ => rfl
  | .undefined _, bs, levels, h, _ => by
      rw [Written] at h
      subst h
      exact @special_reads d levels (.undefined 0) 23 (by decide) fun _ _ => rfl
  | .float16 bits, bs, levels, h, _ => by
      rw [Written] at h
      subst h
      have hreads := @number_reads d levels 25 2 bits.toNat (fun v => .float16 (UInt16.ofNat v))
        (by decide) bits.toNat_lt fun _ _ => rfl
      rwa [UInt16.ofNat_toNat] at hreads
  | .float32 bits, bs, levels, h, _ => by
      rw [Written] at h
      subst h
      have hreads := @number_reads d levels 26 4 bits.toNat (fun v => .float32 (UInt32.ofNat v))
        (by decide) bits.toNat_lt fun _ _ => rfl
      rwa [UInt32.ofNat_toNat] at hreads
  | .float64 bits, bs, levels, h, _ => by
      rw [Written] at h
      subst h
      have hreads := @number_reads d levels 27 8 bits.toNat (fun v => .float64 (UInt64.ofNat v))
        (by decide) bits.toNat_lt fun _ _ => rfl
      rwa [UInt64.ofNat_toNat] at hreads
  | .simple v, bs, levels, h, _ => by
      rw [Written, Bool.not_eq_true'] at h
      exact simple_reads h.1 h.2

theorem decodeItems_reads (hsrc : d.src.length < 2 ^ 64) :
    ∀ {items : List Item} {inner : List UInt8} {levels : Nat},
    WrittenItems (!d.rejectUnknownSimple) items inner → Item.depthItems items ≤ levels →
      ReadsAll d (decodeOneInto d levels) (Item.valueItems items) inner
  | [], _, _, h, _ => by
      rw [WrittenItems] at h
      subst h
      exact ReadsAll.nil
  | item :: items, _, levels, h, hdepth => by
      rw [WrittenItems] at h
      obtain ⟨first, rest, hfirst, hrest, rfl⟩ := h
      rw [Item.depthItems] at hdepth
      have hpos := item.depth_pos
      obtain ⟨levels, rfl⟩ := Nat.exists_eq_add_one_of_ne_zero (by omega : levels ≠ 0)
      exact ReadsAll.cons (decodeOneInto_reads hsrc hfirst (by omega)) hfirst.startsItem
        (decodeItems_reads hsrc hrest (by omega))

theorem decodePairs_reads (hsrc : d.src.length < 2 ^ 64) :
    ∀ {items : List (Item × Item)} {inner : List UInt8} {levels : Nat},
    WrittenPairs (!d.rejectUnknownSimple) items inner → Item.depthPairs items ≤ levels →
      ReadsAll d (decodePair (decodeOneInto d levels)) (Item.valuePairs items) inner
  | [], _, _, h, _ => by
      rw [WrittenPairs] at h
      subst h
      exact ReadsAll.nil
  | (key, val) :: items, _, levels, h, hdepth => by
      rw [WrittenPairs] at h
      obtain ⟨first, second, rest, hfirst, hsecond, hrest, rfl⟩ := h
      rw [Item.depthPairs] at hdepth
      have hpos := key.depth_pos
      obtain ⟨levels, rfl⟩ := Nat.exists_eq_add_one_of_ne_zero (by omega : levels ≠ 0)
      rw [← List.append_assoc]
      exact ReadsAll.cons (decodePair_reads (decodeOneInto_reads hsrc hfirst (by omega))
          (decodeOneInto_reads hsrc hsecond (by omega))) (hfirst.startsItem.append second)
        (decodePairs_reads hsrc hrest (by omega))

end

end Items

end OpenZL.Shared.A1cbor
