import OpenZL.Shared.A1cborDecode

/-!
# The CBOR decoder on any bytes

On every source the decoder ends with an item or an error: no load leaves the source and no loop
takes more rounds than there are bytes.

Principal results: `decodeContainer_outcome`, `decodeOneInto_outcome`, `decode_eq_ok_iff`,
`decode_append`.
-/

namespace OpenZL.Shared.A1cbor

open OpenZL.Lib

/-! ## Outcomes of reads -/

/-- A run from `ptr` ends with an error of the decoder, or with a value in `P` with the bytes that
were read. -/
def Outcome {α : Type} (d : Decoder) (P : α → List UInt8 → Prop) (ptr : Nat) :
    Except Stop (α × Nat) → Prop
  | .ok (x, ptr') => ∃ bs, At d ptr (bs ++ d.src.drop ptr') ∧ ptr' = ptr + bs.length ∧ P x bs
  | .error (.error _) => True
  | .error _ => False

section Outcome

variable {α β : Type} {d : Decoder} {depth ptr : Nat} {P : α → List UInt8 → Prop}
  {Q : β → List UInt8 → Prop} {r : Except Stop (α × Nat)} {f : α × Nat → Except Stop (β × Nat)}

theorem Outcome.ok {x : α} (hptr : ptr ≤ d.src.length) (h : P x []) :
    Outcome d P ptr (.ok (x, ptr)) := ⟨[], ⟨hptr, rfl⟩, rfl, h⟩

theorem Outcome.fail (type : ErrorType) (p : Nat) : Outcome d P ptr (fail depth type p) := trivial

theorem Outcome.bind (h : Outcome d P ptr r)
    (hf : ∀ x bs, P x bs → ptr + bs.length ≤ d.src.length →
      Outcome d (fun y cs => Q y (bs ++ cs)) (ptr + bs.length) (f (x, ptr + bs.length))) :
    Outcome d Q ptr (r >>= f) := by
  match r, h with
  | .error (.error _), _ => exact trivial
  | .ok (x, ptr'), ⟨bs, hat, hptr, hx⟩ =>
    subst hptr
    have hle := hat.advance.1
    have hnext := hf x bs hx hle
    rw [ok_bind]
    match f (x, ptr + bs.length), hnext with
    | .error (.error _), _ => exact trivial
    | .ok (y, ptr''), ⟨cs, hat', hptr', hy⟩ =>
      refine ⟨bs ++ cs, ⟨hat.1, ?_⟩, ?_, hy⟩
      · rw [hat.2, List.append_assoc, hat'.2]
      · rw [hptr', List.length_append, Nat.add_assoc]

theorem Outcome.mono {P' : α → List UInt8 → Prop} (h : Outcome d P ptr r)
    (himp : ∀ x bs, P x bs → P' x bs) : Outcome d P' ptr r := by
  match r, h with
  | .error (.error _), _ => exact trivial
  | .ok (x, ptr'), ⟨bs, hat, hptr, hx⟩ => exact ⟨bs, hat, hptr, himp x bs hx⟩

variable (hptr : ptr ≤ d.src.length)

include hptr

theorem at_take {size : Nat} (hsize : ptr + size ≤ d.src.length) :
    At d ptr (Buffer.read d.src ptr size ++ d.src.drop (ptr + size)) ∧
      (Buffer.read d.src ptr size).length = size :=
  ⟨⟨hptr, Buffer.drop_eq d.src ptr size⟩, Buffer.length_read hsize⟩

theorem read_outcome (size : Nat) :
    Outcome d (fun out bs => out = bs ∧ bs.length = size) ptr (read d depth size ptr) := by
  by_cases hsize : ptr + size ≤ d.src.length
  · obtain ⟨hat, hlen⟩ := at_take hptr hsize
    have hread : read d depth (Buffer.read d.src ptr size).length ptr = _ := hat.read
    rw [hlen] at hread
    rw [hread]
    exact ⟨_, hat, by rw [hlen], rfl, hlen⟩
  · have hshort : remaining d ptr < size := by
      rw [remaining]
      omega
    rw [read, peek, if_pos hshort]
    exact trivial

theorem peek_cases :
    (∃ header, At d ptr ([header] ++ d.src.drop (ptr + 1)) ∧ peek d depth 1 ptr = .ok [header]) ∨
      peek d depth 1 ptr = A1cbor.fail depth .truncated ptr := by
  by_cases hsize : ptr + 1 ≤ d.src.length
  · obtain ⟨hat, hlen⟩ := at_take hptr hsize
    obtain ⟨header, hheader⟩ := List.length_eq_one_iff.1 hlen
    rw [hheader] at hat
    have hpeek : peek d depth [header].length ptr = _ := hat.peek
    exact Or.inl ⟨header, hat, hpeek⟩
  · have hshort : remaining d ptr < 1 := by
      rw [remaining]
      omega
    exact Or.inr (if_pos hshort)

theorem readBE_outcome (size : Nat) :
    Outcome d (fun n bs => n < 256 ^ size ∧ bs = toBE size n) ptr (readBE d depth size ptr) := by
  refine (read_outcome hptr size).bind ?_
  rintro out bs ⟨rfl, hlen⟩ hle
  refine Outcome.ok hle ?_
  rw [List.append_nil, ← hlen, toBE_ofBE]
  exact ⟨ofBE_lt out, rfl⟩

end Outcome

section Headers

variable {d : Decoder} {depth ptr : Nat} {header : UInt8}

theorem isLegal_cases (h : isLegal header = true) :
    shortCount header < 28 ∨ shortCount header = 31 ∧ majorType header ≠ .uint ∧
      majorType header ≠ .int ∧ majorType header ≠ .tag := by
  have hlt := shortCount_lt header
  rw [isLegal] at h
  by_cases hlarge : shortCount header ≥ 28
  · rw [if_pos hlarge] at h
    by_cases hless : shortCount header < 31
    · rw [if_pos hless] at h
      exact absurd h Bool.false_ne_true
    · rw [if_neg hless] at h
      simp only [Bool.not_eq_true', Bool.or_eq_false_iff, beq_eq_false_iff_ne, ne_eq] at h
      exact Or.inr ⟨by omega, h.1.1, h.1.2, h.2⟩
  · exact Or.inl (by omega)

theorem readCount_outcome (hptr : ptr ≤ d.src.length) (hsmall : shortCount header < 28) :
    Outcome d (fun count bs => Head (majorType header) count (header :: bs)) ptr
      (readCount d depth header ptr) := by
  have hheader := headerMake_eq header
  by_cases h24 : shortCount header < 24
  · rw [readCount, if_pos (Or.inl h24)]
    refine Outcome.ok hptr (Or.inl ⟨h24, ?_⟩)
    rw [hheader]
  · have hsize : ∃ size ∈ countSizes, shortCount header = size.1 := by
      simp only [countSizes, List.mem_cons, List.not_mem_nil, or_false, exists_eq_or_imp,
        exists_eq_left]
      omega
    obtain ⟨size, hmem, hshort⟩ := hsize
    rw [readCount_of_size hmem hshort]
    refine (readBE_outcome hptr size.2).mono ?_
    rintro count bs ⟨hlt, rfl⟩
    refine Or.inr ⟨size, hmem, hlt, ?_⟩
    rw [← hshort, hheader]

theorem readSize_outcome (hptr : ptr ≤ d.src.length) (hsmall : shortCount header < 28) :
    Outcome d (fun count bs => Head (majorType header) count (header :: bs)) ptr
      (readSize d depth header ptr) := by
  refine (readCount_outcome hptr hsmall).bind ?_
  intro count bs hhead hle
  dsimp only
  split
  · exact Outcome.fail _ _
  · refine Outcome.ok hle ?_
    rwa [List.append_nil]

theorem header_of_break (h : isBreak header = true) : header = 0xFF := beq_iff_eq.1 h

end Headers

/-! ## Containers and strings -/

/-- Documents of elements, one behind the other. -/
def AllWritten {α : Type} (P : α → List UInt8 → Prop) : List α → List UInt8 → Prop
  | [], bs => bs = []
  | x :: xs, bs => ∃ first rest, P x first ∧ AllWritten P xs rest ∧ bs = first ++ rest

section Containers

variable {α : Type} {d : Decoder} {depth ptr : Nat} {header : UInt8} {P : α → List UInt8 → Prop}
  {one : Nat → Except Stop (α × Nat)}

theorem decodeMany_outcome (hone : ∀ p ≤ d.src.length, Outcome d P p (one p)) :
    ∀ (size : Nat) {ptr : Nat}, ptr ≤ d.src.length →
      Outcome d (fun xs bs => AllWritten P xs bs ∧ xs.length = size) ptr (decodeMany one size ptr)
  | 0, ptr, hptr => Outcome.ok hptr ⟨rfl, rfl⟩
  | size + 1, ptr, hptr => by
      rw [decodeMany]
      refine (hone ptr hptr).bind fun x first hx hle => ?_
      refine (decodeMany_outcome hone size hle).bind ?_
      rintro xs rest ⟨hxs, hlen⟩ hle
      refine Outcome.ok hle ⟨⟨first, rest, hx, hxs, ?_⟩, by rw [List.length_cons, hlen]⟩
      rw [List.append_nil]

theorem decodeUntilBreak_outcome (hone : ∀ p ≤ d.src.length, Outcome d P p (one p))
    (hpos : ∀ x bs, P x bs → bs ≠ []) :
    ∀ (fuel : Nat) {ptr : Nat} {previous : List α}, ptr ≤ d.src.length →
      d.src.length - ptr < fuel →
        Outcome d (fun ys bs => ∃ xs inner, ys = xs.reverse ++ previous ∧ AllWritten P xs inner ∧
          bs = inner ++ [0xFF]) ptr (decodeUntilBreak d depth one fuel ptr previous)
  | 0, ptr, previous, _, hfuel => absurd hfuel (Nat.not_lt_zero _)
  | fuel + 1, ptr, previous, hptr, hfuel => by
      rw [decodeUntilBreak]
      rcases @peek_cases d depth ptr hptr with ⟨header, hat, hpeek⟩ | hpeek
      · rw [hpeek, ok_bind]
        split
        · rename_i hbreak
          have hbreak : header = 0xFF := header_of_break hbreak
          have hskip : skip d depth [header].length ptr = _ := hat.skip
          rw [List.length_singleton] at hskip
          rw [hskip, ok_bind]
          subst hbreak
          exact ⟨[0xFF], hat, rfl, [], [], rfl, rfl, rfl⟩
        · refine (hone ptr hptr).bind fun x first hx hle => ?_
          have hfirst := List.length_pos_of_ne_nil (hpos x first hx)
          refine (decodeUntilBreak_outcome hone hpos fuel hle (by omega)).mono ?_
          rintro ys bs ⟨xs, inner, rfl, hxs, rfl⟩
          refine ⟨x :: xs, first ++ inner, ?_, ⟨first, inner, hx, hxs, rfl⟩, ?_⟩
          · rw [List.reverse_cons, List.append_assoc, List.singleton_append]
          · rw [List.append_assoc]
      · rw [hpeek]
        exact trivial

/-- **A container** that is accepted is one around documents of its elements. -/
theorem decodeContainer_outcome (hone : ∀ p ≤ d.src.length, Outcome d P p (one p))
    (hpos : ∀ x bs, P x bs → bs ≠ []) (hlegal : isLegal header = true)
    (hptr : ptr ≤ d.src.length) :
    Outcome d (fun xs bs => ∃ inner, AllWritten P xs inner ∧
      WrittenContainer (majorType header) xs.length inner (header :: bs)) ptr
        (decodeContainer d depth one header ptr) := by
  rw [decodeContainer]
  rcases isLegal_cases hlegal with hsmall | ⟨hlarge, -⟩
  · obtain ⟨-, hindefinite, -⟩ := header_of_small hsmall
    refine (readSize_outcome hptr hsmall).bind fun size head hhead hle => ?_
    dsimp only
    rw [hindefinite, if_neg Bool.false_ne_true]
    split
    · exact Outcome.fail _ _
    · refine (decodeMany_outcome hone size hle).mono ?_
      rintro xs inner ⟨hxs, rfl⟩
      exact ⟨inner, hxs, Or.inl ⟨header :: head, hhead, rfl⟩⟩
  · have hindefinite : isIndefinite header = true := beq_iff_eq.2 hlarge
    have hheader := headerMake_eq header
    rw [hlarge] at hheader
    rw [readSize_indefinite hlarge, ok_bind]
    dsimp only
    rw [if_pos hindefinite]
    refine (decodeUntilBreak_outcome hone hpos _ hptr (by rw [remaining]; omega)).bind ?_
    rintro ys bs ⟨xs, inner, rfl, hxs, rfl⟩ hle
    refine Outcome.ok hle ⟨inner, ?_, Or.inr ?_⟩
    · rwa [List.append_nil, List.reverse_reverse]
    · rw [List.append_nil]
      exact congrArg (· :: (inner ++ [0xFF])) hheader.symm

end Containers

section Strings

variable {d : Decoder} {depth ptr : Nat} {header : UInt8}

theorem decodeDataDefinite_outcome (referenceSource : Bool) (hptr : ptr ≤ d.src.length)
    (hsmall : shortCount header < 28) :
    Outcome d (fun data bs => ∃ head, Head (majorType header) data.length (header :: head) ∧
      bs = head ++ data) ptr (decodeDataDefinite d depth referenceSource header ptr) := by
  rw [decodeDataDefinite]
  refine (readSize_outcome hptr hsmall).bind fun size head hhead hle => ?_
  dsimp only
  split
  · exact Outcome.fail _ _
  · rename_i hroom
    rw [remaining] at hroom
    obtain ⟨hat, hlen⟩ := at_take hle (by omega : ptr + head.length + size ≤ d.src.length)
    cases referenceSource with
    | true =>
      have hload := hat.load
      have hskip : skip d depth _ (ptr + head.length) = _ := hat.skip
      rw [hlen] at hload hskip
      rw [if_pos rfl, hload, ok_bind, hskip, ok_bind]
      refine ⟨_, hat, by rw [hlen], head, ?_, rfl⟩
      rwa [hlen]
    | false =>
      rw [if_neg Bool.false_ne_true]
      refine (read_outcome hle size).mono ?_
      rintro data bs ⟨rfl, rfl⟩
      exact ⟨head, hhead, rfl⟩

theorem chunks_append {type : MajorType} {header : UInt8} {head chunk : List UInt8}
    (hhead : Head type chunk.length (header :: head)) {chunks : List (List UInt8)}
    {inner : List UInt8} (h : Chunks type chunks inner) :
    Chunks type (chunk :: chunks) (header :: (head ++ chunk) ++ inner) :=
  ⟨header :: head, inner, hhead, h, by rw [List.cons_append, List.cons_append, List.append_assoc]⟩

theorem decodeChunks_outcome (type : MajorType) :
    ∀ (fuel : Nat) {ptr totalSize : Nat} {previous : List (List UInt8)}, ptr ≤ d.src.length →
      d.src.length - ptr < fuel →
        Outcome d (fun ys bs => ∃ chunks inner, ys = chunks.reverse ++ previous ∧
          Chunks type chunks inner ∧ bs = inner ++ [0xFF]) ptr
            (decodeChunks d depth type fuel ptr totalSize previous)
  | 0, ptr, _, previous, _, hfuel => absurd hfuel (Nat.not_lt_zero _)
  | fuel + 1, ptr, totalSize, previous, hptr, hfuel => by
      rw [decodeChunks]
      refine (read_outcome hptr 1).bind ?_
      rintro out bs ⟨rfl, hlen⟩ hle
      obtain ⟨header, rfl⟩ := List.length_eq_one_iff.1 hlen
      rw [List.length_singleton] at hle ⊢
      have hheader : headerOf [header] = header := rfl
      simp only [hheader]
      split
      · exact Outcome.fail _ _
      · rename_i hlegal
        rw [Bool.not_eq_true', Bool.not_eq_false] at hlegal
        split
        · rename_i hbreak
          have hbreak : header = 0xFF := header_of_break hbreak
          subst hbreak
          exact Outcome.ok hle ⟨[], [], rfl, rfl, rfl⟩
        · split
          · exact Outcome.fail _ _
          · rename_i hdefinite
            rw [not_or, not_not] at hdefinite
            obtain ⟨htype, hdefinite⟩ := hdefinite
            have hsmall : shortCount header < 28 := by
              rcases isLegal_cases hlegal with hsmall | ⟨hlarge, -⟩
              · exact hsmall
              · exact absurd (beq_iff_eq.2 hlarge) hdefinite
            refine (decodeDataDefinite_outcome true hle hsmall).bind ?_
            rintro chunk bs ⟨head, hhead, rfl⟩ hle'
            split
            · exact Outcome.fail _ _
            · refine (decodeChunks_outcome type fuel hle' (by omega)).mono ?_
              rintro ys bs ⟨chunks, inner, rfl, hchunks, rfl⟩
              rw [htype] at hhead
              refine ⟨chunk :: chunks, _, ?_, chunks_append hhead hchunks, ?_⟩
              · rw [List.reverse_cons, List.append_assoc, List.singleton_append]
              · simp only [List.cons_append, List.nil_append, List.append_assoc]

theorem decodeData_outcome (hlegal : isLegal header = true) (hptr : ptr ≤ d.src.length) :
    Outcome d (fun data bs => WrittenData (majorType header) data (header :: bs)) ptr
      (decodeData d depth header ptr) := by
  rw [decodeData]
  rcases isLegal_cases hlegal with hsmall | ⟨hlarge, -⟩
  · obtain ⟨-, hindefinite, -⟩ := header_of_small hsmall
    rw [hindefinite, if_pos (by rfl)]
    refine (decodeDataDefinite_outcome d.referenceSource hptr hsmall).mono ?_
    rintro data bs ⟨head, hhead, rfl⟩
    exact Or.inl ⟨header :: head, hhead, rfl⟩
  · have hindefinite : isIndefinite header = true := beq_iff_eq.2 hlarge
    have hheader := headerMake_eq header
    rw [hlarge] at hheader
    rw [hindefinite, if_neg (by decide)]
    refine (decodeChunks_outcome (majorType header) _ hptr (by rw [remaining]; omega)).bind ?_
    rintro ys bs ⟨chunks, inner, rfl, hchunks, rfl⟩ hle
    refine Outcome.ok hle (Or.inr ⟨chunks, inner, ?_, hchunks, ?_⟩)
    · rw [List.append_nil, rejoin_reverse]
    · rw [List.append_nil]
      exact congrArg (· :: (inner ++ [0xFF])) hheader.symm

end Strings

/-! ## Items -/

/-- A document of at most some levels for an item, with nothing in the unused bytes. -/
structure Decoded (d : Decoder) (levels : Nat) (item : Item) (bs : List UInt8) : Prop where
  written : Written (!d.rejectUnknownSimple) item bs
  depth_le : item.depth ≤ levels
  value_eq : item.value = item

theorem Decoded.ne_nil {d : Decoder} {levels : Nat} {item : Item} {bs : List UInt8}
    (h : Decoded d levels item bs) : bs ≠ [] := by
  obtain ⟨header, t, rfl, -⟩ := h.written.exists_cons
  exact List.cons_ne_nil header t

section Items

variable {d : Decoder} {levels depth ptr : Nat} {header : UInt8}
  {one : Nat → Except Stop (Item × Nat)}

theorem decodeUInt_outcome (hptr : ptr ≤ d.src.length) (hsmall : shortCount header < 28)
    (htype : majorType header = .uint) :
    Outcome d (fun item bs => Decoded d (levels + 1) item (header :: bs)) ptr
      (decodeUInt d depth header ptr) := by
  rw [decodeUInt]
  refine (readCount_outcome hptr hsmall).bind fun pos head hhead hle => ?_
  dsimp only
  split
  · exact Outcome.fail _ _
  · rename_i hfit
    obtain ⟨hpos, hto⟩ := toInt64_of_nonneg (by omega : pos < 2 ^ 63)
    rw [htype] at hhead
    refine Outcome.ok hle ⟨?_, Nat.le_add_left 1 levels, rfl⟩
    rw [List.append_nil, Written, if_pos hpos, hto]
    exact hhead

theorem decodeInt_outcome (hptr : ptr ≤ d.src.length) (hsmall : shortCount header < 28)
    (htype : majorType header = .int) :
    Outcome d (fun item bs => Decoded d (levels + 1) item (header :: bs)) ptr
      (decodeInt d depth header ptr) := by
  rw [decodeInt]
  refine (readCount_outcome hptr hsmall).bind fun neg head hhead hle => ?_
  dsimp only
  split
  · exact Outcome.fail _ _
  · rename_i hfit
    obtain ⟨hneg, hto⟩ := toInt64_of_neg (by omega : neg < 2 ^ 63)
    rw [htype] at hhead
    refine Outcome.ok hle ⟨?_, Nat.le_add_left 1 levels, rfl⟩
    rw [List.append_nil, Written, if_neg hneg, hto]
    exact hhead

theorem decoded_header {item : Item} {n : Nat}
    (hheader : header = headerMake .special (UInt8.ofNat n))
    (hwritten : Written (!d.rejectUnknownSimple) item [headerMake .special (UInt8.ofNat n)])
    (hdepth : item.depth = 1) (hvalue : item.value = item) (hptr : ptr ≤ d.src.length) :
    Outcome d (fun item bs => Decoded d (levels + 1) item (header :: bs)) ptr
      (.ok (item, ptr)) := by
  refine Outcome.ok hptr ⟨?_, by omega, hvalue⟩
  rwa [hheader]

theorem decoded_number (f : Nat → Item) {n k : Nat}
    (hheader : header = headerMake .special (UInt8.ofNat n))
    (hwritten : ∀ v < 256 ^ k, Written (!d.rejectUnknownSimple) (f v)
      (headerMake .special (UInt8.ofNat n) :: toBE k v))
    (hdepth : ∀ v, (f v).depth = 1) (hvalue : ∀ v, (f v).value = f v)
    (hptr : ptr ≤ d.src.length) :
    Outcome d (fun item bs => Decoded d (levels + 1) item (header :: bs)) ptr (do
      let (value, ptr) ← readBE d depth k ptr
      .ok (f value, ptr)) := by
  refine (readBE_outcome hptr k).bind ?_
  rintro v bs ⟨hv, rfl⟩ hle
  refine Outcome.ok hle ⟨?_, (hdepth v).trans_le (by omega), hvalue v⟩
  rw [List.append_nil, hheader]
  exact hwritten v hv

theorem decodeSimple_outcome (hptr : ptr ≤ d.src.length)
    (hheader : header = headerMake .special 24) :
    Outcome d (fun item bs => Decoded d (levels + 1) item (header :: bs)) ptr
      (decodeSimple d depth ptr) := by
  rw [decodeSimple]
  split
  · exact Outcome.fail _ _
  · rename_i hallowed
    refine (readBE_outcome hptr 1).bind ?_
    rintro v bs ⟨hv, rfl⟩ hle
    dsimp only
    split
    · exact Outcome.fail _ _
    · rename_i hlarge
      have hto : (UInt8.ofNat v).toNat = v := by
        rw [UInt8.toNat_ofNat', Nat.mod_eq_of_lt (by omega)]
      have hone : toBE 1 v = [UInt8.ofNat v] := rfl
      refine Outcome.ok hle ⟨?_, Nat.le_add_left 1 levels, rfl⟩
      rw [List.append_nil, hheader, hone, Written]
      refine ⟨by rw [Bool.not_eq_true']; exact Bool.eq_false_iff.2 hallowed, Or.inr ⟨?_, rfl⟩⟩
      rw [UInt8.le_iff_toNat_le, hto]
      exact Nat.le_of_not_lt hlarge

theorem decodeSpecial_outcome (hptr : ptr ≤ d.src.length) (hlegal : isLegal header = true)
    (htype : majorType header = .special) :
    Outcome d (fun item bs => Decoded d (levels + 1) item (header :: bs)) ptr
      (decodeSpecial d depth header ptr) := by
  have hheader := headerMake_eq header
  rw [htype] at hheader
  have hcases : shortCount header < 28 ∨ shortCount header = 31 :=
    (isLegal_cases hlegal).imp_right And.left
  rw [decodeSpecial]
  generalize shortCount header = n at hheader hcases
  split_ifs with h20 h22 h23 h24 h25 h26 h27 hless hallowed h31
  · rcases h20 with rfl | rfl
    · exact decoded_header hheader.symm rfl rfl rfl hptr
    · exact decoded_header hheader.symm rfl rfl rfl hptr
  · subst h22
    exact decoded_header hheader.symm rfl rfl rfl hptr
  · subst h23
    exact decoded_header hheader.symm rfl rfl rfl hptr
  · subst h24
    exact decodeSimple_outcome hptr hheader.symm
  · subst h25
    refine decoded_number (fun v => .float16 (UInt16.ofNat v)) hheader.symm (fun v hv => ?_)
      (fun _ => rfl) (fun _ => rfl) hptr
    have hto : (UInt16.ofNat v).toNat = v := by
      rw [UInt16.toNat_ofNat', Nat.mod_eq_of_lt (hv.trans_eq (by decide))]
    rw [Written, hto]
    rfl
  · subst h26
    refine decoded_number (fun v => .float32 (UInt32.ofNat v)) hheader.symm (fun v hv => ?_)
      (fun _ => rfl) (fun _ => rfl) hptr
    have hto : (UInt32.ofNat v).toNat = v := by
      rw [UInt32.toNat_ofNat', Nat.mod_eq_of_lt (hv.trans_eq (by decide))]
    rw [Written, hto]
    rfl
  · subst h27
    refine decoded_number (fun v => .float64 (UInt64.ofNat v)) hheader.symm (fun v hv => ?_)
      (fun _ => rfl) (fun _ => rfl) hptr
    have hto : (UInt64.ofNat v).toNat = v := by
      rw [UInt64.toNat_ofNat', Nat.mod_eq_of_lt (hv.trans_eq (by decide))]
    rw [Written, hto]
    rfl
  · exact Outcome.fail _ _
  · refine decoded_header hheader.symm ?_ rfl rfl hptr
    have hto : (UInt8.ofNat n).toNat = n := by
      rw [UInt8.toNat_ofNat', Nat.mod_eq_of_lt (by omega)]
    rw [Written]
    refine ⟨by rw [Bool.not_eq_true']; exact Bool.eq_false_iff.2 hallowed, Or.inl ⟨?_, rfl⟩⟩
    rw [UInt8.lt_iff_toNat_lt, hto]
    exact hless
  · exact Outcome.fail _ _
  · -- no legal header is left
    omega

theorem allWritten_items : ∀ {items : List Item} {inner : List UInt8},
    AllWritten (Decoded d levels) items inner →
      WrittenItems (!d.rejectUnknownSimple) items inner ∧ Item.depthItems items ≤ levels ∧
        Item.valueItems items = items
  | [], _, h => ⟨h, Nat.zero_le _, rfl⟩
  | item :: items, _, h => by
      obtain ⟨first, rest, hfirst, hrest, rfl⟩ := h
      obtain ⟨hwritten, hdepth, hvalue⟩ := allWritten_items hrest
      refine ⟨⟨first, rest, hfirst.written, hwritten, rfl⟩, ?_, ?_⟩
      · rw [Item.depthItems]
        exact max_le hfirst.depth_le hdepth
      · rw [Item.valueItems, hfirst.value_eq, hvalue]

/-- A key and its value, decoded. -/
def DecodedPair (d : Decoder) (levels : Nat) (pair : Item × Item) (bs : List UInt8) : Prop :=
  ∃ first second, Decoded d levels pair.1 first ∧ Decoded d levels pair.2 second ∧
    bs = first ++ second

theorem allWritten_pairs : ∀ {items : List (Item × Item)} {inner : List UInt8},
    AllWritten (DecodedPair d levels) items inner →
      WrittenPairs (!d.rejectUnknownSimple) items inner ∧ Item.depthPairs items ≤ levels ∧
        Item.valuePairs items = items
  | [], _, h => ⟨h, Nat.zero_le _, rfl⟩
  | (key, val) :: items, _, h => by
      obtain ⟨_, rest, ⟨first, second, hkey, hval, rfl⟩, hrest, rfl⟩ := h
      obtain ⟨hwritten, hdepth, hvalue⟩ := allWritten_pairs hrest
      refine ⟨⟨first, second, rest, hkey.written, hval.written, hwritten,
        List.append_assoc _ _ _⟩, ?_, ?_⟩
      · rw [Item.depthPairs]
        exact max_le hkey.depth_le (max_le hval.depth_le hdepth)
      · rw [Item.valuePairs, hkey.value_eq, hval.value_eq, hvalue]

section

variable (hone : ∀ p ≤ d.src.length, Outcome d (Decoded d levels) p (one p))
  (hptr : ptr ≤ d.src.length)

include hone hptr

theorem decodePair_outcome : Outcome d (DecodedPair d levels) ptr (decodePair one ptr) := by
  rw [decodePair]
  refine (hone ptr hptr).bind fun key first hkey hle => ?_
  refine (hone _ hle).bind fun val second hval hle => ?_
  refine Outcome.ok hle ⟨first, second, hkey, hval, ?_⟩
  rw [List.append_nil]

theorem decodeArray_outcome (hlegal : isLegal header = true) (htype : majorType header = .array) :
    Outcome d (fun item bs => Decoded d (levels + 1) item (header :: bs)) ptr
      (decodeArray d depth one header ptr) := by
  rw [decodeArray]
  refine (decodeContainer_outcome hone (fun _ _ h => h.ne_nil) hlegal hptr).bind ?_
  rintro items bs ⟨inner, hall, hbs⟩ hle
  obtain ⟨hwritten, hdepth, hvalue⟩ := allWritten_items hall
  rw [htype] at hbs
  refine Outcome.ok hle ⟨?_, ?_, ?_⟩
  · rw [List.append_nil, Written]
    exact ⟨inner, hwritten, hbs⟩
  · rw [Item.depth]
    omega
  · rw [Item.value, hvalue]

theorem decodeMap_outcome (hlegal : isLegal header = true) (htype : majorType header = .map) :
    Outcome d (fun item bs => Decoded d (levels + 1) item (header :: bs)) ptr
      (decodeMap d depth one header ptr) := by
  have hpos : ∀ pair bs, DecodedPair d levels pair bs → bs ≠ [] := by
    rintro pair bs ⟨first, second, hkey, -, rfl⟩ hnil
    exact hkey.ne_nil (List.append_eq_nil_iff.1 hnil).1
  rw [decodeMap]
  refine (decodeContainer_outcome (fun p hp => decodePair_outcome hone hp) hpos hlegal hptr).bind ?_
  rintro items bs ⟨inner, hall, hbs⟩ hle
  obtain ⟨hwritten, hdepth, hvalue⟩ := allWritten_pairs hall
  rw [htype] at hbs
  refine Outcome.ok hle ⟨?_, ?_, ?_⟩
  · rw [List.append_nil, Written]
    exact ⟨inner, hwritten, hbs⟩
  · rw [Item.depth]
    omega
  · rw [Item.value, hvalue]

theorem decodeTag_outcome (hsmall : shortCount header < 28) (htype : majorType header = .tag) :
    Outcome d (fun item bs => Decoded d (levels + 1) item (header :: bs)) ptr
      (decodeTag d depth one header ptr) := by
  rw [decodeTag]
  refine (readCount_outcome hptr hsmall).bind fun count head hhead hle => ?_
  refine (hone _ hle).bind fun item inner hitem hle => ?_
  obtain ⟨-, -, -, -, -, hlt, -⟩ := hhead.exists_cons
  have hto : (UInt64.ofNat count).toNat = count := by
    rw [UInt64.toNat_ofNat', Nat.mod_eq_of_lt hlt]
  rw [htype] at hhead
  refine Outcome.ok hle ⟨?_, ?_, ?_⟩
  · rw [List.append_nil, Written, hto]
    exact ⟨header :: head, inner, hhead, hitem.written, rfl⟩
  · rw [Item.depth]
    have := hitem.depth_le
    omega
  · rw [Item.value, hitem.value_eq]

theorem decodeBody_outcome (hlegal : isLegal header = true) :
    Outcome d (fun item bs => Decoded d (levels + 1) item (header :: bs)) ptr
      (decodeBody d depth one header ptr) := by
  have hcases := isLegal_cases hlegal
  rw [decodeBody]
  cases htype : majorType header with
  | uint =>
    simp only [htype, ne_eq, not_true_eq_false, false_and, and_false, or_false] at hcases
    exact decodeUInt_outcome hptr hcases htype
  | int =>
    simp only [htype, ne_eq, not_true_eq_false, false_and, and_false, or_false] at hcases
    exact decodeInt_outcome hptr hcases htype
  | bytes =>
    refine (decodeData_outcome hlegal hptr).bind fun data bs hdata hle => ?_
    rw [htype] at hdata
    refine Outcome.ok hle ⟨?_, Nat.le_add_left 1 levels, rfl⟩
    rwa [List.append_nil, Written]
  | string =>
    refine (decodeData_outcome hlegal hptr).bind fun data bs hdata hle => ?_
    rw [htype] at hdata
    refine Outcome.ok hle ⟨?_, Nat.le_add_left 1 levels, rfl⟩
    rwa [List.append_nil, Written]
  | array => exact decodeArray_outcome hone hptr hlegal htype
  | map => exact decodeMap_outcome hone hptr hlegal htype
  | tag =>
    simp only [htype, ne_eq, not_true_eq_false, and_false, or_false] at hcases
    exact decodeTag_outcome hone hptr hcases htype
  | special => exact decodeSpecial_outcome hptr hlegal htype

end

/-- **The decoder on any bytes.** -/
theorem decodeOneInto_outcome (d : Decoder) (levels : Nat) {ptr : Nat} (hptr : ptr ≤ d.src.length) :
    Outcome d (Decoded d levels) ptr (decodeOneInto d levels ptr) := by
  induction levels generalizing ptr with
  | zero =>
    rw [decodeOneInto]
    exact Outcome.fail _ _
  | succ levels ih =>
    rw [decodeOneInto]
    refine (read_outcome hptr 1).bind ?_
    rintro out bs ⟨rfl, hlen⟩ hle
    obtain ⟨header, rfl⟩ := List.length_eq_one_iff.1 hlen
    have hheader : headerOf [header] = header := rfl
    simp only [hheader]
    split
    · exact Outcome.fail _ _
    · rename_i hlegal
      rw [Bool.not_eq_true', Bool.not_eq_false] at hlegal
      exact decodeBody_outcome (fun p hp => ih hp) hle hlegal

end Items

/-! ## Documents -/

/-- The number of levels that a configuration allows. -/
def DecoderConfig.levels (config : DecoderConfig) : Nat :=
  if config.maxDepth = 0 then 128 else config.maxDepth

section Decode

variable {config : DecoderConfig} {src extra : List UInt8} {item : Item}

theorem DecoderConfig.exists_levels (config : DecoderConfig) :
    ∃ levels, config.levels = levels + 1 :=
  Nat.exists_eq_add_one.2 (by rw [DecoderConfig.levels]; split <;> omega)

theorem decodeOneInto_start {rest : List UInt8} (hsrc : (src ++ rest).length < 2 ^ 64)
    (hwritten : Written (!config.rejectUnknownSimple) item src)
    (hdepth : item.depth ≤ config.levels) :
    decodeOneInto (Decoder.init config (src ++ rest)) config.levels 0 =
      .ok (item.value, src.length) := by
  obtain ⟨levels, hlevels⟩ := config.exists_levels
  rw [hlevels] at hdepth ⊢
  have hat : At (Decoder.init config (src ++ rest)) 0 (src ++ rest) := ⟨Nat.zero_le _, rfl⟩
  rw [decodeOneInto_reads hsrc hwritten hdepth 0 rest hat, Nat.zero_add]

theorem decode_written (hsrc : src.length < 2 ^ 64)
    (hwritten : Written (!config.rejectUnknownSimple) item src)
    (hdepth : item.depth ≤ config.levels) : decode config src = .ok item.value := by
  have hone := decodeOneInto_start ((List.append_nil src).symm ▸ hsrc) hwritten hdepth
  rw [List.append_nil] at hone
  have hlevels : (Decoder.init config src).maxDepth = config.levels := rfl
  rw [decode]
  simp only [hlevels, hone, ok_bind, lt_irrefl, if_false]

/-- **The decoder** accepts the documents of at most its levels, and nothing else. -/
theorem decode_eq_ok_iff (hsrc : src.length < 2 ^ 64) :
    decode config src = .ok item ↔ Written (!config.rejectUnknownSimple) item src ∧
      item.depth ≤ config.levels ∧ item.value = item := by
  refine ⟨fun h => ?_, fun ⟨hwritten, hdepth, hvalue⟩ => ?_⟩
  · have hout := decodeOneInto_outcome (Decoder.init config src) config.levels
      (Nat.zero_le (Decoder.init config src).src.length)
    rw [decode] at h
    obtain ⟨⟨first, ptr⟩, hone, hend⟩ := bind_eq_ok.1 h
    have hone' : decodeOneInto (Decoder.init config src) config.levels 0 = .ok (first, ptr) := hone
    rw [hone'] at hout
    obtain ⟨bs, hat, hptr, hdecoded⟩ := hout
    dsimp only at hend
    split at hend
    · exact nomatch hend
    · rename_i hfull
      obtain rfl : first = item := Except.ok.inj hend
      have hall : src = bs ++ src.drop ptr := hat.2
      rw [List.drop_eq_nil_of_le (Nat.le_of_not_lt hfull), List.append_nil] at hall
      rw [hall]
      exact ⟨hdecoded.written, hdecoded.depth_le, hdecoded.value_eq⟩
  · rw [decode_written hsrc hwritten hdepth, hvalue]

theorem decode_stops (config : DecoderConfig) (src : List UInt8) :
    (∃ item, decode config src = .ok item) ∨ ∃ e, decode config src = .error (.error e) := by
  have hout := decodeOneInto_outcome (Decoder.init config src) config.levels
    (Nat.zero_le (Decoder.init config src).src.length)
  have hlevels : (Decoder.init config src).maxDepth = config.levels := rfl
  rw [decode]
  simp only [hlevels]
  match decodeOneInto (Decoder.init config src) config.levels 0, hout with
  | .error (.error e), _ => exact Or.inr ⟨e, rfl⟩
  | .ok (item, ptr), _ =>
    simp only [ok_bind]
    split
    · exact Or.inr ⟨_, rfl⟩
    · exact Or.inl ⟨item, rfl⟩

theorem decode_append (hsrc : (src ++ extra).length < 2 ^ 64)
    (h : decode config src = .ok item) (hextra : extra ≠ []) :
    decode config (src ++ extra) = .error (.error ⟨.trailingData, src.length, 0⟩) := by
  have hlen := hsrc
  rw [List.length_append] at hlen
  obtain ⟨hwritten, hdepth, hvalue⟩ := (decode_eq_ok_iff (by omega)).1 h
  have hone := decodeOneInto_start hsrc hwritten hdepth
  have hlevels : (Decoder.init config (src ++ extra)).maxDepth = config.levels := rfl
  have hpos := List.length_pos_iff.2 hextra
  rw [decode]
  simp only [hlevels, hone, ok_bind]
  rw [if_pos (by rw [List.length_append]; omega), fail]

end Decode

end OpenZL.Shared.A1cbor
