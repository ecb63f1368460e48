import OpenZL.Codecs.PrefixDecode
import OpenZL.Lib.Result
import Mathlib.Order.Nat

/-!
# Fields of the prefix decoder

On every path, the copy of a field leaves the beginning of the field before and the suffix, or is
undefined because it leaves the output.

Principal results: `copyField_spec`, `decodeFields_spec`, `decodePrefix_spec`.
-/

namespace OpenZL.Codecs.Prefix

open OpenZL.Lib OpenZL.Codecs.Copy

/-- Behind `fields`, the last of which is `prev`: the output has them one behind the other, and the
register, where one is used, has the beginning of the last. -/
structure Decoded (path : Path) (outSize : Nat) (fields : List (List UInt8)) (prev : List UInt8)
    (s : State) : Prop where
  length_out : s.out.length = outSize
  currOut_eq : s.currOut = fields.flatten.length
  currOut_le : s.currOut ≤ outSize
  take_out : s.out.take s.currOut = fields.flatten
  fieldSizes_eq : s.fieldSizes = fields.map List.length
  prevFieldSize_eq : s.prevFieldSize = prev.length
  prevOut_add : s.prevOut + prev.length = s.currOut
  read_prev : Buffer.read s.out s.prevOut prev.length = prev
  prev_le : prev.length ≤ s.suffixPos
  length_vec : path = .avx2 → s.vec.length = 32
  take_vec : path = .avx2 → s.vec.take prev.length = prev.take 32

/-- The suffix bytes that must lie behind a field. -/
def slack : Path → Nat
  | .fallback => 0
  | .portable => 32
  | .avx2 => 32

/-- The field that is described behind `prev`. -/
def nextField (suffixes : List UInt8) (e : Element) (s : State) (prev : List UInt8) : List UInt8 :=
  prev.take e.matchSize ++ Buffer.read suffixes s.suffixPos e.eltWidth

section CopyField

variable {path : Path} {outSize : Nat} {fields : List (List UInt8)} {prev suffixes : List UInt8}
  {s : State} {e : Element}

theorem Decoded.read_match (h : Decoded path outSize fields prev s)
    (hmatch : e.matchSize ≤ prev.length) :
    Buffer.read s.out s.prevOut e.matchSize = prev.take e.matchSize := by
  have hread := congrArg (List.take e.matchSize) h.read_prev
  rwa [Buffer.read_eq, List.take_take, Nat.min_eq_left hmatch] at hread

theorem Decoded.memcpy_match (h : Decoded path outSize fields prev s)
    (hmatch : e.matchSize ≤ prev.length) :
    memcpy s.out s.currOut none s.prevOut e.matchSize =
      Buffer.store s.out s.currOut (prev.take e.matchSize) := by
  have hadd := h.prevOut_add
  have hle := h.currOut_le
  have hlen := h.length_out
  rw [memcpy_within (Or.inr (Or.inl (by omega))) (by omega), h.read_match hmatch]

theorem length_nextField (hmatch : e.matchSize ≤ prev.length)
    (hroom : s.suffixPos + e.eltWidth ≤ suffixes.length) :
    (nextField suffixes e s prev).length = e.size := by
  rw [nextField, List.length_append, List.length_take, Nat.min_eq_left hmatch,
    Buffer.length_read hroom, Element.size]

/-! ## Copying a suffix -/

theorem wildcopy_suffix {out xs : List UInt8} {pos n ip length : Nat}
    (hfit : pos + xs.length ≤ out.length) (hn : n ≤ xs.length)
    (hip : ip + length + 32 ≤ suffixes.length) :
    (out.length < pos + (n + wildLength length) →
      wildcopy (Buffer.write out pos xs) (pos + n) (some suffixes) ip length = none) ∧
    (pos + (n + wildLength length) ≤ out.length → ∃ ys,
      wildcopy (Buffer.write out pos xs) (pos + n) (some suffixes) ip length =
        some (Buffer.write out pos (Buffer.write xs n ys)) ∧
      ys.length = wildLength length ∧ ys.take length = Buffer.read suffixes ip length) := by
  have hlen := Buffer.length_write hfit
  constructor
  · intro hleave
    exact wildcopy_eq_none nofun (by omega) (by omega)
  · intro hin
    have hsrc : ip + wildLength length ≤ suffixes.length := by
      have := wildLength_le (Nat.le_refl (length + 32))
      omega
    obtain ⟨ys, hrun, hys, htake⟩ := @wildcopy_spec (some suffixes) (Buffer.write out pos xs)
      (pos + n) ip length nofun (by omega) fun _ => hsrc
    rw [Buffer.write_write_at hfit hn] at hrun
    exact ⟨ys, hrun, hys, htake nofun⟩

/-- What the copy of a field leaves. -/
structure Copied (suffixes : List UInt8) (path : Path) (e : Element) (s : State)
    (prev : List UInt8) (r : Option (List UInt8 × List UInt8)) : Prop where
  leaves : s.out.length < s.currOut + reach path e → r = none
  stays : s.currOut + reach path e ≤ s.out.length →
    ∃ xs vec, r = some (Buffer.write s.out s.currOut xs, vec) ∧ xs.length = reach path e ∧
      (e.size < 2 ^ 32 → e.size ≤ xs.length ∧ xs.take e.size = nextField suffixes e s prev ∧
        (path = .avx2 → vec.length = 32 ∧
          vec.take e.size = (nextField suffixes e s prev).take 32))

theorem copyField_fallback (h : Decoded .fallback outSize fields prev s)
    (hmatch : e.matchSize ≤ prev.length)
    (hroom : s.suffixPos + e.eltWidth ≤ suffixes.length) :
    Copied suffixes .fallback e s prev (copyField suffixes .fallback e s) := by
  have htake : (prev.take e.matchSize).length = e.matchSize := by
    rw [List.length_take, Nat.min_eq_left hmatch]
  have hread : (Buffer.read suffixes s.suffixPos e.eltWidth).length = e.eltWidth :=
    Buffer.length_read hroom
  have hreach : reach .fallback e = e.matchSize + e.eltWidth := rfl
  rw [copyField, h.memcpy_match hmatch]
  constructor
  · intro hleave
    by_cases hin : s.currOut + e.matchSize ≤ s.out.length
    · have hfit : s.currOut + (prev.take e.matchSize).length ≤ s.out.length := by omega
      have hwrite := Buffer.length_write hfit
      rw [Buffer.store_of_le hfit, Option.bind_eq_bind, Option.bind_some, memcpy_other hroom,
        Buffer.store_of_lt (by omega)]
      rfl
    · rw [Buffer.store_of_lt (by omega)]
      rfl
  · intro hin
    have hfit : s.currOut + (prev.take e.matchSize).length ≤ s.out.length := by omega
    have hwrite := Buffer.length_write hfit
    refine ⟨nextField suffixes e s prev, s.vec, ?_, length_nextField hmatch hroom, fun _ => ?_⟩
    · have hsecond := Buffer.write_write hfit (Buffer.read suffixes s.suffixPos e.eltWidth)
      rw [htake] at hsecond
      rw [Buffer.store_of_le hfit, Option.bind_eq_bind, Option.bind_some, memcpy_other hroom,
        Buffer.store_of_le (by omega), hsecond]
      rfl
    · have hsize := length_nextField hmatch hroom
      exact ⟨hsize.ge, by rw [← hsize, List.take_length], nofun⟩

theorem copyField_portable (h : Decoded .portable outSize fields prev s)
    (hmatch : e.matchSize ≤ prev.length)
    (hroom : s.suffixPos + e.eltWidth + 32 ≤ suffixes.length) :
    Copied suffixes .portable e s prev (copyField suffixes .portable e s) := by
  have htake : (prev.take e.matchSize).length = e.matchSize := by
    rw [List.length_take, Nat.min_eq_left hmatch]
  have hreach : reach .portable e = e.matchSize + wildLength e.eltWidth := rfl
  rw [copyField, h.memcpy_match hmatch]
  constructor
  · intro hleave
    by_cases hin : s.currOut + e.matchSize ≤ s.out.length
    · have hfit : s.currOut + (prev.take e.matchSize).length ≤ s.out.length := by omega
      rw [Buffer.store_of_le hfit, Option.bind_eq_bind, Option.bind_some,
        (wildcopy_suffix hfit htake.ge hroom).1 (by omega)]
      rfl
    · rw [Buffer.store_of_lt (by omega)]
      rfl
  · intro hin
    have hfit : s.currOut + (prev.take e.matchSize).length ≤ s.out.length := by omega
    obtain ⟨ys, hrun, hys, hread⟩ := (wildcopy_suffix hfit htake.ge hroom).2 (by omega)
    have hxs : Buffer.write (prev.take e.matchSize) e.matchSize ys =
        prev.take e.matchSize ++ ys := by
      rw [Buffer.write, List.take_of_length_le htake.le, List.drop_eq_nil_of_le (by omega),
        List.append_nil]
    have hwild := le_wildLength e.eltWidth
    refine ⟨prev.take e.matchSize ++ ys, s.vec, ?_, ?_, fun _ => ⟨?_, ?_, fun h => by cases h⟩⟩
    · rw [Buffer.store_of_le hfit, Option.bind_eq_bind, Option.bind_some, hrun, hxs]
      rfl
    · rw [List.length_append, htake, hys, hreach]
    · rw [List.length_append, htake, hys, Element.size]
      omega
    · rw [Element.size, List.take_append, htake, List.take_of_length_le (by omega),
        Nat.add_sub_cancel_left, hread, nextField]

theorem copyField_short (h : Decoded .avx2 outSize fields prev s)
    (hmatch : e.matchSize ≤ prev.length) (hshort : e.matchSize ≤ 32)
    (hroom : s.suffixPos + e.eltWidth + 32 ≤ suffixes.length) :
    Copied suffixes .avx2 e s prev (copyField suffixes .avx2 e s) := by
  have hprev := h.prev_le
  have hload : s.suffixPos - e.matchSize + 32 ≤ suffixes.length := by omega
  have hdata : (Buffer.read suffixes (s.suffixPos - e.matchSize) 32).length = 32 :=
    Buffer.length_read hload
  have hmatchVec : s.vec.take e.matchSize = prev.take e.matchSize := by
    have hvec := congrArg (List.take e.matchSize) (h.take_vec rfl)
    rwa [List.take_take, List.take_take, Nat.min_eq_left hmatch, Nat.min_eq_left hshort] at hvec
  have hdrop : (Buffer.read suffixes (s.suffixPos - e.matchSize) 32).drop e.matchSize =
      Buffer.read suffixes s.suffixPos (32 - e.matchSize) := by
    rw [Buffer.read_eq, List.drop_take, List.drop_drop, Buffer.read_eq,
      show s.suffixPos - e.matchSize + e.matchSize = s.suffixPos by omega]
  -- the register: the match, then suffixes from this one on
  obtain ⟨vec, hvec⟩ : ∃ vec, vec = prev.take e.matchSize ++
      Buffer.read suffixes s.suffixPos (32 - e.matchSize) := ⟨_, rfl⟩
  have hblend : blendv s.vec (Buffer.read suffixes (s.suffixPos - e.matchSize) 32)
      (blendMasks e.matchSize) = vec := by
    rw [blendv_blendMasks (h.length_vec rfl) hdata hshort, hmatchVec, hdrop, hvec]
  have htake : (prev.take e.matchSize).length = e.matchSize := by
    rw [List.length_take, Nat.min_eq_left hmatch]
  have hlenVec : vec.length = 32 := by
    rw [hvec, List.length_append, htake, Buffer.length_read (by omega)]
    omega
  have hbegin : ∀ n, n ≤ 32 - e.matchSize →
      vec.take (e.matchSize + n) = prev.take e.matchSize ++ Buffer.read suffixes s.suffixPos n := by
    intro n hn
    rw [hvec, List.take_append, htake, List.take_of_length_le (by omega), Nat.add_sub_cancel_left,
      Buffer.read_eq, List.take_take, Nat.min_eq_left hn, Buffer.read_eq]
  have hsize : e.size = e.matchSize + e.eltWidth := rfl
  have hreach : reach .avx2 e =
      if e.size % 2 ^ 32 > 32 then 32 + wildLength (e.size % 2 ^ 32 - 32) else 32 := if_pos hshort
  rw [copyField, if_pos hshort, if_pos (by omega), Buffer.load_of_le hload, Option.bind_eq_bind,
    Option.bind_some]
  dsimp only
  rw [hblend]
  constructor
  · intro hleave
    by_cases hin : s.currOut + vec.length ≤ s.out.length
    · by_cases hlong : e.size % 2 ^ 32 > 32
      · rw [if_pos hlong] at hreach
        have hwidth := e.eltWidth_lt
        rw [Buffer.store_of_le hin, Option.bind_some, if_pos hlong,
          (wildcopy_suffix hin hlenVec.ge (by omega)).1 (by omega)]
        rfl
      · rw [if_neg hlong] at hreach
        omega
    · rw [Buffer.store_of_lt (by omega)]
      rfl
  · intro hin
    by_cases hlong : e.size % 2 ^ 32 > 32
    · rw [if_pos hlong] at hreach
      have hwidth := e.eltWidth_lt
      have hfit : s.currOut + vec.length ≤ s.out.length := by omega
      have hlt : e.size < 2 ^ 32 := by omega
      have hmod : e.size % 2 ^ 32 = e.size := Nat.mod_eq_of_lt hlt
      rw [hmod] at hlong hreach
      obtain ⟨ys, hrun, hys, hread⟩ := (@wildcopy_suffix suffixes s.out vec s.currOut 32
        (s.suffixPos + (e.eltWidth - (e.size - 32))) (e.size - 32) hfit hlenVec.ge (by omega)).2
        (by omega)
      have hxs : Buffer.write vec 32 ys = vec ++ ys := by
        rw [Buffer.write, List.take_of_length_le hlenVec.le, List.drop_eq_nil_of_le (by omega),
          List.append_nil]
      have hwild := le_wildLength (e.size - 32)
      have hfield : (vec ++ ys).take e.size = nextField suffixes e s prev := by
        have hpos : s.suffixPos + (e.eltWidth - (e.size - 32)) =
            s.suffixPos + (32 - e.matchSize) := by omega
        rw [List.take_append, hlenVec, List.take_of_length_le (by omega), hread, hpos, hvec,
          List.append_assoc, ← Buffer.read_add, nextField,
          show 32 - e.matchSize + (e.size - 32) = e.eltWidth by omega]
      refine ⟨vec ++ ys, vec, ?_, ?_, fun _ => ⟨?_, hfield, fun _ => ⟨hlenVec, ?_⟩⟩⟩
      · rw [Buffer.store_of_le hfit, Option.bind_some, if_pos (by rw [hmod]; exact hlong), hmod,
          hrun, hxs]
        rfl
      · rw [List.length_append, hlenVec, hys, hreach]
      · rw [List.length_append, hlenVec, hys]
        omega
      · rw [← hfield, List.take_take, Nat.min_eq_left (by omega), List.take_of_length_le (by omega),
          List.take_left' hlenVec]
    · rw [if_neg hlong] at hreach
      have hfit : s.currOut + vec.length ≤ s.out.length := by omega
      refine ⟨vec, vec, ?_, by rw [hlenVec, hreach], fun hlt => ?_⟩
      · rw [Buffer.store_of_le hfit, Option.bind_some, if_neg hlong]
      · have hmod : e.size % 2 ^ 32 = e.size := Nat.mod_eq_of_lt hlt
        rw [hmod] at hlong
        have hfield : vec.take e.size = nextField suffixes e s prev :=
          hbegin e.eltWidth (by omega)
        refine ⟨by omega, hfield, fun _ => ⟨hlenVec, ?_⟩⟩
        rw [← hfield, List.take_take, Nat.min_eq_right (by omega)]

theorem copyField_long (h : Decoded .avx2 outSize fields prev s)
    (hmatch : e.matchSize ≤ prev.length) (hlong : 32 < e.matchSize)
    (hroom : s.suffixPos + e.eltWidth + 32 ≤ suffixes.length) :
    Copied suffixes .avx2 e s prev (copyField suffixes .avx2 e s) := by
  have hle := h.currOut_le
  have hlen := h.length_out
  have hadd := h.prevOut_add
  have hapart : (none : Option (List UInt8)).isNone → s.prevOut + 16 ≤ s.currOut :=
    fun _ => by omega
  have hreach : reach .avx2 e =
      max (wildLength e.matchSize) (e.matchSize + wildLength e.eltWidth) :=
    if_neg (Nat.not_le.2 hlong)
  have hwildM := le_wildLength e.matchSize
  have hwildW := le_wildLength e.eltWidth
  have hsize : e.size = e.matchSize + e.eltWidth := rfl
  rw [copyField, if_neg (Nat.not_le.2 hlong)]
  by_cases hin : s.currOut + wildLength e.matchSize ≤ s.out.length
  · obtain ⟨xs, hrun, hxs, htake⟩ :=
      @wildcopy_spec none s.out s.currOut s.prevOut e.matchSize hapart hin nofun
    have hfit : s.currOut + xs.length ≤ s.out.length := by omega
    have hn : e.matchSize ≤ xs.length := by omega
    have hmatched : xs.take e.matchSize = prev.take e.matchSize := by
      rw [htake fun _ => by omega, Option.getD_none, h.read_match hmatch]
    have hprefix : (prev.take e.matchSize).length = e.matchSize := by
      rw [List.length_take, Nat.min_eq_left hmatch]
    rw [hrun, Option.bind_eq_bind, Option.bind_some]
    constructor
    · intro hleave
      rw [(wildcopy_suffix hfit hn hroom).1 (by omega)]
      rfl
    · intro hin'
      obtain ⟨ys, hrun', hys, hread⟩ := (wildcopy_suffix hfit hn hroom).2 (by omega)
      have hlenWrite : (Buffer.write xs e.matchSize ys).length = reach .avx2 e := by
        rw [Buffer.write, hmatched, List.length_append, List.length_append, hprefix,
          List.length_drop, hys, hxs, hreach]
        omega
      have hfield : (Buffer.write xs e.matchSize ys).take e.size = nextField suffixes e s prev := by
        rw [hsize, Buffer.take_write hn (by omega), hmatched, hread, nextField]
      refine ⟨Buffer.write xs e.matchSize ys, s.vec, by rw [hrun', Option.bind_some], hlenWrite,
        fun _ => ⟨by omega, hfield, fun _ => ⟨h.length_vec rfl, ?_⟩⟩⟩
      have hvec := h.take_vec rfl
      rw [List.take_of_length_le (by rw [h.length_vec rfl]; omega)] at hvec
      rw [List.take_of_length_le (by rw [h.length_vec rfl]; omega), hvec, nextField,
        List.take_append_of_le_length (by omega), List.take_take, Nat.min_eq_left (by omega)]
  · constructor
    · intro _
      rw [wildcopy_eq_none hapart (by omega) (by omega)]
      rfl
    · intro hin'
      omega

/-- **The copy of a field**, on every path. -/
theorem copyField_spec (h : Decoded path outSize fields prev s)
    (hmatch : e.matchSize ≤ prev.length)
    (hroom : s.suffixPos + e.eltWidth + slack path ≤ suffixes.length) :
    Copied suffixes path e s prev (copyField suffixes path e s) := by
  cases path with
  | fallback => exact copyField_fallback h hmatch hroom
  | portable => exact copyField_portable h hmatch hroom
  | avx2 =>
    rcases Nat.lt_or_ge 32 e.matchSize with hlong | hshort
    · exact copyField_long h hmatch hlong hroom
    · exact copyField_short h hmatch hshort hroom

theorem Decoded.next {xs vec : List UInt8} (h : Decoded path outSize fields prev s)
    (hmatch : e.matchSize ≤ prev.length)
    (hroom : s.suffixPos + e.eltWidth ≤ suffixes.length) (hlt : e.size < 2 ^ 32)
    (hfit : s.currOut + xs.length ≤ s.out.length) (hsize : e.size ≤ xs.length)
    (hfield : xs.take e.size = nextField suffixes e s prev)
    (hvec : path = .avx2 →
      vec.length = 32 ∧ vec.take e.size = (nextField suffixes e s prev).take 32) :
    Decoded path outSize (fields ++ [nextField suffixes e s prev]) (nextField suffixes e s prev)
      { out := Buffer.write s.out s.currOut xs
        fieldSizes := s.fieldSizes ++ [e.size % 2 ^ 32]
        suffixPos := s.suffixPos + e.eltWidth
        prevOut := s.currOut
        currOut := s.currOut + e.size % 2 ^ 32
        prevFieldSize := e.size % 2 ^ 32
        vec := vec } := by
  have hmod : e.size % 2 ^ 32 = e.size := Nat.mod_eq_of_lt hlt
  have hlen := length_nextField hmatch hroom
  have hcurr := h.currOut_eq
  have hout := h.length_out
  rw [hmod]
  constructor
  · exact (Buffer.length_write hfit).trans hout
  · simp only [List.flatten_append, List.flatten_singleton, List.length_append]
    rw [hlen, hcurr]
  · show s.currOut + e.size ≤ outSize
    omega
  · simp only [List.flatten_append, List.flatten_singleton]
    rw [Buffer.take_write (by omega) hsize, h.take_out, hfield]
  · simp only [List.map_append, List.map_singleton]
    rw [h.fieldSizes_eq, hlen]
  · exact hlen.symm
  · show s.currOut + (nextField suffixes e s prev).length = s.currOut + e.size
    rw [hlen]
  · have hread := Buffer.read_write_prefix (by omega : s.currOut ≤ s.out.length)
      (nextField suffixes e s prev) (xs.drop e.size)
    rwa [← hfield, List.take_append_drop, hfield] at hread
  · show (nextField suffixes e s prev).length ≤ s.suffixPos + e.eltWidth
    have hprev := h.prev_le
    rw [hlen, Element.size]
    omega
  · exact fun hpath => (hvec hpath).1
  · intro hpath
    rw [hlen]
    exact (hvec hpath).2

/-! ## Fields -/

/-- How a field may end. -/
inductive FieldEnds (suffixes : List UInt8) (path : Path) (outSize : Nat)
    (fields : List (List UInt8)) (prev : List UInt8) (e : Element) (s : State) :
    Except Stop State → Prop
  | long (h : e.matchSize > prev.length) :
      FieldEnds suffixes path outSize fields prev e s (.error .corruption)
  | leaves (h : e.matchSize ≤ prev.length) (hleave : outSize < s.currOut + reach path e) :
      FieldEnds suffixes path outSize fields prev e s (.error .undefined)
  | overflow (h : e.matchSize ≤ prev.length) (hfit : s.currOut + reach path e ≤ outSize)
      (hsize : e.size ≥ 2 ^ 32) :
      FieldEnds suffixes path outSize fields prev e s (.error .corruption)
  | ok {s' : State} (h : e.matchSize ≤ prev.length) (hfit : s.currOut + reach path e ≤ outSize)
      (hsize : e.size < 2 ^ 32)
      (hdecoded : Decoded path outSize (fields ++ [nextField suffixes e s prev])
        (nextField suffixes e s prev) s')
      (hsuffix : s'.suffixPos = s.suffixPos + e.eltWidth)
      (hcurr : s'.currOut = s.currOut + e.size) :
      FieldEnds suffixes path outSize fields prev e s (.ok s')

theorem decodeField_spec (h : Decoded path outSize fields prev s)
    (hroom : s.suffixPos + e.eltWidth + slack path ≤ suffixes.length) :
    FieldEnds suffixes path outSize fields prev e s (decodeField suffixes path e s) := by
  have hsize := h.prevFieldSize_eq
  have hout := h.length_out
  rw [decodeField, hsize]
  by_cases hmatch : e.matchSize > prev.length
  · rw [if_pos hmatch]
    exact .long hmatch
  · rw [if_neg hmatch]
    have hle := Nat.le_of_not_lt hmatch
    have hcopied := copyField_spec h hle hroom
    rcases Nat.lt_or_ge outSize (s.currOut + reach path e) with hleave | hfit
    · rw [hcopied.leaves (by omega)]
      exact .leaves hle hleave
    · obtain ⟨xs, vec, hrun, hxs, hright⟩ := hcopied.stays (by omega)
      rw [hrun]
      dsimp only
      by_cases hbig : e.size ≥ 2 ^ 32
      · rw [if_pos hbig]
        exact .overflow hle hfit hbig
      · rw [if_neg hbig]
        have hlt := Nat.lt_of_not_le hbig
        obtain ⟨hlen, hfield, hvec⟩ := hright hlt
        exact .ok hle hfit hlt
          (h.next hle (by omega) hlt (by omega) hlen hfield hvec) rfl
          (congrArg (s.currOut + ·) (Nat.mod_eq_of_lt hlt))

end CopyField

/-- `Bad`, for the fields behind a field of `prevFieldSize` bytes. -/
def BadFrom : List Element → Nat → Prop
  | [], _ => False
  | e :: elts, prevFieldSize =>
      e.matchSize > prevFieldSize ∨ e.size ≥ 2 ^ 32 ∨ BadFrom elts e.size

/-- The suffixes of some fields. -/
def widths (elts : List Element) : Nat := (elts.map Element.eltWidth).sum

theorem widths_cons (e : Element) (elts : List Element) :
    widths (e :: elts) = e.eltWidth + widths elts := by
  rw [widths, List.map_cons, List.sum_cons, widths]

/-- How a loop over `elts` may end, when `later` and what is copied for it come behind. -/
inductive FieldsEnd (suffixes : List UInt8) (path : Path) (outSize : Nat)
    (fields : List (List UInt8)) (prev : List UInt8) (elts later : List Element)
    (plan : List (Path × Element)) (s : State) : Except Stop State → Prop
  | leaves (h : ¬FitsFrom outSize (elts.map (fun e => (path, e)) ++ plan) prev.length s.currOut) :
      FieldsEnd suffixes path outSize fields prev elts later plan s (.error .undefined)
  | bad (h : FitsFrom outSize (elts.map (fun e => (path, e)) ++ plan) prev.length s.currOut)
      (hbad : BadFrom (elts ++ later) prev.length) :
      FieldsEnd suffixes path outSize fields prev elts later plan s (.error .corruption)
  | ok {s' : State} {new : List (List UInt8)} {last : List UInt8}
      (hdecoded : Decoded path outSize (fields ++ new) last s')
      (hsuffix : s'.suffixPos = s.suffixPos + widths elts)
      (hfields : plainFields (suffixes.drop s.suffixPos) (elts ++ later) prev =
        new ++ plainFields (suffixes.drop s'.suffixPos) later last)
      (hbad : BadFrom (elts ++ later) prev.length ↔ BadFrom later last.length)
      (hfits : FitsFrom outSize (elts.map (fun e => (path, e)) ++ plan) prev.length s.currOut ↔
        FitsFrom outSize plan last.length s'.currOut) :
      FieldsEnd suffixes path outSize fields prev elts later plan s (.ok s')

section Fields

variable {path : Path} {outSize : Nat} {suffixes : List UInt8}

/-- **A loop over fields** ends at the first bad one, and is undefined where it leaves the output
before. -/
theorem decodeFields_spec (later : List Element) (plan : List (Path × Element))
    (elts : List Element) : ∀ {fields : List (List UInt8)} {prev : List UInt8} {s : State},
      Decoded path outSize fields prev s →
      (elts ≠ [] → s.suffixPos + widths elts + slack path ≤ suffixes.length) →
        FieldsEnd suffixes path outSize fields prev elts later plan s
          (decodeFields suffixes path elts s) := by
  induction elts with
  | nil =>
    intro fields prev s h _
    have hdecoded : Decoded path outSize (fields ++ []) prev s := by rwa [List.append_nil]
    refine FieldsEnd.ok hdecoded ?_ rfl Iff.rfl Iff.rfl
    · rw [widths, List.map_nil, List.sum_nil, Nat.add_zero]
  | cons e elts ih =>
    intro fields prev s h hroom
    have hroom := hroom (List.cons_ne_nil e elts)
    rw [widths_cons] at hroom
    have hplan : ((e :: elts).map fun e => (path, e)) ++ plan =
        (path, e) :: (elts.map (fun e => (path, e)) ++ plan) := rfl
    rw [decodeFields]
    have hfield := @decodeField_spec path outSize fields prev suffixes s e h (by omega)
    cases hrun : decodeField suffixes path e s with
    | error stop =>
      rw [hrun] at hfield
      cases hfield with
      | long hmatch =>
        refine .bad ?_ (Or.inl hmatch)
        rw [hplan]
        exact fun hle => absurd hmatch (Nat.not_lt.2 hle)
      | leaves hmatch hleave =>
        refine .leaves fun hfits => ?_
        have := (hfits hmatch).1
        omega
      | overflow hmatch hfit hsize =>
        refine .bad ?_ (Or.inr (Or.inl hsize))
        rw [hplan]
        exact fun _ => ⟨hfit, fun hlt => absurd hsize (Nat.not_le.2 hlt)⟩
    | ok s₁ =>
      rw [hrun] at hfield
      obtain ⟨⟩ | ⟨⟩ | ⟨⟩ | ⟨hmatch, hfit, hsize, hdecoded, hsuffix, hcurr⟩ := hfield
      have hlen : (nextField suffixes e s prev).length = e.size :=
        length_nextField hmatch (by omega)
      have hplain : plainFields (suffixes.drop s.suffixPos) (e :: elts ++ later) prev =
          nextField suffixes e s prev ::
            plainFields (suffixes.drop s₁.suffixPos) (elts ++ later)
              (nextField suffixes e s prev) := by
        rw [hsuffix, ← List.drop_drop]
        rfl
      have hbad : BadFrom (e :: elts ++ later) prev.length ↔
          BadFrom (elts ++ later) (nextField suffixes e s prev).length := by
        rw [hlen]
        refine ⟨?_, fun h' => Or.inr (Or.inr h')⟩
        rintro (h' | h' | h')
        · omega
        · omega
        · exact h'
      have hfits : FitsFrom outSize ((e :: elts).map (fun e => (path, e)) ++ plan) prev.length
          s.currOut ↔ FitsFrom outSize (elts.map (fun e => (path, e)) ++ plan)
            (nextField suffixes e s prev).length s₁.currOut := by
        rw [hplan, hlen, hcurr]
        exact ⟨fun h' => (h' hmatch).2 hsize, fun h' _ => ⟨hfit, fun _ => h'⟩⟩
      have hrest := @ih _ _ s₁ hdecoded fun _ => by omega
      show FieldsEnd suffixes path outSize fields prev (e :: elts) later plan s
        (decodeFields suffixes path elts s₁)
      cases hrest' : decodeFields suffixes path elts s₁ with
      | error stop =>
        rw [hrest'] at hrest
        cases hrest with
        | leaves h' => exact .leaves fun h'' => h' (hfits.1 h'')
        | bad h' hbad' => exact .bad (hfits.2 h') (hbad.2 hbad')
      | ok s₂ =>
        rw [hrest'] at hrest
        obtain ⟨⟩ | ⟨⟩ | ⟨hdecoded', hsuffix', hfields', hbad', hfits'⟩ := hrest
        rw [List.append_assoc] at hdecoded'
        refine .ok hdecoded' ?_ ?_ (hbad.trans hbad') (hfits.trans hfits')
        · rw [hsuffix', hsuffix, widths_cons, Nat.add_assoc]
        · rw [hplain, hfields']
          rfl

end Fields

/-! ## Sizes -/

theorem badFrom_iff (elts : List Element) : ∀ prevFieldSize : Nat,
    BadFrom elts prevFieldSize ↔ ∃ i e, elts[i]? = some e ∧
      (e.matchSize > (prevFieldSize :: elts.map Element.size).getD i 0 ∨ e.size ≥ 2 ^ 32) := by
  induction elts with
  | nil =>
    intro prevFieldSize
    refine ⟨False.elim, ?_⟩
    rintro ⟨i, e, he, -⟩
    rw [List.getElem?_nil] at he
    cases he
  | cons e elts ih =>
    intro prevFieldSize
    rw [BadFrom, ih e.size]
    constructor
    · rintro (h | h | ⟨i, e', he', h⟩)
      · exact ⟨0, e, rfl, Or.inl h⟩
      · exact ⟨0, e, rfl, Or.inr h⟩
      · exact ⟨i + 1, e', he', h⟩
    · rintro ⟨i, e', he', h⟩
      cases i with
      | zero =>
        obtain rfl := Option.some.inj he'
        exact h.imp_right Or.inl
      | succ i => exact Or.inr (Or.inr ⟨i, e', he', h⟩)

theorem bad_iff (elts : List Element) : Bad elts ↔ BadFrom elts 0 := (badFrom_iff elts 0).symm

theorem length_plainFields (elts : List Element) : ∀ {suffixes prev : List UInt8},
    ¬BadFrom elts prev.length → widths elts ≤ suffixes.length →
      (plainFields suffixes elts prev).map List.length = elts.map Element.size := by
  induction elts with
  | nil =>
    intro suffixes prev _ _
    rfl
  | cons e elts ih =>
    intro suffixes prev hbad hroom
    rw [widths_cons] at hroom
    rw [BadFrom, not_or, not_or] at hbad
    have hlen : (prev.take e.matchSize ++ suffixes.take e.eltWidth).length = e.size := by
      rw [List.length_append, List.length_take, List.length_take, Element.size]
      omega
    rw [plainFields, List.map_cons, List.map_cons, hlen, ih]
    · rw [hlen]
      exact hbad.2.2
    · rw [List.length_drop]
      omega

theorem foldl_add_mod (ms : List Nat) : ∀ acc : Nat,
    ms.foldl (fun dstSize matchSize => (dstSize + matchSize) % 2 ^ 64) (acc % 2 ^ 64) =
      (acc + ms.sum) % 2 ^ 64 := by
  induction ms with
  | nil =>
    intro acc
    rw [List.foldl_nil, List.sum_nil, Nat.add_zero]
  | cons m ms ih =>
    intro acc
    rw [List.foldl_cons, Nat.mod_add_mod, ih, List.sum_cons, Nat.add_assoc]

/-- The bytes of all fields. -/
def totalSize (elts : List Element) : Nat := (elts.map Element.size).sum

theorem totalSize_eq (elts : List Element) :
    totalSize elts = widths elts + (elts.map Element.matchSize).sum := by
  induction elts with
  | nil => rfl
  | cons e elts ih =>
    rw [totalSize, List.map_cons, List.sum_cons, ← totalSize, ih, widths_cons, List.map_cons,
      List.sum_cons, Element.size]
    omega

theorem outSize_eq (input : Input) : input.outSize = totalSize input.elts % 2 ^ 64 := by
  rw [Input.outSize, calcOriginalPrefixSize, foldl_add_mod, totalSize_eq, widths]

theorem nbWildcopies_spec (ws : List Nat) (n : Nat) : ∀ {suffixSum : Nat},
    n ≤ ws.length → suffixSum = (ws.drop n).sum →
      nbWildcopies ws n suffixSum = 0 ∨
        32 ≤ (ws.drop (nbWildcopies ws n suffixSum)).sum := by
  induction n with
  | zero =>
    intro suffixSum _ _
    exact Or.inl rfl
  | succ n ih =>
    intro suffixSum hn hsum
    rw [nbWildcopies]
    by_cases hfew : suffixSum < ZS_WILDCOPY_OVERLENGTH
    · rw [if_pos hfew]
      refine ih (by omega) ?_
      rw [List.drop_eq_getElem_cons (by omega), List.sum_cons, hsum,
        List.getD_eq_getElem?_getD, List.getElem?_eq_getElem (by omega), Option.getD_some,
        Nat.add_comm]
    · rw [if_neg hfew, ← hsum]
      exact Or.inr (Nat.le_of_not_lt hfew)

theorem widths_take_add (elts : List Element) (n : Nat) :
    widths (elts.take n) + widths (elts.drop n) = widths elts := by
  rw [widths, widths, ← List.sum_append, ← List.map_append, List.take_append_drop, widths]

theorem Input.room (input : Input) (avx2 : Bool) (h : input.elts.take input.nbWildcopies ≠ []) :
    widths (input.elts.take input.nbWildcopies) + slack (wildPath avx2) ≤
      input.suffixes.length := by
  have hslack : slack (wildPath avx2) = 32 := by
    cases avx2 <;> rfl
  have hspec := @nbWildcopies_spec (input.elts.map Element.eltWidth) input.elts.length 0
    (List.length_map _).ge (by rw [List.drop_of_length_le (by simp)]; rfl)
  have hsum := widths_take_add input.elts input.nbWildcopies
  have hlen : input.suffixes.length = widths input.elts := input.length_suffixes
  rcases hspec with hzero | hmany
  · refine absurd ?_ h
    rw [Input.nbWildcopies, hzero, List.take_zero]
  · rw [← List.map_drop] at hmany
    have : 32 ≤ widths (input.elts.drop input.nbWildcopies) := hmany
    omega

/-- **How the decoder ends.** -/
theorem decodePrefix_spec (avx2 : Bool) (input : Input) {out : List UInt8}
    (hout : out.length = input.outSize) :
    (¬Fits avx2 input → decodePrefix avx2 input out = .error .undefined) ∧
    (Fits avx2 input → Bad input.elts → decodePrefix avx2 input out = .error .corruption) ∧
    (Fits avx2 input → ¬Bad input.elts → totalSize input.elts < 2 ^ 64 ∧
      decodePrefix avx2 input out =
        .ok ((plainFields input.suffixes input.elts []).flatten,
          (plainFields input.suffixes input.elts []).map List.length)) := by
  have hsum := widths_take_add input.elts input.nbWildcopies
  have hlen : input.suffixes.length = widths input.elts := input.length_suffixes
  obtain ⟨start, hstart⟩ : ∃ start : State, start =
    { out := out
      fieldSizes := []
      suffixPos := 0
      prevOut := 0
      currOut := 0
      prevFieldSize := 0
      vec := List.replicate 32 0 } := ⟨_, rfl⟩
  have hdecoded : Decoded (wildPath avx2) input.outSize [] [] start := by
    rw [hstart]
    exact ⟨hout, rfl, Nat.zero_le _, rfl, rfl, rfl, rfl, rfl, Nat.le_refl _, fun _ => rfl,
      fun _ => rfl⟩
  have hsuffixPos : start.suffixPos = 0 := by rw [hstart]
  have hcurrOut : start.currOut = 0 := by rw [hstart]
  have hwild := decodeFields_spec (input.elts.drop input.nbWildcopies)
    ((input.elts.drop input.nbWildcopies).map fun e => (.fallback, e))
    (input.elts.take input.nbWildcopies) hdecoded fun h => by
      rw [hsuffixPos, Nat.zero_add]
      exact input.room avx2 h
  have hrun : decodePrefix avx2 input out = (do
      let s ← decodeFields input.suffixes (wildPath avx2) (input.elts.take input.nbWildcopies) start
      let s ← decodeFields input.suffixes .fallback (input.elts.drop input.nbWildcopies) s
      .ok (s.out, s.fieldSizes)) := by
    rw [decodePrefix, ← hstart]
    cases decodeFields input.suffixes (wildPath avx2) (input.elts.take input.nbWildcopies)
      start with
    | error stop => rfl
    | ok s =>
      dsimp only
      rw [ok_bind]
      cases decodeFields input.suffixes .fallback (input.elts.drop input.nbWildcopies) s <;> rfl
  have hall : input.elts.take input.nbWildcopies ++ input.elts.drop input.nbWildcopies =
      input.elts := List.take_append_drop _ _
  have hfitsDef : Fits avx2 input ↔ FitsFrom input.outSize
      ((input.elts.take input.nbWildcopies).map (fun e => (wildPath avx2, e)) ++
        (input.elts.drop input.nbWildcopies).map fun e => (.fallback, e)) ([] : List UInt8).length
      start.currOut := by
    rw [hcurrOut]
    rfl
  rw [bad_iff, hfitsDef]
  cases hfirst : decodeFields input.suffixes (wildPath avx2)
    (input.elts.take input.nbWildcopies) start with
  | error stop =>
    rw [hfirst] at hwild hrun
    cases hwild with
    | leaves h => exact ⟨fun _ => hrun, fun h' => absurd h' h, fun h' => absurd h' h⟩
    | bad h hbad =>
      rw [hall] at hbad
      exact ⟨fun h' => absurd h h', fun _ _ => hrun, fun _ h' => absurd hbad h'⟩
  | ok s =>
    rw [hfirst] at hwild hrun
    obtain ⟨⟩ | ⟨⟩ | ⟨hdecoded', hsuffix, hfields, hbad, hfits⟩ := hwild
    rw [hall, hsuffixPos, List.drop_zero] at hfields
    rw [hall] at hbad
    rw [hsuffixPos, Nat.zero_add] at hsuffix
    rw [hfits]
    have hlast := @decodeFields_spec .fallback input.outSize input.suffixes [] []
      (input.elts.drop input.nbWildcopies) _ _ s
      { hdecoded' with
        length_vec := fun h => by cases h
        take_vec := fun h => by cases h } fun _ => by
        rw [slack]
        omega
    cases hsecond : decodeFields input.suffixes .fallback
      (input.elts.drop input.nbWildcopies) s with
    | error stop =>
      rw [hsecond] at hlast
      have hrun' : decodePrefix avx2 input out = .error stop := by
        rw [hrun, ok_bind, hsecond]
        rfl
      cases hlast with
      | leaves h =>
        rw [List.append_nil] at h
        exact ⟨fun _ => hrun', fun h' => absurd h' h, fun h' => absurd h' h⟩
      | bad h hbad' =>
        rw [List.append_nil] at h hbad'
        exact ⟨fun h' => absurd h h', fun _ _ => hrun', fun _ h' => absurd (hbad.2 hbad') h'⟩
    | ok s' =>
      rw [hsecond] at hlast
      have hrun' : decodePrefix avx2 input out = .ok (s'.out, s'.fieldSizes) := by
        rw [hrun, ok_bind, hsecond]
        rfl
      obtain ⟨⟩ | ⟨⟩ | ⟨hdecoded'', -, hfields', hbad', hfits'⟩ := hlast
      rw [List.append_nil] at hfields' hbad' hfits'
      have hgood : ¬BadFrom input.elts 0 := fun h => hbad'.1 (hbad.1 h)
      rw [hfields', ← List.append_assoc] at hfields
      have hall' : plainFields input.suffixes input.elts [] = [] ++ _ ++ _ :=
        hfields.trans (List.append_nil _)
      rw [← hall'] at hdecoded''
      have htotal := congrArg List.sum
        (@length_plainFields input.elts input.suffixes [] hgood (by omega))
      rw [← List.length_flatten, ← hdecoded''.currOut_eq, ← totalSize] at htotal
      have hle := hdecoded''.currOut_le
      have hlen' := hdecoded''.length_out
      have hsize := outSize_eq input
      have htake := hdecoded''.take_out
      rw [List.take_of_length_le (by omega)] at htake
      refine ⟨fun h => absurd (hfits'.2 trivial) h, fun _ h => absurd h hgood, fun _ _ => ?_⟩
      rw [hrun', htake, hdecoded''.fieldSizes_eq]
      exact ⟨by omega, rfl⟩

end OpenZL.Codecs.Prefix
