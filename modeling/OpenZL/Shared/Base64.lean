import Mathlib.Data.List.GetD
import OpenZL.Lib.LittleEndian
import OpenZL.Lib.Result

/-!
# Base64 (`base64.c`)

Three bytes become four characters of six bits each; one or two bytes at the end become a quantum
that `=` fills up.

Principal results: `base64Decode_encode`, `base64_faithful_iff`.
-/

namespace OpenZL.Shared.Base64

open OpenZL.Lib

/-- A character literal. -/
def ch (c : Char) : UInt8 := UInt8.ofNat c.toNat

/-- `kBase64Map` -/
def kBase64Map : List UInt8 :=
  ['A', 'B', 'C', 'D', 'E', 'F', 'G', 'H', 'I', 'J', 'K', 'L', 'M',
    'N', 'O', 'P', 'Q', 'R', 'S', 'T', 'U', 'V', 'W', 'X', 'Y', 'Z',
    'a', 'b', 'c', 'd', 'e', 'f', 'g', 'h', 'i', 'j', 'k', 'l', 'm',
    'n', 'o', 'p', 'q', 'r', 's', 't', 'u', 'v', 'w', 'x', 'y', 'z',
    '0', '1', '2', '3', '4', '5', '6', '7', '8', '9', '+', '/'].map ch

/-- The initializers of `kBase64DecodeMap`. -/
def decodeMapEntries : List (Char × Nat) :=
  [('A', 1), ('B', 2), ('C', 3), ('D', 4), ('E', 5), ('F', 6),
    ('G', 7), ('H', 8), ('I', 9), ('J', 10), ('K', 11), ('L', 12),
    ('M', 13), ('N', 14), ('O', 15), ('P', 16), ('Q', 17), ('R', 18),
    ('S', 19), ('T', 20), ('U', 21), ('V', 22), ('W', 23), ('X', 24),
    ('Y', 25), ('Z', 26), ('a', 27), ('b', 28), ('c', 29), ('d', 30),
    ('e', 31), ('f', 32), ('g', 33), ('h', 34), ('i', 35), ('j', 36),
    ('k', 37), ('l', 38), ('m', 39), ('n', 40), ('o', 41), ('p', 42),
    ('q', 43), ('r', 44), ('s', 45), ('t', 46), ('u', 47), ('v', 48),
    ('w', 49), ('x', 50), ('y', 51), ('z', 52), ('0', 53), ('1', 54),
    ('2', 55), ('3', 56), ('4', 57), ('5', 58), ('6', 59), ('7', 60),
    ('8', 61), ('9', 62), ('+', 63), ('/', 64)]

/-- `kBase64DecodeMap`, 0 where it has no initializer. -/
def kBase64DecodeMap (c : UInt8) : Nat :=
  ((decodeMapEntries.find? fun e => ch e.1 == c).map Prod.snd).getD 0

/-- The errors of the coders. -/
inductive Base64Error
  | dstCapacity_tooSmall
  | corruption
  deriving DecidableEq, Repr

/-- `ZL_base64EncodedSize` -/
def base64EncodedSize (srcSize : Nat) : Nat :=
  let encodedSize := srcSize / 3 * 4
  if srcSize % 3 ≠ 0 then encodedSize + 4 else encodedSize

/-- `kBase64Map[i]` -/
def mapAt (i : Nat) : UInt8 := kBase64Map.getD i 0

/-- The loop of `ZL_base64Encode`, and what follows it. -/
def encodeLoop : List UInt8 → List UInt8
  | s0 :: s1 :: s2 :: src =>
      mapAt (s0.toNat >>> 2) :: mapAt (((s0.toNat &&& 0x03) <<< 4) + (s1.toNat >>> 4)) ::
        mapAt (((s1.toNat &&& 0x0f) <<< 2) + (s2.toNat >>> 6)) :: mapAt (s2.toNat &&& 0x3f) ::
        encodeLoop src
  | [s0] => [mapAt (s0.toNat >>> 2), mapAt ((s0.toNat &&& 0x03) <<< 4), ch '=', ch '=']
  | [s0, s1] =>
      [mapAt (s0.toNat >>> 2), mapAt (((s0.toNat &&& 0x03) <<< 4) + (s1.toNat >>> 4)),
        mapAt ((s1.toNat &&& 0x0f) <<< 2), ch '=']
  | [] => []

/-- `ZL_base64Encode`: the size it returns, and what it writes. -/
def base64Encode (dstCap : Nat) (src : List UInt8) : Except Base64Error (Nat × List UInt8) :=
  if src.length = 0 then .ok (0, [])
  else if dstCap < base64EncodedSize src.length then .error .dstCapacity_tooSmall
  else
    let dst := encodeLoop src
    .ok (dst.length, dst)

/-- The local `pad`. -/
def padOf (src : List UInt8) : Nat :=
  (if src.getD (src.length - 1) 0 = ch '=' then 1 else 0) +
    (if src.length ≥ 2 ∧ src.getD (src.length - 2) 0 = ch '=' then 1 else 0)

/-- The local `decodedSize`. -/
def decodedSizeOf (src : List UInt8) : Nat := src.length / 4 * 3 - padOf src

/-- The loop of `ZL_base64Decode`; `dst` has been written. Sizes are multiples of four. -/
def decodeLoop (decodedSize : Nat) : List UInt8 → List UInt8 → Except Base64Error (List UInt8)
  | c0 :: c1 :: c2 :: c3 :: src, dst =>
      let isLastBlock := src = []
      let ra := kBase64DecodeMap c0
      let rb := kBase64DecodeMap c1
      let rc := if isLastBlock ∧ c2 = ch '=' then 1 else kBase64DecodeMap c2
      let rd := if isLastBlock ∧ c3 = ch '=' then 1 else kBase64DecodeMap c3
      if ra = 0 ∨ rb = 0 ∨ rc = 0 ∨ rd = 0 then .error .corruption
      else
        let a := ra - 1
        let b := rb - 1
        let c := rc - 1
        let d := rd - 1
        let dst := dst ++ [UInt8.ofNat ((a <<< 2) ||| (b >>> 4))]
        let dst :=
          if dst.length < decodedSize then dst ++ [UInt8.ofNat ((b <<< 4) ||| (c >>> 2))] else dst
        let dst := if dst.length < decodedSize then dst ++ [UInt8.ofNat ((c <<< 6) ||| d)] else dst
        decodeLoop decodedSize src dst
  | _, dst => .ok dst

/-- `ZL_base64Decode`: the size it returns, and what it writes. -/
def base64Decode (dstCap : Nat) (src : List UInt8) : Except Base64Error (Nat × List UInt8) :=
  if src.length = 0 then .ok (0, [])
  else if src.length % 4 ≠ 0 then .error .corruption
  else if decodedSizeOf src > dstCap then .error .dstCapacity_tooSmall
  else do
    let dst ← decodeLoop (decodedSizeOf src) src []
    .ok (decodedSizeOf src, dst)

/-! ## Round trip -/

theorem decodeMap_mapAt : ∀ i < 64, kBase64DecodeMap (mapAt i) = i + 1 ∧ mapAt i ≠ ch '=' := by
  decide

theorem mapAt_entries : ∀ e ∈ decodeMapEntries, mapAt (e.2 - 1) = ch e.1 ∧ e.2 ≤ 64 := by
  decide

theorem mapAt_decodeMap {c : UInt8} (h : kBase64DecodeMap c ≠ 0) :
    mapAt (kBase64DecodeMap c - 1) = c ∧ kBase64DecodeMap c ≤ 64 := by
  rw [kBase64DecodeMap] at h ⊢
  cases hfind : decodeMapEntries.find? fun e => ch e.1 == c with
  | none =>
    rw [hfind] at h
    exact absurd rfl h
  | some e =>
    have hc : ch e.1 = c := by simpa using List.find?_some hfind
    rw [← hc]
    exact mapAt_entries e (List.mem_of_find?_eq_some hfind)

theorem ofNat_or_high {a b : Nat} (hb : b < 64) :
    (a <<< 2) ||| (b >>> 4) = 4 * a + b / 16 := by
  rw [Nat.or_comm, Nat.shiftRight_eq_div_pow, or_shiftLeft (show b / 2 ^ 4 < 2 ^ 2 by omega)]
  omega

theorem ofNat_or_middle {b c : Nat} (hc : c < 64) :
    (b <<< 4) ||| (c >>> 2) = 16 * b + c / 4 := by
  rw [Nat.or_comm, Nat.shiftRight_eq_div_pow, or_shiftLeft (show c / 2 ^ 2 < 2 ^ 4 by omega)]
  omega

theorem ofNat_or_low {c d : Nat} (hd : d < 64) : (c <<< 6) ||| d = 64 * c + d := by
  rw [Nat.or_comm, or_shiftLeft (show d < 2 ^ 6 by omega)]
  omega

theorem indices (x y z : Nat) :
    x >>> 2 = x / 4 ∧ ((x &&& 0x03) <<< 4) + (y >>> 4) = x % 4 * 16 + y / 16 ∧
      ((y &&& 0x0f) <<< 2) + (z >>> 6) = y % 16 * 4 + z / 64 ∧ z &&& 0x3f = z % 64 := by
  have h3 : x &&& 0x03 = x % 4 := Nat.and_two_pow_sub_one_eq_mod x 2
  have hf : y &&& 0x0f = y % 16 := Nat.and_two_pow_sub_one_eq_mod y 4
  have h3f : z &&& 0x3f = z % 64 := Nat.and_two_pow_sub_one_eq_mod z 6
  rw [h3, hf, h3f, Nat.shiftRight_eq_div_pow, Nat.shiftRight_eq_div_pow, Nat.shiftRight_eq_div_pow,
    Nat.shiftLeft_eq, Nat.shiftLeft_eq]
  exact ⟨rfl, rfl, rfl, rfl⟩

theorem encodeLoop_three (s0 s1 s2 : UInt8) (src : List UInt8) :
    encodeLoop (s0 :: s1 :: s2 :: src) =
      mapAt (s0.toNat / 4) :: mapAt (s0.toNat % 4 * 16 + s1.toNat / 16) ::
        mapAt (s1.toNat % 16 * 4 + s2.toNat / 64) :: mapAt (s2.toNat % 64) ::
        encodeLoop src := by
  obtain ⟨h0, h1, h2, h3⟩ := indices s0.toNat s1.toNat s2.toNat
  rw [encodeLoop, h0, h1, h2, h3]

theorem encodeLoop_two (s0 s1 : UInt8) :
    encodeLoop [s0, s1] =
      [mapAt (s0.toNat / 4), mapAt (s0.toNat % 4 * 16 + s1.toNat / 16),
        mapAt (s1.toNat % 16 * 4), ch '='] := by
  obtain ⟨h0, h1, h2, -⟩ := indices s0.toNat s1.toNat 0
  rw [encodeLoop, h0, h1]
  exact congrArg (fun c => [_, _, mapAt c, _]) h2

theorem encodeLoop_one (s0 : UInt8) :
    encodeLoop [s0] = [mapAt (s0.toNat / 4), mapAt (s0.toNat % 4 * 16), ch '=', ch '='] := by
  obtain ⟨h0, h1, -, -⟩ := indices s0.toNat 0 0
  rw [encodeLoop, h0]
  exact congrArg (fun c => [_, mapAt c, _, _]) h1

theorem length_encodeLoop : ∀ src : List UInt8,
    (encodeLoop src).length = base64EncodedSize src.length
  | s0 :: s1 :: s2 :: src => by
      have ih := length_encodeLoop src
      rw [encodeLoop]
      simp only [List.length_cons, ih, base64EncodedSize]
      split <;> split <;> omega
  | [s0, s1] => by
      rw [encodeLoop_two]
      simp only [List.length_cons, List.length_nil, base64EncodedSize]
      decide
  | [s0] => by
      rw [encodeLoop_one]
      simp only [List.length_cons, List.length_nil, base64EncodedSize]
      decide
  | [] => rfl

theorem padOf_append (front : List UInt8) {back : List UInt8} (h : 2 ≤ back.length) :
    padOf (front ++ back) = padOf back := by
  have hlast : (front ++ back).getD ((front ++ back).length - 1) 0 =
      back.getD (back.length - 1) 0 := by
    rw [List.length_append, List.getD_append_right _ _ _ _ (by omega)]
    congr 1
    omega
  have hsecond : (front ++ back).getD ((front ++ back).length - 2) 0 =
      back.getD (back.length - 2) 0 := by
    rw [List.length_append, List.getD_append_right _ _ _ _ (by omega)]
    congr 1
    omega
  rw [padOf, hlast, hsecond, padOf, List.length_append]
  simp only [h, (by omega : front.length + back.length ≥ 2), true_and]

theorem padOf_quantum (c0 c1 c2 c3 : UInt8) :
    padOf [c0, c1, c2, c3] =
      (if c3 = ch '=' then 1 else 0) + (if c2 = ch '=' then 1 else 0) := by
  rw [padOf]
  simp

/-- The bytes of four indices. -/
def quantumBytes (a b c d : Nat) : List UInt8 :=
  [UInt8.ofNat (4 * a + b / 16), UInt8.ofNat (16 * b + c / 4), UInt8.ofNat (64 * c + d)]

theorem decodeLoop_quantum {size a b c d : Nat} {c0 c1 c2 c3 : UInt8} {src dst : List UInt8}
    (ha : kBase64DecodeMap c0 = a + 1) (hb : kBase64DecodeMap c1 = b + 1)
    (hc : (if src = [] ∧ c2 = ch '=' then 1 else kBase64DecodeMap c2) = c + 1)
    (hd : (if src = [] ∧ c3 = ch '=' then 1 else kBase64DecodeMap c3) = d + 1)
    (hb64 : b < 64) (hc64 : c < 64) (hd64 : d < 64) (hroom : dst.length < size) :
    decodeLoop size (c0 :: c1 :: c2 :: c3 :: src) dst =
      decodeLoop size src (dst ++ (quantumBytes a b c d).take (size - dst.length)) := by
  rw [decodeLoop]
  simp only [ha, hb, hc, hd, Nat.add_sub_cancel]
  rw [if_neg (by omega), ofNat_or_high hb64, ofNat_or_middle hc64, ofNat_or_low hd64]
  simp only [List.length_append, List.length_singleton]
  by_cases htwo : dst.length + 1 < size
  · rw [if_pos htwo]
    simp only [List.length_append, List.length_singleton]
    by_cases hthree : dst.length + 1 + 1 < size
    · rw [if_pos hthree, List.take_of_length_le (by
        rw [quantumBytes, List.length_cons, List.length_cons, List.length_singleton]
        omega)]
      simp only [List.append_assoc, List.cons_append, List.nil_append, quantumBytes]
    · rw [if_neg hthree, show size - dst.length = 2 by omega]
      simp only [List.append_assoc, List.singleton_append, quantumBytes, List.take_succ_cons,
        List.take_zero]
  · rw [if_neg htwo]
    simp only [List.length_append, List.length_singleton]
    rw [if_neg (by omega), show size - dst.length = 1 by omega]
    simp only [quantumBytes, List.take_succ_cons, List.take_zero]

theorem ofNat_eq_of_mod {n : Nat} {s : UInt8} (h : n % 256 = s.toNat) : UInt8.ofNat n = s := by
  rw [← UInt8.toNat_inj, UInt8.toNat_ofNat', h]

theorem quantumBytes_indices (s0 s1 s2 : UInt8) :
    quantumBytes (s0.toNat / 4) (s0.toNat % 4 * 16 + s1.toNat / 16)
      (s1.toNat % 16 * 4 + s2.toNat / 64) (s2.toNat % 64) = [s0, s1, s2] := by
  have h0 := s0.toNat_lt
  have h1 := s1.toNat_lt
  have h2 := s2.toNat_lt
  rw [quantumBytes, ofNat_eq_of_mod (s := s0) (by omega), ofNat_eq_of_mod (s := s1) (by omega),
    ofNat_eq_of_mod (s := s2) (by omega)]

theorem decodeMap_eq {i : Nat} (h : i < 64) : kBase64DecodeMap (mapAt i) = i + 1 :=
  (decodeMap_mapAt i h).1

theorem decodeMap_last {i : Nat} (h : i < 64) (src : List UInt8) :
    (if src = [] ∧ mapAt i = ch '=' then 1 else kBase64DecodeMap (mapAt i)) = i + 1 := by
  rw [if_neg fun hend => (decodeMap_mapAt i h).2 hend.2, decodeMap_eq h]

theorem decodeLoop_encodeLoop : ∀ (src : List UInt8) {dst : List UInt8} {size : Nat},
    size = dst.length + src.length → decodeLoop size (encodeLoop src) dst = .ok (dst ++ src)
  | s0 :: s1 :: s2 :: src, dst, size, hsize => by
      have h0 := s0.toNat_lt
      have h1 := s1.toNat_lt
      have h2 := s2.toNat_lt
      simp only [List.length_cons] at hsize
      rw [encodeLoop_three, decodeLoop_quantum (decodeMap_eq (by omega)) (decodeMap_eq (by omega))
        (decodeMap_last (by omega) _) (decodeMap_last (by omega) _) (by omega) (by omega) (by omega)
        (by omega), quantumBytes_indices, List.take_of_length_le (by
          rw [List.length_cons, List.length_cons, List.length_singleton]
          omega)]
      rw [decodeLoop_encodeLoop src (by
        simp only [List.length_append, List.length_cons, List.length_nil]
        omega), List.append_assoc]
      rfl
  | [s0, s1], dst, size, hsize => by
      have h0 := s0.toNat_lt
      have h1 := s1.toNat_lt
      have hbytes := quantumBytes_indices s0 s1 0
      rw [show (0 : UInt8).toNat / 64 = 0 from rfl, show (0 : UInt8).toNat % 64 = 0 from rfl,
        Nat.add_zero] at hbytes
      simp only [List.length_cons, List.length_nil] at hsize
      rw [encodeLoop_two, decodeLoop_quantum (decodeMap_eq (by omega)) (decodeMap_eq (by omega))
        (decodeMap_last (by omega) _) (if_pos ⟨rfl, rfl⟩) (by omega) (by omega) (by omega)
        (by omega), hbytes, show size - dst.length = 2 by omega]
      rfl
  | [s0], dst, size, hsize => by
      have h0 := s0.toNat_lt
      have hbytes := quantumBytes_indices s0 0 0
      rw [show (0 : UInt8).toNat / 16 = 0 from rfl, show (0 : UInt8).toNat % 64 = 0 from rfl,
        show (0 : UInt8).toNat % 16 * 4 + (0 : UInt8).toNat / 64 = 0 from rfl, Nat.add_zero]
        at hbytes
      simp only [List.length_cons, List.length_nil] at hsize
      rw [encodeLoop_one, decodeLoop_quantum (decodeMap_eq (by omega)) (decodeMap_eq (by omega))
        (if_pos ⟨rfl, rfl⟩) (if_pos ⟨rfl, rfl⟩) (by omega) (by omega) (by omega)
        (by omega), hbytes, show size - dst.length = 1 by omega]
      rfl
  | [], dst, _, _ => by
      rw [encodeLoop, decodeLoop, List.append_nil]
      exact nofun

theorem decodedSizeOf_encodeLoop : ∀ (src : List UInt8), src ≠ [] →
    decodedSizeOf (encodeLoop src) = src.length
  | s0 :: s1 :: s2 :: src, _ => by
      have h2 := s2.toNat_lt
      by_cases hsrc : src = []
      · subst hsrc
        have hlast : mapAt (s2.toNat % 64) ≠ ch '=' := (decodeMap_mapAt _ (by omega)).2
        have h1 := s1.toNat_lt
        have hmid : mapAt (s1.toNat % 16 * 4 + s2.toNat / 64) ≠ ch '=' :=
          (decodeMap_mapAt _ (by omega)).2
        rw [encodeLoop_three, encodeLoop, decodedSizeOf, padOf_quantum, if_neg hlast, if_neg hmid]
        simp only [List.length_cons, List.length_nil]
      · have ih := decodedSizeOf_encodeLoop src hsrc
        have hlen := length_encodeLoop src
        have hpos := List.length_pos_iff.2 hsrc
        have hfour : 4 ≤ (encodeLoop src).length := by
          rw [hlen, base64EncodedSize]
          split <;> omega
        have hpad : padOf (encodeLoop (s0 :: s1 :: s2 :: src)) = padOf (encodeLoop src) := by
          rw [encodeLoop_three]
          exact padOf_append [_, _, _, _] (by omega)
        have hlen' : (encodeLoop (s0 :: s1 :: s2 :: src)).length = (encodeLoop src).length + 4 := by
          rw [encodeLoop_three]
          rfl
        rw [decodedSizeOf] at ih
        rw [decodedSizeOf, hpad, hlen']
        simp only [List.length_cons]
        omega
  | [s0, s1], _ => by
      have hmid : mapAt (s1.toNat % 16 * 4) ≠ ch '=' := (decodeMap_mapAt _ (by omega)).2
      rw [encodeLoop_two, decodedSizeOf, padOf_quantum, if_pos rfl, if_neg hmid]
      simp only [List.length_cons, List.length_nil]
  | [s0], _ => by
      rw [encodeLoop_one, decodedSizeOf, padOf_quantum, if_pos rfl]
      simp only [List.length_cons, List.length_nil]

/-- **Round trip**: the encoder writes as many characters as announced, and the decoder gives the
bytes and their number back. -/
theorem base64Decode_encode {src : List UInt8} {dstCap dstCap' : Nat}
    (hcap : base64EncodedSize src.length ≤ dstCap) (hcap' : src.length ≤ dstCap') :
    base64Encode dstCap src = .ok (base64EncodedSize src.length, encodeLoop src) ∧
      base64Decode dstCap' (encodeLoop src) = .ok (src.length, src) := by
  have hlen := length_encodeLoop src
  rw [base64Encode, base64Decode, hlen]
  by_cases hsrc : src = []
  · subst hsrc
    exact ⟨rfl, rfl⟩
  · have hpos := List.length_pos_iff.2 hsrc
    have hsize : base64EncodedSize src.length ≠ 0 ∧ base64EncodedSize src.length % 4 = 0 := by
      rw [base64EncodedSize]
      split <;> omega
    have hdecoded := decodedSizeOf_encodeLoop src hsrc
    refine ⟨by rw [if_neg (by omega), if_neg (by omega), ← hlen], ?_⟩
    rw [if_neg hsize.1, if_neg (by omega), hdecoded, if_neg (by omega),
      decodeLoop_encodeLoop src (by rw [List.length_nil, Nat.zero_add]), ok_bind]
    rfl

/-! ## What is accepted -/

/-- The characters are in the alphabet, but for a `=` in the last two places. -/
def Spelled : List UInt8 → Prop
  | c0 :: c1 :: c2 :: c3 :: src =>
      kBase64DecodeMap c0 ≠ 0 ∧ kBase64DecodeMap c1 ≠ 0 ∧
        (kBase64DecodeMap c2 ≠ 0 ∨ src = [] ∧ c2 = ch '=') ∧
        (kBase64DecodeMap c3 ≠ 0 ∨ src = [] ∧ c3 = ch '=') ∧ Spelled src
  | _ => True

/-- In the last quantum a third `=` is followed by a fourth, and the bits that the padding drops are
zero. -/
def Clean : List UInt8 → Prop
  | [_, c1, c2, c3] =>
      (c2 = ch '=' → c3 = ch '=' ∧ (kBase64DecodeMap c1 - 1) % 16 = 0) ∧
        (c2 ≠ ch '=' → c3 = ch '=' → (kBase64DecodeMap c2 - 1) % 4 = 0)
  | _ :: _ :: _ :: _ :: src => Clean src
  | _ => True

theorem decodeMap_equals : kBase64DecodeMap (ch '=') = 0 := by decide

theorem ite_one_eq_zero {p : Prop} [Decidable p] {x : Nat} :
    (if p then 1 else x) = 0 ↔ ¬(x ≠ 0 ∨ p) := by
  by_cases h : p <;> simp [h]

theorem decodeLoop_refused {size : Nat} {c0 c1 c2 c3 : UInt8} {src dst : List UInt8}
    (h : ¬(kBase64DecodeMap c0 ≠ 0 ∧ kBase64DecodeMap c1 ≠ 0 ∧
      (kBase64DecodeMap c2 ≠ 0 ∨ src = [] ∧ c2 = ch '=') ∧
      (kBase64DecodeMap c3 ≠ 0 ∨ src = [] ∧ c3 = ch '='))) :
    decodeLoop size (c0 :: c1 :: c2 :: c3 :: src) dst = .error .corruption := by
  rw [decodeLoop]
  refine if_pos ?_
  rw [ite_one_eq_zero, ite_one_eq_zero]
  tauto

theorem index_of_spelled {c : UInt8} {src : List UInt8}
    (h : kBase64DecodeMap c ≠ 0 ∨ src = [] ∧ c = ch '=') :
    ∃ i < 64, (if src = [] ∧ c = ch '=' then 1 else kBase64DecodeMap c) = i + 1 ∧
      (c ≠ ch '=' → mapAt i = c ∧ kBase64DecodeMap c = i + 1) ∧ (c = ch '=' → i = 0) := by
  by_cases hpad : c = ch '='
  · subst hpad
    have hsrc := h.resolve_left fun hne => hne decodeMap_equals
    exact ⟨0, by decide, if_pos hsrc, fun hne => absurd rfl hne, fun _ => rfl⟩
  · have hne := h.resolve_right fun hend => hpad hend.2
    obtain ⟨hmap, hle⟩ := mapAt_decodeMap hne
    refine ⟨kBase64DecodeMap c - 1, by omega, ?_, fun _ => ⟨hmap, by omega⟩, fun h => absurd h hpad⟩
    rw [if_neg fun hend => hpad hend.2]
    omega

theorem index_of_ne_zero {c : UInt8} (h : kBase64DecodeMap c ≠ 0) :
    ∃ i < 64, kBase64DecodeMap c = i + 1 ∧ mapAt i = c := by
  obtain ⟨hmap, hle⟩ := mapAt_decodeMap h
  exact ⟨kBase64DecodeMap c - 1, by omega, by omega, hmap⟩

theorem mapAt_inj {i j : Nat} (hi : i < 64) (hj : j < 64) : mapAt i = mapAt j ↔ i = j := by
  refine ⟨fun h => ?_, fun h => h ▸ rfl⟩
  have hmap := congrArg kBase64DecodeMap h
  rw [decodeMap_eq hi, decodeMap_eq hj] at hmap
  omega

theorem toNat_quantum {a b c d : Nat} (ha : a < 64) (hb : b < 64) (hc : c < 64) (hd : d < 64) :
    (UInt8.ofNat (4 * a + b / 16)).toNat = 4 * a + b / 16 ∧
      (UInt8.ofNat (16 * b + c / 4)).toNat = b % 16 * 16 + c / 4 ∧
      (UInt8.ofNat (64 * c + d)).toNat = c % 4 * 64 + d := by
  rw [UInt8.toNat_ofNat', UInt8.toNat_ofNat', UInt8.toNat_ofNat']
  omega

theorem encodeLoop_quantum {a b c d : Nat} (ha : a < 64) (hb : b < 64) (hc : c < 64) (hd : d < 64)
    (bytes : List UInt8) :
    encodeLoop (quantumBytes a b c d ++ bytes) =
      mapAt a :: mapAt b :: mapAt c :: mapAt d :: encodeLoop bytes := by
  obtain ⟨hx, hy, hz⟩ := toNat_quantum ha hb hc hd
  rw [quantumBytes]
  simp only [List.cons_append, List.nil_append]
  rw [encodeLoop_three, hx, hy, hz, show (4 * a + b / 16) / 4 = a by omega,
    show (4 * a + b / 16) % 4 * 16 + (b % 16 * 16 + c / 4) / 16 = b by omega,
    show (b % 16 * 16 + c / 4) % 16 * 4 + (c % 4 * 64 + d) / 64 = c by omega,
    show (c % 4 * 64 + d) % 64 = d by omega]

theorem encodeLoop_quantum_two {a b c : Nat} (ha : a < 64) (hb : b < 64) (hc : c < 64) :
    encodeLoop [UInt8.ofNat (4 * a + b / 16), UInt8.ofNat (16 * b + c / 4)] =
      [mapAt a, mapAt b, mapAt (c / 4 * 4), ch '='] := by
  obtain ⟨hx, hy, -⟩ := toNat_quantum ha hb hc hc
  rw [encodeLoop_two, hx, hy, show (4 * a + b / 16) / 4 = a by omega,
    show (4 * a + b / 16) % 4 * 16 + (b % 16 * 16 + c / 4) / 16 = b by omega,
    show (b % 16 * 16 + c / 4) % 16 * 4 = c / 4 * 4 by omega]

theorem encodeLoop_quantum_one {a b : Nat} (ha : a < 64) (hb : b < 64) :
    encodeLoop [UInt8.ofNat (4 * a + b / 16)] =
      [mapAt a, mapAt (b / 16 * 16), ch '=', ch '='] := by
  obtain ⟨hx, -, -⟩ := toNat_quantum ha hb ha ha
  rw [encodeLoop_one, hx, show (4 * a + b / 16) / 4 = a by omega,
    show (4 * a + b / 16) % 4 * 16 = b / 16 * 16 by omega]

theorem decodeLoop_last {c0 c1 c2 c3 : UInt8} {dst : List UInt8} {size : Nat}
    (hspelled : Spelled [c0, c1, c2, c3]) (hsize : size = dst.length + decodedSizeOf [c0, c1, c2, c3]) :
    ∃ bytes, decodeLoop size [c0, c1, c2, c3] dst = .ok (dst ++ bytes) ∧
      bytes.length = decodedSizeOf [c0, c1, c2, c3] ∧
      (encodeLoop bytes = [c0, c1, c2, c3] ↔ Clean [c0, c1, c2, c3]) := by
  obtain ⟨h0, h1, h2, h3, -⟩ := hspelled
  obtain ⟨a, ha, hmapa, rfl⟩ := index_of_ne_zero h0
  obtain ⟨b, hb, hmapb, rfl⟩ := index_of_ne_zero h1
  obtain ⟨c, hc, hmapc, halphac, hpadc⟩ := index_of_spelled h2
  obtain ⟨d, hd, hmapd, halphad, hpadd⟩ := index_of_spelled h3
  rw [decodedSizeOf, padOf_quantum] at hsize
  have hlen : [mapAt a, mapAt b, c2, c3].length / 4 * 3 = 3 := by
    simp only [List.length_cons, List.length_nil]
  rw [hlen] at hsize
  rw [decodedSizeOf, padOf_quantum, hlen, decodeLoop_quantum hmapa hmapb hmapc hmapd hb hc hd
    (by split at hsize <;> split at hsize <;> omega), Clean, decodeLoop]
  rotate_left
  · exact nofun
  refine ⟨_, rfl, ?_, ?_⟩
  · rw [List.length_take, quantumBytes]
    simp only [List.length_cons, List.length_nil]
    split at hsize <;> split at hsize <;> simp only [*, if_true, if_false] <;> omega
  · by_cases hc2 : c2 = ch '='
    · obtain rfl := hpadc hc2
      by_cases hc3 : c3 = ch '='
      · rw [if_pos hc2, if_pos hc3] at hsize
        rw [show size - dst.length = 1 by omega, quantumBytes, List.take_succ_cons, List.take_zero,
          encodeLoop_quantum_one ha hb, hc2, hc3, hmapb, Nat.add_sub_cancel]
        simp only [List.cons.injEq, true_and, and_true, ne_eq, not_true_eq_false, false_imp_iff,
          forall_const]
        rw [mapAt_inj (by omega) hb]
        omega
      · rw [if_pos hc2, if_neg hc3] at hsize
        rw [show size - dst.length = 2 by omega, quantumBytes, List.take_succ_cons,
          List.take_succ_cons, List.take_zero, encodeLoop_quantum_two ha hb hc]
        refine iff_of_false (fun heq => ?_) fun hclean => hc3 (hclean.1 hc2).1
        simp only [List.cons.injEq] at heq
        exact hc3 heq.2.2.2.1.symm
    · obtain ⟨hchar, hindex⟩ := halphac hc2
      by_cases hc3 : c3 = ch '='
      · rw [if_neg hc2, if_pos hc3] at hsize
        rw [show size - dst.length = 2 by omega, quantumBytes, List.take_succ_cons,
          List.take_succ_cons, List.take_zero, encodeLoop_quantum_two ha hb hc, hindex,
          Nat.add_sub_cancel, hc3, ← hchar]
        have hne : mapAt c ≠ ch '=' := (decodeMap_mapAt c hc).2
        simp only [List.cons.injEq, true_and, and_true, hne, ne_eq, not_false_eq_true, false_imp_iff,
          forall_const]
        rw [mapAt_inj (by omega) hc]
        omega
      · rw [if_neg hc2, if_neg hc3] at hsize
        have hthree : (quantumBytes a b c d).take (size - dst.length) = quantumBytes a b c d ++ [] := by
          rw [List.append_nil, List.take_of_length_le]
          rw [quantumBytes, List.length_cons, List.length_cons, List.length_singleton]
          omega
        rw [hthree, encodeLoop_quantum ha hb hc hd, encodeLoop, hchar, (halphad hc3).1]
        exact iff_of_true rfl ⟨fun h => absurd h hc2, fun _ h => absurd h hc3⟩

theorem decodeLoop_unspelled {size : Nat} : ∀ {text dst : List UInt8}, ¬Spelled text →
    decodeLoop size text dst = .error .corruption
  | c0 :: c1 :: c2 :: c3 :: src, dst, h => by
      by_cases hhead : kBase64DecodeMap c0 ≠ 0 ∧ kBase64DecodeMap c1 ≠ 0 ∧
          (kBase64DecodeMap c2 ≠ 0 ∨ src = [] ∧ c2 = ch '=') ∧
          (kBase64DecodeMap c3 ≠ 0 ∨ src = [] ∧ c3 = ch '=')
      · have hsrc : ¬Spelled src := fun hsrc => h ⟨hhead.1, hhead.2.1, hhead.2.2.1, hhead.2.2.2, hsrc⟩
        rw [decodeLoop]
        by_cases hzero : kBase64DecodeMap c0 = 0 ∨ kBase64DecodeMap c1 = 0 ∨
            (if src = [] ∧ c2 = ch '=' then 1 else kBase64DecodeMap c2) = 0 ∨
            (if src = [] ∧ c3 = ch '=' then 1 else kBase64DecodeMap c3) = 0
        · exact if_pos hzero
        · rw [if_neg hzero]
          exact decodeLoop_unspelled hsrc
      · exact decodeLoop_refused hhead
  | [], _, h => absurd trivial h
  | [_], _, h => absurd trivial h
  | [_, _], _, h => absurd trivial h
  | [_, _, _], _, h => absurd trivial h

theorem decodeLoop_spelled {size : Nat} : ∀ {text dst : List UInt8}, text ≠ [] →
    text.length % 4 = 0 → Spelled text → size = dst.length + decodedSizeOf text →
    ∃ bytes, decodeLoop size text dst = .ok (dst ++ bytes) ∧ bytes.length = decodedSizeOf text ∧
      (encodeLoop bytes = text ↔ Clean text)
  | c0 :: c1 :: c2 :: c3 :: src, dst, _, hmod, hspelled, hsize => by
      by_cases hsrc : src = []
      · subst hsrc
        exact decodeLoop_last hspelled hsize
      · obtain ⟨h0, h1, h2, h3, hrest⟩ := hspelled
        have hpos := List.length_pos_iff.2 hsrc
        simp only [List.length_cons] at hmod
        obtain ⟨a, ha, hmapa, rfl⟩ := index_of_ne_zero h0
        obtain ⟨b, hb, hmapb, rfl⟩ := index_of_ne_zero h1
        obtain ⟨c, hc, hmapc, rfl⟩ := index_of_ne_zero (h2.resolve_right fun h => hsrc h.1)
        obtain ⟨d, hd, hmapd, rfl⟩ := index_of_ne_zero (h3.resolve_right fun h => hsrc h.1)
        have hpad : padOf (mapAt a :: mapAt b :: mapAt c :: mapAt d :: src) = padOf src :=
          padOf_append [_, _, _, _] (by omega)
        have hle : padOf src ≤ 2 := by
          rw [padOf]
          split <;> split <;> omega
        have hdecoded : decodedSizeOf (mapAt a :: mapAt b :: mapAt c :: mapAt d :: src) =
            decodedSizeOf src + 3 := by
          rw [decodedSizeOf, hpad, decodedSizeOf]
          simp only [List.length_cons]
          omega
        have hthree : (quantumBytes a b c d).take (size - dst.length) = quantumBytes a b c d := by
          rw [List.take_of_length_le]
          rw [quantumBytes, List.length_cons, List.length_cons, List.length_singleton]
          omega
        have hlen : (quantumBytes a b c d).length = 3 := rfl
        obtain ⟨bytes, hrun, hbytes, hclean⟩ := @decodeLoop_spelled size src
          (dst ++ quantumBytes a b c d) hsrc (by omega) hrest
          (by rw [List.length_append, hlen]; omega)
        have hnext : Clean (mapAt a :: mapAt b :: mapAt c :: mapAt d :: src) ↔ Clean src := by
          match src, hsrc with
          | _ :: _, _ => exact Iff.rfl
        refine ⟨quantumBytes a b c d ++ bytes, ?_, ?_, ?_⟩
        · rw [decodeLoop_quantum hmapa hmapb (by rw [if_neg fun h => hsrc h.1, hmapc])
            (by rw [if_neg fun h => hsrc h.1, hmapd]) hb hc hd (by omega), hthree, hrun,
            List.append_assoc]
        · rw [List.length_append, hlen, hbytes, hdecoded, Nat.add_comm]
        · rw [encodeLoop_quantum ha hb hc hd, hnext, ← hclean]
          simp only [List.cons.injEq, true_and]
  | [], _, h, _, _, _ => absurd rfl h
  | [_], _, _, h, _, _ => absurd h (by simp)
  | [_, _], _, _, h, _, _ => absurd h (by simp)
  | [_, _, _], _, _, h, _, _ => absurd h (by simp)

/-- A text that the decoder accepts is the encoding of what it returns. -/
def Faithful (dstCap : Nat) (text : List UInt8) : Prop :=
  ∀ n bytes, base64Decode dstCap text = .ok (n, bytes) → n = bytes.length ∧
    ∀ cap, base64EncodedSize bytes.length ≤ cap →
      base64Encode cap bytes = .ok (text.length, text)

/-- **What the decoder accepts** is the encoding of what it returns if and only if the text is
refused for its length, its size or a character, or its last quantum is clean. Encoded bytes come
back always. -/
theorem base64_faithful_iff (dstCap : Nat) :
    (∀ (src : List UInt8) (dstCap' : Nat), base64EncodedSize src.length ≤ dstCap →
      src.length ≤ dstCap' → ∃ text, base64Encode dstCap src = .ok (text.length, text) ∧
        text.length = base64EncodedSize src.length ∧
        base64Decode dstCap' text = .ok (src.length, src)) ∧
    ∀ text : List UInt8, Faithful dstCap text ↔
      text.length % 4 ≠ 0 ∨ dstCap < text.length / 4 * 3 - padOf text ∨ ¬Spelled text ∨
        Clean text := by
  refine ⟨fun src dstCap' hcap hcap' => ?_, fun text => ?_⟩
  · obtain ⟨hencode, hdecode⟩ := base64Decode_encode hcap hcap'
    have hlen := length_encodeLoop src
    exact ⟨encodeLoop src, by rw [hencode, hlen], hlen, hdecode⟩
  · rw [Faithful, base64Decode]
    by_cases hnone : text = []
    · subst hnone
      refine iff_of_true (fun n bytes h => ?_) (Or.inr (Or.inr (Or.inr trivial)))
      obtain ⟨rfl, rfl⟩ := Prod.mk.inj (Except.ok.inj h)
      exact ⟨rfl, fun _ _ => rfl⟩
    · have hpos := List.length_pos_iff.2 hnone
      rw [if_neg (by omega)]
      by_cases hmod : text.length % 4 ≠ 0
      · rw [if_pos hmod]
        exact iff_of_true nofun (Or.inl hmod)
      · rw [if_neg hmod]
        by_cases hcap : decodedSizeOf text > dstCap
        · rw [if_pos hcap]
          exact iff_of_true nofun (Or.inr (Or.inl hcap))
        · rw [if_neg hcap]
          by_cases hspelled : Spelled text
          · obtain ⟨bytes, hrun, hbytes, hclean⟩ := @decodeLoop_spelled (decodedSizeOf text) text []
              hnone (not_not.1 hmod) hspelled (by rw [List.length_nil, Nat.zero_add])
            have hcond : text.length % 4 ≠ 0 ∨ dstCap < text.length / 4 * 3 - padOf text ∨
                ¬Spelled text ∨ Clean text ↔ Clean text := by
              refine ⟨fun h => ?_, fun h => Or.inr (Or.inr (Or.inr h))⟩
              rcases h with h | h | h | h
              · exact absurd h hmod
              · exact absurd h hcap
              · exact absurd hspelled h
              · exact h
            have hsize : bytes ≠ [] ∨ Clean text → bytes ≠ [] := fun h => by
              rcases h with h | h
              · exact h
              · rintro rfl
                exact hnone (hclean.2 h).symm
            rw [hrun, ok_bind, hcond, ← hclean]
            constructor
            · intro h
              obtain ⟨-, h⟩ := h _ bytes rfl
              have hencode := h _ (Nat.le_refl _)
              rw [base64Encode] at hencode
              by_cases hzero : bytes.length = 0
              · rw [if_pos hzero] at hencode
                have := (Prod.mk.inj (Except.ok.inj hencode)).2
                exact absurd this.symm hnone
              · rw [if_neg hzero, if_neg (by omega)] at hencode
                exact (Prod.mk.inj (Except.ok.inj hencode)).2
            · intro htext n bytes' h
              obtain ⟨rfl, rfl⟩ := Prod.mk.inj (Except.ok.inj h)
              refine ⟨hbytes.symm, fun cap hle => ?_⟩
              have hne := hsize (Or.inr (hclean.1 htext))
              have hpos' := List.length_pos_iff.2 hne
              rw [List.nil_append] at hle ⊢
              rw [base64Encode, if_neg (by omega), if_neg (by omega), htext]
          · rw [decodeLoop_unspelled hspelled]
            exact iff_of_true nofun (Or.inr (Or.inr (Or.inl hspelled)))

/-- `AB=C`, with the padding before the last character, is taken for two bytes, and `QR==`, where
the padding drops a bit that is set, for one. -/
theorem base64_accepts_malformed :
    ¬(∀ (dstCap : Nat) (text : List UInt8), Faithful dstCap text) ∧
      base64Decode 2 (['A', 'B', '=', 'C'].map ch) = .ok (2, [0, 16]) ∧
      base64Decode 1 (['Q', 'R', '=', '='].map ch) = .ok (1, [0x41]) := by
  refine ⟨fun h => ?_, by decide, by decide⟩
  have hencode := (h 2 (['A', 'B', '=', 'C'].map ch) 2 [0, 16] (by decide)).2 4 (by decide)
  exact absurd hencode (by decide)

end OpenZL.Shared.Base64
