import RingLock.Proofs.Traversal
import RingLock.Text.Utf8

/-!
# Reading UTF-8 is exact

Long forms, surrogates and code points that are too large are refused. So a character is read only
from its own form, and a text only from its own bytes. From these they are read indeed.
-/
namespace RingLock.Utf8

theorem continues_iff {b : UInt8} : continues b ↔ 0x80 ≤ b.toNat ∧ b.toNat ≤ 0xbf := by
  simp [continues, UInt8.le_iff_toNat_le]

/-- The second byte continues the character and keeps to the bounds that its first byte sets. -/
theorem allowsSecond_iff {first second : UInt8} : allowsSecond first second ↔
    continues second ∧ (first.toNat = 0xe0 → 0xa0 ≤ second.toNat) ∧
      (first.toNat = 0xed → second.toNat ≤ 0x9f) ∧ (first.toNat = 0xf0 → 0x90 ≤ second.toNat) ∧
        (first.toNat = 0xf4 → second.toNat ≤ 0x8f) := by
  rw [continues_iff]
  simp only [allowsSecond, continues, ← UInt8.toNat_inj, UInt8.reduceToNat]
  split_ifs <;> simp [UInt8.le_iff_toNat_le] <;> omega

theorem byte_eq {n : ℕ} {b : UInt8} (h : n = b.toNat) : UInt8.ofNat n = b := by
  rw [h, UInt8.ofNat_toNat]

/-- The form of a code point, by its size. -/
theorem encodeChar_ofNat {v : ℕ} (h : v.isValidChar) : String.utf8EncodeChar (Char.ofNat v) =
    if v ≤ 0x7f then [.ofNat v]
    else if v ≤ 0x7ff then [.ofNat (v / 64 % 32 + 192), .ofNat (v % 64 + 128)]
    else if v ≤ 0xffff then
      [.ofNat (v / 4096 % 16 + 224), .ofNat (v / 64 % 64 + 128), .ofNat (v % 64 + 128)]
    else
      [.ofNat (v / 262144 % 8 + 240), .ofNat (v / 4096 % 64 + 128), .ofNat (v / 64 % 64 + 128),
        .ofNat (v % 64 + 128)] := by
  have point : (Char.ofNat v).val.toNat = v := by
    rw [Char.ofNat, dif_pos h]
    rfl
  unfold String.utf8EncodeChar
  simp only [point]

section Forms

variable {a b c d : UInt8}

theorem encodeChar_one (ha : a.toNat < 0x80) :
    String.utf8EncodeChar (Char.ofNat a.toNat) = [a] := by
  rw [encodeChar_ofNat (.inl (by omega)), if_pos (by omega), UInt8.ofNat_toNat]

theorem encodeChar_two (low : 0xc2 ≤ a.toNat) (high : a.toNat ≤ 0xdf) (hb : continues b) :
    String.utf8EncodeChar (Char.ofNat (a.toNat % 32 * 64 + payload b)) = [a, b] := by
  rw [continues_iff] at hb
  unfold payload
  rw [encodeChar_ofNat (.inl (by omega)), if_neg (by omega), if_pos (by omega)]
  rw [byte_eq (b := a) (by omega), byte_eq (b := b) (by omega)]

theorem encodeChar_three (low : 0xe0 ≤ a.toNat) (high : a.toNat ≤ 0xef) (hb : allowsSecond a b)
    (hc : continues c) :
    String.utf8EncodeChar (Char.ofNat ((a.toNat % 16 * 64 + payload b) * 64 + payload c)) =
      [a, b, c] := by
  rw [allowsSecond_iff, continues_iff] at hb
  rw [continues_iff] at hc
  unfold payload
  have valid : Nat.isValidChar ((a.toNat % 16 * 64 + b.toNat % 64) * 64 + c.toNat % 64) := by
    unfold Nat.isValidChar
    omega
  rw [encodeChar_ofNat valid, if_neg (by omega), if_neg (by omega), if_pos (by omega)]
  rw [byte_eq (b := a) (by omega), byte_eq (b := b) (by omega), byte_eq (b := c) (by omega)]

theorem encodeChar_four (low : 0xf0 ≤ a.toNat) (high : a.toNat ≤ 0xf4) (hb : allowsSecond a b)
    (hc : continues c) (hd : continues d) :
    String.utf8EncodeChar
        (Char.ofNat (((a.toNat % 8 * 64 + payload b) * 64 + payload c) * 64 + payload d)) =
      [a, b, c, d] := by
  rw [allowsSecond_iff, continues_iff] at hb
  rw [continues_iff] at hc hd
  unfold payload
  have valid : Nat.isValidChar
      (((a.toNat % 8 * 64 + b.toNat % 64) * 64 + c.toNat % 64) * 64 + d.toNat % 64) := by
    unfold Nat.isValidChar
    omega
  rw [encodeChar_ofNat valid, if_neg (by omega), if_neg (by omega), if_neg (by omega)]
  rw [byte_eq (b := a) (by omega), byte_eq (b := b) (by omega), byte_eq (b := c) (by omega),
    byte_eq (b := d) (by omega)]

end Forms

/-- A character is read from its own form and from nothing else. -/
theorem encode_of_character {first : UInt8} {rest : List UInt8} {c : Char} {more : ℕ}
    (h : character first rest = .ok (c, more)) :
    String.utf8EncodeChar c ++ rest.drop more = first :: rest := by
  simp only [character, UInt8.lt_iff_toNat_lt, UInt8.le_iff_toNat_le, UInt8.reduceToNat,
    Bool.not_eq_true', ← Bool.not_eq_true] at h
  -- by the first byte; a text that ends too early is refused in every case
  split at h
  case isTrue one =>
    obtain ⟨rfl, rfl⟩ := Prod.mk.inj (Except.ok.inj h)
    rw [encodeChar_one one]
    rfl
  split at h
  case isTrue two =>
    cases rest with
    | nil => contradiction
    | cons b rest =>
      obtain ⟨hb, h⟩ := Traversal.provided_eq_ok.1 h
      obtain ⟨rfl, rfl⟩ := Prod.mk.inj (Except.ok.inj h)
      rw [encodeChar_two two.1 two.2 hb]
      rfl
  split at h
  case isTrue three =>
    cases rest with
    | nil => contradiction
    | cons b rest =>
      obtain ⟨hb, h⟩ := Traversal.unless_eq_ok.1 h
      cases rest with
      | nil => contradiction
      | cons c rest =>
        obtain ⟨hc, h⟩ := Traversal.provided_eq_ok.1 h
        obtain ⟨rfl, rfl⟩ := Prod.mk.inj (Except.ok.inj h)
        rw [encodeChar_three three.1 three.2 hb hc]
        rfl
  split at h
  case isTrue four =>
    cases rest with
    | nil => contradiction
    | cons b rest =>
      obtain ⟨hb, h⟩ := Traversal.unless_eq_ok.1 h
      cases rest with
      | nil => contradiction
      | cons c rest =>
        obtain ⟨hc, h⟩ := Traversal.unless_eq_ok.1 h
        cases rest with
        | nil => contradiction
        | cons d rest =>
          obtain ⟨hd, h⟩ := Traversal.provided_eq_ok.1 h
          obtain ⟨rfl, rfl⟩ := Prod.mk.inj (Except.ok.inj h)
          rw [encodeChar_four four.1 four.2 hb hc hd]
          rfl
  contradiction

theorem flatMap_of_decodeFrom {start : ℕ} {bytes : List UInt8} {cs : List Char}
    (h : decodeFrom start bytes = .ok cs) : cs.flatMap String.utf8EncodeChar = bytes := by
  induction start, bytes using decodeFrom.induct generalizing cs with
  | case1 start =>
    rw [decodeFrom] at h
    obtain rfl := Except.ok.inj h
    rfl
  | case2 start first rest length bad =>
    rw [decodeFrom, bad] at h
    contradiction
  | case3 start first rest c more good ih =>
    rw [decodeFrom, good] at h
    cases later : decodeFrom (start + 1 + more) (rest.drop more) with
    | error flaw => simp [later, Except.map] at h
    | ok ds =>
      obtain rfl : c :: ds = cs := by simpa [later, Except.map] using h
      rw [List.flatMap_cons, ih later, encode_of_character good]

/-- A text is read from its own bytes and from nothing else. -/
theorem encode_of_decode {bytes : List UInt8} {s : String} (h : decode bytes = .ok s) :
    encode s = bytes := by
  unfold decode at h
  cases read : decodeFrom 0 bytes with
  | error flaw => simp [read, Except.map] at h
  | ok cs =>
    obtain rfl : String.ofList cs = s := by simpa [read, Except.map] using h
    rw [encode, String.toList_ofList, flatMap_of_decodeFrom read]

section Readings

variable {a b c d : UInt8} {rest : List UInt8}

theorem character_one (ha : a.toNat < 0x80) : character a rest = .ok (Char.ofNat a.toNat, 0) := by
  unfold character
  rw [if_pos (UInt8.lt_iff_toNat_lt.2 ha)]

theorem character_two (low : 0xc2 ≤ a.toNat) (high : a.toNat ≤ 0xdf) (hb : continues b) :
    character a (b :: rest) = .ok (Char.ofNat (a.toNat % 32 * 64 + payload b), 1) := by
  simp only [character, UInt8.lt_iff_toNat_lt, UInt8.le_iff_toNat_le, UInt8.reduceToNat]
  rw [if_neg (by omega), if_pos ⟨low, high⟩, if_pos hb]

theorem character_three (low : 0xe0 ≤ a.toNat) (high : a.toNat ≤ 0xef) (hb : allowsSecond a b)
    (hc : continues c) : character a (b :: c :: rest) =
      .ok (Char.ofNat ((a.toNat % 16 * 64 + payload b) * 64 + payload c), 2) := by
  simp only [character, UInt8.lt_iff_toNat_lt, UInt8.le_iff_toNat_le, UInt8.reduceToNat]
  rw [if_neg (by omega), if_neg (by omega), if_pos ⟨low, high⟩, if_neg (by simp [hb]), if_pos hc]

theorem character_four (low : 0xf0 ≤ a.toNat) (high : a.toNat ≤ 0xf4) (hb : allowsSecond a b)
    (hc : continues c) (hd : continues d) : character a (b :: c :: d :: rest) =
      .ok (Char.ofNat (((a.toNat % 8 * 64 + payload b) * 64 + payload c) * 64 + payload d), 3) := by
  simp only [character, UInt8.lt_iff_toNat_lt, UInt8.le_iff_toNat_le, UInt8.reduceToNat]
  rw [if_neg (by omega), if_neg (by omega), if_neg (by omega), if_pos ⟨low, high⟩,
    if_neg (by simp [hb]), if_neg (by simp [hc]), if_pos hd]

end Readings

theorem toNat_byte {n : ℕ} (h : n < 256) : (UInt8.ofNat n).toNat = n :=
  UInt8.toNat_ofNat_of_lt' h

theorem continues_byte (n : ℕ) : continues (.ofNat (n % 64 + 128)) := by
  rw [continues_iff, toNat_byte (by omega)]
  omega

theorem payload_byte (n : ℕ) : payload (.ofNat (n % 64 + 128)) = n % 64 := by
  rw [payload, toNat_byte (by omega)]
  omega

/-- A character is read from its form, whatever follows. -/
theorem character_of_encode (c : Char) (rest : List UInt8) :
    ∃ first tail, String.utf8EncodeChar c = first :: tail ∧
      character first (tail ++ rest) = .ok (c, tail.length) := by
  have valid : c.val.toNat.isValidChar := c.valid
  have same : Char.ofNat c.val.toNat = c := Char.ofNat_toNat c
  generalize c.val.toNat = v at valid same
  subst same
  rw [encodeChar_ofNat valid]
  unfold Nat.isValidChar at valid
  -- by the number of bytes
  split_ifs with one two three
  · refine ⟨_, _, rfl, ?_⟩
    rw [List.nil_append, character_one (by rw [toNat_byte] <;> omega), toNat_byte (by omega)]
    rfl
  · refine ⟨_, _, rfl, ?_⟩
    have lead : (UInt8.ofNat (v / 64 % 32 + 192)).toNat = v / 64 % 32 + 192 := toNat_byte (by omega)
    have point : (v / 64 % 32 + 192) % 32 * 64 + v % 64 = v := by omega
    rw [List.cons_append, character_two (by omega) (by omega) (continues_byte v), lead,
      payload_byte, point]
    rfl
  · refine ⟨_, _, rfl, ?_⟩
    have lead : (UInt8.ofNat (v / 4096 % 16 + 224)).toNat = v / 4096 % 16 + 224 :=
      toNat_byte (by omega)
    have next : (UInt8.ofNat (v / 64 % 64 + 128)).toNat = v / 64 % 64 + 128 := toNat_byte (by omega)
    have point : ((v / 4096 % 16 + 224) % 16 * 64 + v / 64 % 64) * 64 + v % 64 = v := by omega
    have second : allowsSecond (.ofNat (v / 4096 % 16 + 224)) (.ofNat (v / 64 % 64 + 128)) := by
      rw [allowsSecond_iff, lead, next]
      exact ⟨continues_byte _, by omega, by omega, by omega, by omega⟩
    rw [List.cons_append, List.cons_append, character_three (by omega) (by omega) second
      (continues_byte v), lead, payload_byte, payload_byte, point]
    rfl
  · refine ⟨_, _, rfl, ?_⟩
    have lead : (UInt8.ofNat (v / 262144 % 8 + 240)).toNat = v / 262144 % 8 + 240 :=
      toNat_byte (by omega)
    have next : (UInt8.ofNat (v / 4096 % 64 + 128)).toNat = v / 4096 % 64 + 128 :=
      toNat_byte (by omega)
    have point : (((v / 262144 % 8 + 240) % 8 * 64 + v / 4096 % 64) * 64 + v / 64 % 64) * 64 +
        v % 64 = v := by omega
    have second : allowsSecond (.ofNat (v / 262144 % 8 + 240)) (.ofNat (v / 4096 % 64 + 128)) := by
      rw [allowsSecond_iff, lead, next]
      exact ⟨continues_byte _, by omega, by omega, by omega, by omega⟩
    rw [List.cons_append, List.cons_append, List.cons_append, character_four (by omega) (by omega)
      second (continues_byte _) (continues_byte v), lead, payload_byte, payload_byte, payload_byte,
      point]
    rfl

theorem decodeFrom_flatMap (start : ℕ) (cs : List Char) :
    decodeFrom start (cs.flatMap String.utf8EncodeChar) = .ok cs := by
  induction cs generalizing start with
  | nil => rw [List.flatMap_nil, decodeFrom]
  | cons c cs ih =>
    obtain ⟨first, tail, form, read⟩ := character_of_encode c (cs.flatMap String.utf8EncodeChar)
    rw [List.flatMap_cons, form, List.cons_append, decodeFrom, read]
    simp [ih, Except.map]

/-- A text is read from its bytes. -/
theorem decode_encode (s : String) : decode (encode s) = .ok s := by
  rw [decode, encode, decodeFrom_flatMap]
  simp [Except.map]

end RingLock.Utf8
