import Pcode.Byte.Utf8

set_option autoImplicit false

/-! # Reading back what was written in UTF-8

Main statements: decoding the bytes of a text gives the text (`decodeLossy_encode`), so the
bytes determine the text (`encode_injective`); and the zero byte, which ends a name, writes no
character but the zero character (`zero_not_mem_encode`).

`readChar` narrows the range of the second byte to leave out overlong forms and surrogates. A
character has neither, and that is where its validity is used. -/

namespace Pcode.Utf8

/-! ## One character -/

theorem toNat_byte {n : Nat} (h : n < 256) : (UInt8.ofNat n).toNat = n :=
  UInt8.toNat_ofNat_of_lt' h

/-- A byte in the range asked for continues a character. -/
theorem continueChar_cons {need lo hi value count x : Nat} (bs : List UInt8) (hlo : lo ≤ x)
    (hhi : x ≤ hi) (hx : x < 256) :
    continueChar (need + 1) lo hi value count (UInt8.ofNat x :: bs) =
      continueChar need 0x80 0xBF (value * 64 + x % 64) (count + 1) bs := by
  have hnat : (UInt8.ofNat x).toNat = x := toNat_byte hx
  rw [continueChar, hnat, if_pos (by simp [hlo, hhi])]

theorem readChar_one {v : Nat} (hv : v ≤ 0x7F) (bs : List UInt8) :
    readChar (UInt8.ofNat v) bs = .char (Char.ofNat v) bs := by
  have hnat : (UInt8.ofNat v).toNat = v := toNat_byte (by omega)
  simp only [readChar, hnat]
  rw [if_pos (by omega)]

theorem readChar_two {v : Nat} (hlo : 0x7F < v) (hhi : v ≤ 0x7FF) (bs : List UInt8) :
    readChar (UInt8.ofNat (v / 64 % 0x20 + 0xC0)) (UInt8.ofNat (v % 0x40 + 0x80) :: bs) =
      .char (Char.ofNat v) bs := by
  have hnat : (UInt8.ofNat (v / 64 % 0x20 + 0xC0)).toNat = v / 64 % 0x20 + 0xC0 :=
    toNat_byte (by omega)
  simp only [readChar, hnat]
  rw [if_neg (by omega), if_neg (by omega), if_pos (by omega),
    continueChar_cons bs (by omega) (by omega) (by omega), continueChar]
  congr 2
  omega

theorem readChar_three {v : Nat} (hlo : 0x7FF < v) (hhi : v ≤ 0xFFFF)
    (hvalid : v < 0xD800 ∨ 0xDFFF < v) (bs : List UInt8) :
    readChar (UInt8.ofNat (v / 4096 % 0x10 + 0xE0))
        (UInt8.ofNat (v / 64 % 0x40 + 0x80) :: UInt8.ofNat (v % 0x40 + 0x80) :: bs) =
      .char (Char.ofNat v) bs := by
  have hnat : (UInt8.ofNat (v / 4096 % 0x10 + 0xE0)).toNat = v / 4096 % 0x10 + 0xE0 :=
    toNat_byte (by omega)
  simp only [readChar, hnat]
  rw [if_neg (by omega), if_neg (by omega), if_neg (by omega), if_pos (by omega),
    continueChar_cons _ (by split <;> omega) (by split <;> omega) (by omega),
    continueChar_cons bs (by omega) (by omega) (by omega), continueChar]
  congr 2
  omega

theorem readChar_four {v : Nat} (hlo : 0xFFFF < v) (hhi : v < 0x110000) (bs : List UInt8) :
    readChar (UInt8.ofNat (v / 262144 % 0x08 + 0xF0))
        (UInt8.ofNat (v / 4096 % 0x40 + 0x80) :: UInt8.ofNat (v / 64 % 0x40 + 0x80) ::
          UInt8.ofNat (v % 0x40 + 0x80) :: bs) =
      .char (Char.ofNat v) bs := by
  have hnat : (UInt8.ofNat (v / 262144 % 0x08 + 0xF0)).toNat = v / 262144 % 0x08 + 0xF0 :=
    toNat_byte (by omega)
  simp only [readChar, hnat]
  rw [if_neg (by omega), if_neg (by omega), if_neg (by omega), if_neg (by omega),
    if_pos (by omega),
    continueChar_cons _ (by split <;> omega) (by split <;> omega) (by omega),
    continueChar_cons _ (by omega) (by omega) (by omega),
    continueChar_cons bs (by omega) (by omega) (by omega), continueChar]
  congr 2
  omega

theorem decodeLossy_cons_of_char {b : UInt8} {rest r : List UInt8} {c : Char}
    (h : readChar b rest = .char c r) : decodeLossy (b :: rest) = c :: decodeLossy r := by
  rw [decodeLossy]
  split
  · next c' r' h' => rw [h] at h'; cases h'; rfl
  · next h' => rw [h] at h'; cases h'

/-- The bytes of a character in front of others are read as that character. -/
theorem decodeLossy_utf8EncodeChar_append (c : Char) (bs : List UInt8) :
    decodeLossy (String.utf8EncodeChar c ++ bs) = c :: decodeLossy bs := by
  have hvalid : c.val.toNat < 0xD800 ∨ 0xDFFF < c.val.toNat ∧ c.val.toNat < 0x110000 := c.valid
  have hc : Char.ofNat c.val.toNat = c := Char.ofNat_toNat c
  simp only [String.utf8EncodeChar]
  -- one case for each number of bytes
  split
  · next h1 =>
      exact (decodeLossy_cons_of_char (readChar_one h1 bs)).trans (by rw [hc])
  split
  · next h1 h2 =>
      exact (decodeLossy_cons_of_char (readChar_two (by omega) h2 bs)).trans (by rw [hc])
  split
  · next h1 h2 h3 =>
      exact (decodeLossy_cons_of_char
        (readChar_three (by omega) h3 (by omega) bs)).trans (by rw [hc])
  · next h1 h2 h3 =>
      exact (decodeLossy_cons_of_char
        (readChar_four (by omega) (by omega) bs)).trans (by rw [hc])

/-! ## Texts -/

/-- **Decoding undoes encoding.** -/
theorem decodeLossy_encode (s : List Char) : decodeLossy (encode s) = s := by
  induction s with
  | nil => rw [encode, List.flatMap_nil, decodeLossy]
  | cons c s ih =>
      rw [encode, List.flatMap_cons, decodeLossy_utf8EncodeChar_append]
      exact congrArg (c :: ·) ih

theorem encode_injective : Function.Injective encode :=
  Function.LeftInverse.injective decodeLossy_encode

theorem zero_not_mem_utf8EncodeChar {c : Char} (hc : c ≠ Char.ofNat 0) :
    0 ∉ String.utf8EncodeChar c := by
  have hv : c.val.toNat ≠ 0 := by
    intro h
    apply hc
    rw [← h]
    exact (Char.ofNat_toNat c).symm
  have hne : ∀ n, n ≠ 0 → n < 256 → ¬ (0 : UInt8) = UInt8.ofNat n := by
    intro n hpos hlt heq
    have hnat := congrArg UInt8.toNat heq
    rw [toNat_byte hlt] at hnat
    exact hpos hnat.symm
  simp only [String.utf8EncodeChar]
  split
  · next h1 =>
      simp only [List.mem_cons, List.not_mem_nil, or_false]
      exact hne _ hv (by omega)
  -- every byte of a longer form is at least 0x80
  split
  · simp only [List.mem_cons, List.not_mem_nil, or_false, not_or]
    exact ⟨hne _ (by omega) (by omega), hne _ (by omega) (by omega)⟩
  split
  · simp only [List.mem_cons, List.not_mem_nil, or_false, not_or]
    exact ⟨hne _ (by omega) (by omega), hne _ (by omega) (by omega), hne _ (by omega) (by omega)⟩
  · simp only [List.mem_cons, List.not_mem_nil, or_false, not_or]
    exact ⟨hne _ (by omega) (by omega), hne _ (by omega) (by omega), hne _ (by omega) (by omega),
      hne _ (by omega) (by omega)⟩

/-- A text without the zero character is written without the zero byte. -/
theorem zero_not_mem_encode {s : List Char} (hs : Char.ofNat 0 ∉ s) : 0 ∉ encode s := by
  intro h
  obtain ⟨c, hc, hzero⟩ := List.mem_flatMap.1 h
  have hne : c ≠ Char.ofNat 0 := fun he => hs (he ▸ hc)
  exact zero_not_mem_utf8EncodeChar hne hzero

end Pcode.Utf8
