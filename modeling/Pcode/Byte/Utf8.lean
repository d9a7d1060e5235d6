set_option autoImplicit false

/-! # UTF-8

`decodeLossy` puts one replacement character in the place of every maximal part that begins
no character; `decode` stops at the first such part and says where it is and what is wrong. -/

namespace Pcode.Utf8

/-- The bytes of a text. -/
def encode (s : List Char) : List UInt8 := s.flatMap String.utf8EncodeChar

/-- Why bytes begin no character. -/
inductive Fault where
  /-- the first byte begins no character -/
  | start
  /-- a byte in the middle does not continue the character -/
  | continuation
  /-- the text ends inside a character -/
  | truncated
deriving Repr, DecidableEq

/-- What stands at the start of some bytes: a character, or `bad` bytes that begin none. -/
inductive Step where
  | char (c : Char) (rest : List UInt8)
  | fault (kind : Fault) (bad : Nat) (rest : List UInt8)
deriving Repr, DecidableEq

/-- Read `need` further bytes of a character. The next one lies between `lo` and `hi`; `value`
is what the bytes read so far are worth, and `count` is their number. -/
def continueChar (need lo hi value count : Nat) (bs : List UInt8) : Step :=
  match need, bs with
  | 0, bs => .char (Char.ofNat value) bs
  | _ + 1, [] => .fault .truncated count []
  | need + 1, b :: rest =>
      if lo ≤ b.toNat && b.toNat ≤ hi then
        continueChar need 0x80 0xBF (value * 64 + b.toNat % 64) (count + 1) rest
      else .fault .continuation count (b :: rest)

/-- Read the character that begins with the byte `b`. Ranges of the second byte leave out
overlong forms, surrogates and numbers beyond the last code point. -/
def readChar (b : UInt8) (rest : List UInt8) : Step :=
  let n := b.toNat
  if n < 0x80 then .char (Char.ofNat n) rest
  else if n < 0xC2 then .fault .start 1 rest
  else if n < 0xE0 then continueChar 1 0x80 0xBF (n % 32) 1 rest
  else if n < 0xF0 then
    continueChar 2 (if n = 0xE0 then 0xA0 else 0x80) (if n = 0xED then 0x9F else 0xBF) (n % 16) 1
      rest
  else if n < 0xF5 then
    continueChar 3 (if n = 0xF0 then 0x90 else 0x80) (if n = 0xF4 then 0x8F else 0xBF) (n % 8) 1
      rest
  else .fault .start 1 rest

/-- What is left after a step. -/
def Step.rest : Step → List UInt8
  | .char _ rest => rest
  | .fault _ _ rest => rest

theorem length_continueChar_rest_le (need lo hi value count : Nat) (bs : List UInt8) :
    (continueChar need lo hi value count bs).rest.length ≤ bs.length := by
  fun_induction continueChar need lo hi value count bs with
  | case1 => exact Nat.le_refl _
  | case2 => exact Nat.le_refl _
  | case3 _ _ _ _ _ _ _ _ ih => exact Nat.le_succ_of_le ih
  | case4 => exact Nat.le_refl _

theorem length_readChar_rest_le (b : UInt8) (rest : List UInt8) :
    (readChar b rest).rest.length ≤ rest.length := by
  simp only [readChar]
  repeat' split
  all_goals first
    | exact length_continueChar_rest_le ..
    | exact Nat.le_refl _

/-- The character put in the place of bytes that begin none. -/
def replacement : Char := Char.ofNat 0xFFFD

/-- The text of some bytes, with a replacement character for each maximal part that begins
no character. -/
def decodeLossy : List UInt8 → List Char
  | [] => []
  | b :: rest =>
      have := length_readChar_rest_le b rest
      match h : readChar b rest with
      | .char c r =>
          have : r.length ≤ rest.length := by rw [h] at this; exact this
          c :: decodeLossy r
      | .fault _ _ r =>
          have : r.length ≤ rest.length := by rw [h] at this; exact this
          replacement :: decodeLossy r
termination_by bs => bs.length
decreasing_by all_goals simp_wf; omega

/-- The first fault in some bytes: where it begins, which bytes it has, and its kind. -/
structure Error where
  position : Nat
  bad : List UInt8
  kind : Fault
deriving Repr, DecidableEq

/-- The text of some bytes that stand at `offset`, or the first fault. -/
def decodeFrom (offset : Nat) : List UInt8 → Except Error (List Char)
  | [] => .ok []
  | b :: rest =>
      have := length_readChar_rest_le b rest
      match h : readChar b rest with
      | .char c r =>
          have : r.length ≤ rest.length := by rw [h] at this; exact this
          (decodeFrom (offset + (rest.length + 1 - r.length)) r).map (c :: ·)
      | .fault kind bad _ => .error ⟨offset, (b :: rest).take bad, kind⟩
termination_by bs => bs.length
decreasing_by all_goals simp_wf; omega

/-- The text of some bytes, or the first fault. -/
def decode (bs : List UInt8) : Except Error (List Char) := decodeFrom 0 bs

end Pcode.Utf8
