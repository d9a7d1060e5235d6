import Pcode.Scramble

set_option autoImplicit false

/-! # Scrambling undoes itself

Scrambling and descrambling both combine the byte number `j` of the data with one byte of the
table word number `j / 4`, as long as the byte belongs to a whole word. That is one equation
about the four bytes of a word (`bytesOf_wordOf_xor`); everything else recurses on the data
four bytes at a time.

Main statements: the two are the same function (`scramble_eq_descramble`), also when it is said byte
by byte (`scrambleBytes_eq_descramble`), and it undoes itself (`descramble_descramble`). -/

namespace Pcode.Scramble

/-! ## One word -/

theorem getLsbD_byte_of_le (a : UInt8) {i : Nat} (hi : 8 ≤ i) : a.toBitVec.getLsbD i = false :=
  BitVec.getLsbD_of_ge a.toBitVec i hi

/-- Combining a word is combining its four bytes with the bytes of the other word. -/
theorem bytesOf_wordOf_xor (a b c d : UInt8) (w : UInt32) :
    bytesOf (wordOf a b c d ^^^ w) =
      [a ^^^ byteOf w 0, b ^^^ byteOf w 1, c ^^^ byteOf w 2, d ^^^ byteOf w 3] := by
  simp only [bytesOf, wordOf, byteOf, List.cons.injEq, and_true]
  refine ⟨?_, ?_, ?_, ?_⟩ <;> apply UInt8.eq_of_toBitVec_eq <;> apply BitVec.eq_of_getLsbD_eq <;>
    intro i hi
  -- bit by bit: at each place of the word at most one of the four bytes has a bit
  · simp
  · have h1 : 8 + i < 16 := by omega
    simp [h1, hi, Nat.lt_trans h1]
  · have ha := getLsbD_byte_of_le a (i := 16 + i) (by omega)
    have hb := getLsbD_byte_of_le b (i := 16 + i - 8) (by omega)
    have h1 : 16 + i < 24 := by omega
    simp [h1, hi, ha, hb, Nat.lt_trans h1]
  · have ha := getLsbD_byte_of_le a (i := 24 + i) (by omega)
    have hb := getLsbD_byte_of_le b (i := 24 + i - 8) (by omega)
    have hc := getLsbD_byte_of_le c (i := 24 + i - 16) (by omega)
    have h1 : 24 + i < 32 := by omega
    simp [h1, hi, ha, hb, hc, Nat.lt_trans hi]

theorem descrambleFrom_word (key i : Nat) (a b c d : UInt8) (rest : List UInt8) :
    descrambleFrom key i (a :: b :: c :: d :: rest) =
      (a ^^^ byteOf (tableWord key i) 0) :: (b ^^^ byteOf (tableWord key i) 1) ::
        (c ^^^ byteOf (tableWord key i) 2) :: (d ^^^ byteOf (tableWord key i) 3) ::
          descrambleFrom key (i + 1) rest := by
  rw [descrambleFrom, bytesOf_wordOf_xor]
  rfl

theorem xor_xor_self (a k : UInt8) : a ^^^ k ^^^ k = a := by
  rw [UInt8.xor_assoc, UInt8.xor_self, UInt8.xor_zero]

/-! ## The whole data -/

theorem descrambleFrom_descrambleFrom (key : Nat) : ∀ (i : Nat) (data : List UInt8),
    descrambleFrom key i (descrambleFrom key i data) = data
  | i, a :: b :: c :: d :: rest => by
      have ih := descrambleFrom_descrambleFrom key (i + 1) rest
      rw [descrambleFrom, bytesOf_wordOf_xor]
      simp only [List.cons_append, List.nil_append]
      rw [descrambleFrom_word, ih]
      simp only [xor_xor_self]
  | _, [] => rfl
  | _, [_] => rfl
  | _, [_, _] => rfl
  | _, [_, _, _] => rfl

/-- **Descrambling twice with one key changes nothing.** -/
theorem descramble_descramble (key : Nat) (data : List UInt8) :
    descramble key (descramble key data) = data :=
  descrambleFrom_descrambleFrom key 0 data

theorem mapIdx_four {β : Type} (f : Nat → UInt8 → β) (a b c d : UInt8) (rest : List UInt8) :
    (a :: b :: c :: d :: rest).mapIdx f =
      f 0 a :: f 1 b :: f 2 c :: f 3 d :: rest.mapIdx fun i x => f (i + 4) x := by
  simp [List.mapIdx_cons]

/-- The bytes combined one by one, the first of them belonging to the word number `i`. -/
theorem mapIdx_eq_descrambleFrom (key : Nat) : ∀ (i : Nat) (data : List UInt8),
    (data.mapIdx fun j b =>
      if j < data.length / 4 * 4 then b ^^^ byteOf (tableWord key (i + j / 4)) (j % 4) else b) =
      descrambleFrom key i data
  | i, a :: b :: c :: d :: rest => by
      have ih := mapIdx_eq_descrambleFrom key (i + 1) rest
      have hlen : (a :: b :: c :: d :: rest).length / 4 * 4 = rest.length / 4 * 4 + 4 := by
        simp only [List.length_cons]
        omega
      rw [descrambleFrom, bytesOf_wordOf_xor, mapIdx_four, ← ih]
      simp only [hlen, Nat.add_div_right _ (show 0 < 4 by decide), Nat.add_mod_right,
        Nat.add_lt_add_iff_right]
      simp [Nat.add_assoc, Nat.add_comm 1]
  -- with fewer than four bytes left, no place lies in a whole word
  | _, [] => rfl
  | _, [_] => by simp [descrambleFrom]
  | _, [_, _] => by simp [descrambleFrom]
  | _, [_, _, _] => by simp [descrambleFrom]

/-- The words combined with those of their places, the first of them being the word number `i`. -/
theorem flatMap_words_eq_descrambleFrom (key : Nat) : ∀ (i : Nat) (data : List UInt8),
    ((wordsOf data).mapIdx fun j w => w ^^^ tableWord key (i + j)).flatMap bytesOf ++
      data.drop (data.length / 4 * 4) = descrambleFrom key i data
  | i, a :: b :: c :: d :: rest => by
      have ih := flatMap_words_eq_descrambleFrom key (i + 1) rest
      have hlen : (a :: b :: c :: d :: rest).length / 4 * 4 = rest.length / 4 * 4 + 4 := by
        simp only [List.length_cons]
        omega
      have hnext : (fun (j : Nat) (w : UInt32) => w ^^^ tableWord key (i + (j + 1))) =
          fun j w => w ^^^ tableWord key (i + 1 + j) := by
        funext j w
        rw [Nat.add_comm j 1, Nat.add_assoc]
      rw [descrambleFrom, ← ih, hlen, wordsOf, List.mapIdx_cons, List.flatMap_cons,
        List.append_assoc, Nat.add_zero, hnext]
      rfl
  | _, [] => rfl
  | _, [_] => by simp [wordsOf, descrambleFrom]
  | _, [_, _] => by simp [wordsOf, descrambleFrom]
  | _, [_, _, _] => by simp [wordsOf, descrambleFrom]

/-- **The two ways of combining agree.** -/
theorem scramble_eq_descramble (key : Nat) (data : List UInt8) :
    scramble key data = descramble key data := by
  rw [scramble, descramble, ← flatMap_words_eq_descrambleFrom]
  simp only [Nat.zero_add]

theorem scrambleBytes_eq_descramble (key : Nat) (data : List UInt8) :
    scrambleBytes key data = descramble key data := by
  rw [scrambleBytes, descramble, ← mapIdx_eq_descrambleFrom]
  simp only [Nat.zero_add]

theorem descramble_scramble (key : Nat) (data : List UInt8) :
    descramble key (scramble key data) = data := by
  rw [scramble_eq_descramble, descramble_descramble]

theorem length_scramble (key : Nat) (data : List UInt8) :
    (scramble key data).length = data.length := by
  rw [scramble_eq_descramble, ← scrambleBytes_eq_descramble, scrambleBytes]
  exact List.length_mapIdx

end Pcode.Scramble
