import Mathlib
import Pcode.Proofs.Scramble

set_option autoImplicit false

/-! # Scrambling in numbers

The whole words of the data can be read as numbers without a bound, combined with the numbers of the
table, and written again as four bytes each, which is possible only below `2 ^ 32`. Here is that
this is what scrambling does, and that the numbers are never too large (`pack?_combine`).

Main statement: scrambling keeps the length and what follows the last whole word, depends on eight
bits of the key only, and undoes itself (`descramble_involution`). -/

namespace Pcode.Scramble

/-! ## Words as numbers -/

/-- The number with the given bytes, the lowest first. -/
def numberOf (a b c d : UInt8) : Nat :=
  a.toNat + 2 ^ 8 * b.toNat + 2 ^ 16 * c.toNat + 2 ^ 24 * d.toNat

/-- The numbers of the whole words of some bytes. -/
def unpack : List UInt8 → List Nat
  | a :: b :: c :: d :: rest => numberOf a b c d :: unpack rest
  | _ => []

/-- The four lowest bytes of a number, the lowest first. -/
def lowBytes (n : Nat) : List UInt8 :=
  [UInt8.ofNat n, UInt8.ofNat (n / 2 ^ 8), UInt8.ofNat (n / 2 ^ 16), UInt8.ofNat (n / 2 ^ 24)]

/-- The bytes of some numbers, four for each; `none` if one of them does not fit. -/
def pack? : List Nat → Option (List UInt8)
  | [] => some []
  | n :: ns => if n < 2 ^ 32 then (pack? ns).map (lowBytes n ++ ·) else none

/-- The numbers combined with those of the table, the first of them being the word number `i`. -/
def combine (key i : Nat) (ns : List Nat) : List Nat :=
  ns.mapIdx fun j n => n ^^^ (tableWord key (i + j)).toNat

theorem combine_cons (key i n : Nat) (ns : List Nat) :
    combine key i (n :: ns) = (n ^^^ (tableWord key i).toNat) :: combine key (i + 1) ns := by
  simp [combine, List.mapIdx_cons, Nat.add_assoc, Nat.add_comm 1]

/-! ## The two kinds of words agree -/

theorem toNat_wordOf (a b c d : UInt8) : (wordOf a b c d).toNat = numberOf a b c d := by
  have ha := a.toNat_lt
  have hb := b.toNat_lt
  have hc := c.toNat_lt
  have hd := d.toNat_lt
  -- the bytes stand side by side, so that nothing is carried and nothing is cut off
  have h1 : b.toNat <<< 8 ||| a.toNat = b.toNat <<< 8 + a.toNat :=
    (Nat.shiftLeft_add_eq_or_of_lt ha _).symm
  have h2 : c.toNat <<< 16 ||| (b.toNat <<< 8 + a.toNat) =
      c.toNat <<< 16 + (b.toNat <<< 8 + a.toNat) :=
    (Nat.shiftLeft_add_eq_or_of_lt (by rw [Nat.shiftLeft_eq]; omega) _).symm
  have h3 : d.toNat <<< 24 ||| (c.toNat <<< 16 + (b.toNat <<< 8 + a.toNat)) =
      d.toNat <<< 24 + (c.toNat <<< 16 + (b.toNat <<< 8 + a.toNat)) :=
    (Nat.shiftLeft_add_eq_or_of_lt (by rw [Nat.shiftLeft_eq, Nat.shiftLeft_eq]; omega) _).symm
  have hword : (wordOf a b c d).toNat =
      a.toNat ||| b.toNat <<< 8 ||| c.toNat <<< 16 ||| d.toNat <<< 24 := by
    have hfit : ∀ (x : UInt8) (k : Nat), k ≤ 24 → x.toNat <<< k < 2 ^ 32 := by
      intro x k hk
      have hx := x.toNat_lt
      have hpow : 2 ^ k ≤ 2 ^ 24 := Nat.pow_le_pow_right (by decide) hk
      rw [Nat.shiftLeft_eq]
      nlinarith
    simp only [wordOf, UInt32.toNat_or, UInt32.toNat_shiftLeft, UInt8.toNat_toUInt32]
    rw [show (8 : UInt32).toNat % 32 = 8 from rfl, show (16 : UInt32).toNat % 32 = 16 from rfl,
      show (24 : UInt32).toNat % 32 = 24 from rfl, Nat.mod_eq_of_lt (hfit b 8 (by decide)),
      Nat.mod_eq_of_lt (hfit c 16 (by decide)), Nat.mod_eq_of_lt (hfit d 24 (by decide))]
  rw [hword, Nat.or_comm a.toNat, h1, Nat.or_comm _ (c.toNat <<< 16), h2,
    Nat.or_comm _ (d.toNat <<< 24), h3, numberOf]
  simp only [Nat.shiftLeft_eq]
  omega

theorem bytesOf_eq_lowBytes (w : UInt32) : bytesOf w = lowBytes w.toNat := by
  have hbyte : ∀ v : UInt32, v.toUInt8 = UInt8.ofNat v.toNat := fun v => rfl
  simp only [bytesOf, lowBytes, hbyte, UInt32.toNat_shiftRight, Nat.shiftRight_eq_div_pow]
  rfl

/-! ## The whole data -/

/-- The numbers of the words can always be written again, and what is written stands before the
bytes that belong to no whole word. -/
theorem pack?_combine (key : Nat) : ∀ (i : Nat) (data : List UInt8),
    ∃ out, pack? (combine key i (unpack data)) = some out ∧
      descrambleFrom key i data = out ++ data.rtake (data.length % 4)
  | i, a :: b :: c :: d :: rest => by
      obtain ⟨out, hout, hrest⟩ := pack?_combine key (i + 1) rest
      have hnumber : numberOf a b c d ^^^ (tableWord key i).toNat =
          (wordOf a b c d ^^^ tableWord key i).toNat := by
        rw [UInt32.toNat_xor, toNat_wordOf]
      refine ⟨bytesOf (wordOf a b c d ^^^ tableWord key i) ++ out, ?_, ?_⟩
      · rw [unpack, combine_cons, pack?, hnumber, if_pos (UInt32.toNat_lt _), hout,
          bytesOf_eq_lowBytes]
        rfl
      · have htail : (a :: b :: c :: d :: rest).rtake ((a :: b :: c :: d :: rest).length % 4) =
            rest.rtake (rest.length % 4) := by
          have hmod : (rest.length + 4) % 4 = rest.length % 4 := Nat.add_mod_right _ _
          have hle := Nat.mod_le rest.length 4
          have hlen : rest.length + 4 - rest.length % 4 = rest.length - rest.length % 4 + 4 := by
            omega
          simp only [List.rtake, List.length_cons, hmod, hlen, List.drop_succ_cons]
        rw [descrambleFrom, hrest, htail, List.append_assoc]
  | _, [] => ⟨[], rfl, rfl⟩
  | _, [_] => ⟨[], rfl, rfl⟩
  | _, [_, _] => ⟨[], rfl, rfl⟩
  | _, [_, _, _] => ⟨[], rfl, rfl⟩

/-- Only the bits 12 to 19 of a key are looked at. -/
theorem start_congr {key key' : Nat}
    (h : ∀ i, 12 ≤ i → i ≤ 19 → key'.testBit i = key.testBit i) : start key' = start key := by
  have hbits : ∀ k, start k = k / 2 ^ 12 % 2 ^ 8 := fun k => rfl
  apply Nat.eq_of_testBit_eq
  intro i
  rw [hbits, hbits, Nat.testBit_mod_two_pow, Nat.testBit_mod_two_pow, Nat.testBit_div_two_pow,
    Nat.testBit_div_two_pow]
  by_cases hi : i < 8
  · rw [h (i + 12) (by omega) (by omega)]
  · simp [hi]

theorem descrambleFrom_congr {key key' : Nat} (h : start key' = start key) :
    ∀ (i : Nat) (data : List UInt8), descrambleFrom key' i data = descrambleFrom key i data
  | i, a :: b :: c :: d :: rest => by
      rw [descrambleFrom, descrambleFrom, tableWord, tableWord, h,
        descrambleFrom_congr h (i + 1) rest]
  | _, [] => rfl
  | _, [_] => rfl
  | _, [_, _] => rfl
  | _, [_, _, _] => rfl

/-- **Scrambling undoes itself.** Combined by words or by bytes the data come out the same, with as
many bytes as before. The numbers of the combined words always fit into four bytes; they are
followed by the bytes after the last whole word, which are unchanged. Keys with the same bits 12 to
19 do the same, and doing it twice changes nothing. -/
theorem descramble_involution (key : Nat) (data : List UInt8) :
    descramble key data = scramble key data ∧
      (descramble key data).length = data.length ∧
      (∃ out, pack? (combine key 0 (unpack data)) = some out ∧
        descramble key data = out ++ data.rtake (data.length % 4)) ∧
      (descramble key data).rtake (data.length % 4) = data.rtake (data.length % 4) ∧
      (∀ key', (∀ i, 12 ≤ i → i ≤ 19 → key'.testBit i = key.testBit i) →
        descramble key' data = descramble key data) ∧
      descramble key (descramble key data) = data := by
  have hsame : descramble key data = scramble key data := (scramble_eq_descramble key data).symm
  have hlength : (descramble key data).length = data.length := by
    rw [hsame, length_scramble]
  obtain ⟨out, hout, hdata⟩ := pack?_combine key 0 data
  change descramble key data = _ at hdata
  refine ⟨hsame, hlength, ⟨out, hout, hdata⟩, ?_, ?_, descramble_descramble key data⟩
  · -- what is written for the words is as long as the words are
    have hle := Nat.mod_le data.length 4
    have htail : (data.rtake (data.length % 4)).length = data.length % 4 := by
      simp only [List.rtake, List.length_drop]
      omega
    have hwhole : out.length = (descramble key data).length - data.length % 4 := by
      rw [hdata, List.length_append, htail]
      omega
    calc (descramble key data).rtake (data.length % 4)
        = (descramble key data).drop out.length := by rw [List.rtake, ← hwhole]
      _ = (out ++ data.rtake (data.length % 4)).drop out.length := congrArg _ hdata
      _ = data.rtake (data.length % 4) := List.drop_left
  · intro key' hbits
    exact descrambleFrom_congr (start_congr hbits) 0 data

/-- Two words, the first combined with the last word of the table and the second with its first one,
and three bytes after them. -/
theorem descramble_involution_wrapped :
    (∀ i, 12 ≤ i → i ≤ 19 → Nat.testBit 0xFFFFFFFF i = Nat.testBit 0xFF123 i) ∧
      descramble 0xFF123 [1, 2, 3, 4, 0, 0, 0, 255, 5, 6, 7] =
        [118, 135, 11, 55, 135, 6, 15, 250, 5, 6, 7] ∧
      descramble 0xFFFFFFFF [1, 2, 3, 4, 0, 0, 0, 255, 5, 6, 7] =
        [118, 135, 11, 55, 135, 6, 15, 250, 5, 6, 7] ∧
      descramble 0xFF123 [118, 135, 11, 55, 135, 6, 15, 250, 5, 6, 7] =
        [1, 2, 3, 4, 0, 0, 0, 255, 5, 6, 7] := by
  have hbits : ∀ i, 12 ≤ i → i ≤ 19 → Nat.testBit 0xFFFFFFFF i = Nat.testBit 0xFF123 i := by
    intro i hlow hhigh
    interval_cases i <;> rfl
  have hdata : descramble 0xFF123 [1, 2, 3, 4, 0, 0, 0, 255, 5, 6, 7] =
      [118, 135, 11, 55, 135, 6, 15, 250, 5, 6, 7] := by decide +kernel
  obtain ⟨-, -, -, -, hkeys, htwice⟩ :=
    descramble_involution 0xFF123 [1, 2, 3, 4, 0, 0, 0, 255, 5, 6, 7]
  exact ⟨hbits, hdata, (hkeys 0xFFFFFFFF hbits).trans hdata, hdata ▸ htwice⟩

end Pcode.Scramble
