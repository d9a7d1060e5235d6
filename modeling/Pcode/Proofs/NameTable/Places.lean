import Mathlib
import Pcode.Proofs.NameTable

set_option autoImplicit false

/-! # Where the names stand

The zero bytes of a table divide it into names, whatever the groups are: the name number `k`,
counted from zero, reaches from `nameStart bs k` up to the zero byte number `k`. A table that begins
with a name and its zero byte is that name and a table of its own, and all places in the latter are
shifted by one length (`idxOfNth_cut`, `nameStart_cut`); everything else recurses along this.

Main statement: a table can be read exactly if it has a zero byte for each name, and reading gives
the texts between the zero bytes and the code after the last one (`read_exact`). -/

namespace Pcode.NameTable

/-- Where the name number `k` begins: after the zero byte before it, or at the start. -/
def nameStart (bs : List UInt8) : Nat → Nat
  | 0 => 0
  | k + 1 => bs.idxOfNth 0 k + 1

/-! ## The first name and the rest -/

/-- Bytes among which there is a zero byte begin with a name. -/
theorem exists_cut {bs : List UInt8} (h : 0 < bs.count 0) :
    ∃ name rest, 0 ∉ name ∧ bs = name ++ 0 :: rest := by
  obtain ⟨name, rest, hbs, hname⟩ := List.eq_append_cons_of_mem (List.count_pos_iff.1 h)
  exact ⟨name, rest, hname, hbs⟩

section Cut

variable {name : List UInt8} (hname : 0 ∉ name) (rest : List UInt8)

include hname

theorem idxOfNth_cut (k : Nat) :
    (name ++ 0 :: rest).idxOfNth 0 k =
      name.length + (if k = 0 then 0 else 1 + rest.idxOfNth 0 (k - 1)) := by
  induction name with
  | nil =>
      cases k with
      | zero => simp
      | succ k => simp [Nat.add_comm]
  | cons b name ih =>
      obtain ⟨hb, hrest⟩ := List.ne_and_not_mem_of_not_mem_cons hname
      have hne : (b == 0) = false := by simpa using hb.symm
      rw [List.cons_append, List.idxOfNth_cons_of_not_beq hne, ih hrest, List.length_cons]
      omega

theorem nameStart_cut (k : Nat) :
    nameStart (name ++ 0 :: rest) (k + 1) = name.length + 1 + nameStart rest k := by
  rw [nameStart, idxOfNth_cut hname]
  cases k with
  | zero => rfl
  | succ k =>
      rw [if_neg (by omega), nameStart, Nat.add_sub_cancel]
      omega

theorem count_cut : (name ++ 0 :: rest).count 0 = rest.count 0 + 1 := by
  rw [List.count_append, List.count_eq_zero.2 hname, List.count_cons_self, Nat.zero_add]

/-- The name number `k`, as the bytes between two zero bytes. -/
theorem extract_cut (k : Nat) :
    (name ++ 0 :: rest).extract (nameStart (name ++ 0 :: rest) (k + 1))
        ((name ++ 0 :: rest).idxOfNth 0 (k + 1)) =
      rest.extract (nameStart rest k) (rest.idxOfNth 0 k) := by
  have hdrop : (name ++ 0 :: rest).drop (name.length + 1 + nameStart rest k) =
      rest.drop (nameStart rest k) := by
    rw [← List.drop_drop]
    simp
  have hlength : name.length + (1 + rest.idxOfNth 0 k) - (name.length + 1 + nameStart rest k) =
      rest.idxOfNth 0 k - nameStart rest k := by omega
  rw [nameStart_cut hname, idxOfNth_cut hname, if_neg (by omega), Nat.add_sub_cancel,
    List.extract_eq_take_drop, List.extract_eq_take_drop, hdrop, hlength]

theorem extract_cut_zero :
    (name ++ 0 :: rest).extract (nameStart (name ++ 0 :: rest) 0)
      ((name ++ 0 :: rest).idxOfNth 0 0) = name := by
  rw [idxOfNth_cut hname, nameStart]
  simp

end Cut

/-! ## All names -/

theorem length_namesIn (n : Nat) (bs : List UInt8) : (namesIn n bs).length = n := by
  induction n generalizing bs with
  | zero => rfl
  | succ n ih => rw [namesIn, List.length_cons, ih]

/-- The names are the texts between the zero bytes. -/
theorem getElem?_namesIn {n k : Nat} {bs : List UInt8} (hn : n ≤ bs.count 0) (hk : k < n) :
    (namesIn n bs)[k]? =
      some (Utf8.decodeLossy (bs.extract (nameStart bs k) (bs.idxOfNth 0 k))) := by
  induction n generalizing k bs with
  | zero => omega
  | succ n ih =>
      have hzero : 0 < bs.count 0 := by omega
      obtain ⟨name, rest, hname, rfl⟩ := exists_cut hzero
      obtain ⟨htake, hafter⟩ := cut_at_zero hname rest
      rw [count_cut hname] at hn
      rw [namesIn, htake, hafter]
      cases k with
      | zero => rw [extract_cut_zero hname, List.getElem?_cons_zero]
      | succ k => rw [List.getElem?_cons_succ, ih (by omega) (by omega), extract_cut hname]

/-- What follows the names begins where one more name would. -/
theorem afterNames_eq_drop {n : Nat} {bs : List UInt8} (hn : n ≤ bs.count 0) :
    afterNames n bs = bs.drop (nameStart bs n) ∧ nameStart bs n ≤ bs.length := by
  induction n generalizing bs with
  | zero => exact ⟨rfl, Nat.zero_le _⟩
  | succ n ih =>
      have hzero : 0 < bs.count 0 := by omega
      obtain ⟨name, rest, hname, rfl⟩ := exists_cut hzero
      rw [count_cut hname] at hn
      have hrest : n ≤ rest.count 0 := by omega
      obtain ⟨hdrop, hle⟩ := ih hrest
      rw [afterNames, (cut_at_zero hname rest).2, hdrop, nameStart_cut hname]
      constructor
      · rw [← List.drop_drop]
        simp
      · rw [List.length_append, List.length_cons]
        omega

/-! ## Reading -/

/-- **Reading a table is exact.** With the sizes of seven groups or more, a table of `total sizes`
names cannot be read if it has fewer zero bytes. Otherwise there are that many names; the name
number `k` is the text of the bytes between the zero bytes next to it, and the code begins after the
last of these zero bytes. Sizes with the same total give the same result, and a table that was
written is read back, whatever code follows it. -/
theorem read_exact {sizes : List Int} (hsizes : groupCount ≤ sizes.length) (bs : List UInt8) :
    (read sizes bs = .error .unterminated ↔ bs.count 0 < total sizes) ∧
    (total sizes ≤ bs.count 0 → ∃ names code, read sizes bs = .ok (names, code) ∧
      names.length = total sizes ∧
      (∀ k < total sizes, names[k]? =
        some (Utf8.decodeLossy (bs.extract (nameStart bs k) (bs.idxOfNth 0 k)))) ∧
      nameStart bs (total sizes) ≤ bs.length ∧ code = bs.drop (nameStart bs (total sizes))) ∧
    (∀ sizes', groupCount ≤ sizes'.length → total sizes' = total sizes →
      read sizes' bs = read sizes bs) ∧
    (∀ names code, (∀ name ∈ names, Char.ofNat 0 ∉ name) → names.length = total sizes →
      bs = encode names ++ code →
      read sizes bs = .ok (names, code) ∧
        nameStart bs (total sizes) = (encode names).length) := by
  refine ⟨?_, ?_, ?_, ?_⟩
  · rw [read_eq hsizes]
    split
    · next hle => simp [hle]
    · next hlt => simp [Nat.lt_of_not_le hlt]
  · intro hle
    obtain ⟨hcode, hstart⟩ := afterNames_eq_drop hle
    have hread : read sizes bs = .ok (namesIn (total sizes) bs, afterNames (total sizes) bs) := by
      rw [read_eq hsizes, if_pos hle]
    exact ⟨_, _, hread, length_namesIn _ _, fun k hk => getElem?_namesIn hle hk, hstart, hcode⟩
  · intro sizes' hsizes' htotal
    rw [read_eq hsizes', read_eq hsizes, htotal]
  · rintro names code hnames htotal rfl
    refine ⟨read_encode_append hsizes htotal.symm hnames code, ?_⟩
    -- the code left over is the one that was put there, so that it begins at the same place
    have hle : total sizes ≤ (encode names ++ code).count 0 :=
      htotal ▸ length_le_count_encode names code
    obtain ⟨hdrop, hstart⟩ := afterNames_eq_drop hle
    have hcode : (afterNames (total sizes) (encode names ++ code)).length = code.length := by
      rw [← htotal, (namesIn_encode hnames code).2]
    rw [hdrop, List.length_drop] at hcode
    rw [List.length_append] at hstart hcode
    omega

/-- Sizes of which one is below zero and one is of no group, and a table with an empty name and one
that is not a text, before code that begins with a zero byte. -/
theorem read_exact_uneven :
    let sizes : List Int := [1, -3, 2, 0, 0, 0, 0, 9]
    let bs : List UInt8 := [97, 98, 0, 0, 255, 195, 169, 0, 0, 5]
    groupCount ≤ sizes.length ∧ total sizes = 3 ∧ bs.count 0 = 4 ∧
      (∃ names code, read sizes bs = .ok (names, code) ∧ names.length = 3 ∧
        names[2]? = some [Utf8.replacement, 'é'] ∧ code = [0, 5]) ∧
      read [0, 0, 0, 0, 0, 0, 3] bs = read sizes bs ∧
      read [0, 0, 0, 0, 0, 3, 3] bs = .error .unterminated ∧
      read sizes (encode ["ab".toList, [], ['é']] ++ [0, 5]) =
        .ok (["ab".toList, [], ['é']], [0, 5]) := by
  intro sizes bs
  have hsizes : groupCount ≤ sizes.length := by decide
  have hmore : groupCount ≤ ([0, 0, 0, 0, 0, 3, 3] : List Int).length := by decide
  have hnames : ∀ name ∈ ["ab".toList, [], ['é']], Char.ofNat 0 ∉ name := by simp
  obtain ⟨-, hread, hgroups, -⟩ := read_exact hsizes bs
  obtain ⟨-, -, -, hwritten⟩ := read_exact hsizes (encode ["ab".toList, [], ['é']] ++ [0, 5])
  obtain ⟨names, code, hok, hlength, hname, -, hcode⟩ := hread (by decide)
  have hlast : Utf8.decodeLossy [255, 195, 169] = [Utf8.replacement, 'é'] := by cbv
  refine ⟨hsizes, rfl, rfl, ⟨names, code, hok, hlength, ?_, hcode⟩,
    hgroups [0, 0, 0, 0, 0, 0, 3] (by decide) rfl,
    (read_exact hmore bs).1.2 (by decide),
    (hwritten _ [0, 5] hnames rfl rfl).1⟩
  rw [hname 2 (by decide), ← hlast]
  rfl

end Pcode.NameTable
