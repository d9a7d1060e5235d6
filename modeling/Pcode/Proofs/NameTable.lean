import Mathlib
import Pcode.NameTable
import Pcode.Proofs.Byte.Utf8

set_option autoImplicit false

/-! # What a table of names holds

A table is read group by group, but the groups leave no trace in it: reading depends on their
sizes only through the sum. `namesIn total` and `afterNames total` say directly what the first
`total` zero bytes divide the bytes into.

Main statements: a table can be read exactly if it has as many zero bytes as names, and then
holds `namesIn` and leaves `afterNames` (`read_eq`); and reading a table that was written gives
its names (`read_encode_append`). -/

namespace Pcode.NameTable

/-! ## Names cut at zero bytes -/

/-- What follows the first zero byte. -/
def afterZero (bs : List UInt8) : List UInt8 := (bs.dropWhile (· != 0)).drop 1

/-- The texts that the first `total` zero bytes end. -/
def namesIn : Nat → List UInt8 → List (List Char)
  | 0, _ => []
  | total + 1, bs => Utf8.decodeLossy (bs.takeWhile (· != 0)) :: namesIn total (afterZero bs)

/-- What follows the first `total` zero bytes. -/
def afterNames : Nat → List UInt8 → List UInt8
  | 0, bs => bs
  | total + 1, bs => afterNames total (afterZero bs)

/-- The number of names in the groups that are read; a size below zero counts as zero. -/
def total (sizes : List Int) : Nat := ((sizes.take groupCount).map Int.toNat).sum

theorem takeName?_eq (bs : List UInt8) :
    takeName? bs =
      if 0 < bs.count 0 then some (bs.takeWhile (· != 0), afterZero bs) else none := by
  induction bs with
  | nil => rfl
  | cons b bs ih =>
      by_cases hb : b = 0
      · simp [takeName?, hb, afterZero]
      · have hcount : (b :: bs).count 0 = bs.count 0 := by simp [hb]
        rw [takeName?, if_neg hb, ih, hcount]
        split
        · simp [hb, afterZero]
        · rfl

theorem count_afterZero {bs : List UInt8} (h : 0 < bs.count 0) :
    (afterZero bs).count 0 + 1 = bs.count 0 := by
  induction bs with
  | nil => simp at h
  | cons b bs ih =>
      by_cases hb : b = 0
      · simp [hb, afterZero]
      · have hcount : (b :: bs).count 0 = bs.count 0 := by simp [hb]
        have hafter : afterZero (b :: bs) = afterZero bs := by simp [afterZero, hb]
        rw [hcount] at h ⊢
        rw [hafter]
        exact ih h

/-- Names can be taken as long as there are zero bytes. -/
theorem takeNames?_eq (n : Nat) (bs : List UInt8) :
    takeNames? n bs = if n ≤ bs.count 0 then some (namesIn n bs, afterNames n bs) else none := by
  induction n generalizing bs with
  | zero => simp [takeNames?, namesIn, afterNames]
  | succ n ih =>
      rw [takeNames?, takeName?_eq]
      by_cases hzero : 0 < bs.count 0
      · have hcount := count_afterZero hzero
        rw [if_pos hzero]
        simp only [ih]
        by_cases hn : n ≤ (afterZero bs).count 0
        · rw [if_pos hn, if_pos (by omega)]
          rfl
        · rw [if_neg hn, if_neg (by omega)]
          rfl
      · rw [if_neg hzero, if_neg (by omega)]

/-! ## Groups leave no trace -/

theorem count_afterNames {n : Nat} {bs : List UInt8} (h : n ≤ bs.count 0) :
    (afterNames n bs).count 0 + n = bs.count 0 := by
  induction n generalizing bs with
  | zero => rfl
  | succ n ih =>
      have hzero : (afterZero bs).count 0 + 1 = bs.count 0 := count_afterZero (by omega)
      have hrest : (afterNames n (afterZero bs)).count 0 + n = (afterZero bs).count 0 :=
        ih (by omega)
      rw [afterNames]
      omega

theorem namesIn_add (m n : Nat) (bs : List UInt8) :
    namesIn (m + n) bs = namesIn m bs ++ namesIn n (afterNames m bs) := by
  induction m generalizing bs with
  | zero => simp [namesIn, afterNames]
  | succ m ih => rw [Nat.succ_add, namesIn, namesIn, afterNames, ih, List.cons_append]

theorem afterNames_add (m n : Nat) (bs : List UInt8) :
    afterNames (m + n) bs = afterNames n (afterNames m bs) := by
  induction m generalizing bs with
  | zero => simp [afterNames]
  | succ m ih => rw [Nat.succ_add, afterNames, afterNames, ih]

theorem readGroups_eq (more : Nat) (sizes : List Int) (bs : List UInt8)
    (hmore : more ≤ sizes.length) :
    readGroups more sizes bs =
      if ((sizes.take more).map Int.toNat).sum ≤ bs.count 0 then
        .ok (namesIn ((sizes.take more).map Int.toNat).sum bs,
          afterNames ((sizes.take more).map Int.toNat).sum bs)
      else .error .unterminated := by
  induction more generalizing sizes bs with
  | zero => simp [readGroups, namesIn, afterNames]
  | succ more ih =>
      cases sizes with
      | nil => simp at hmore
      | cons size sizes =>
          have hlen : more ≤ sizes.length := by simpa using hmore
          rw [readGroups, takeNames?_eq]
          simp only [List.take_succ_cons, List.map_cons, List.sum_cons]
          by_cases hfirst : size.toNat ≤ bs.count 0
          · have hcount := count_afterNames hfirst
            rw [if_pos hfirst]
            simp only [ih sizes _ hlen]
            by_cases hrest : ((sizes.take more).map Int.toNat).sum
                ≤ (afterNames size.toNat bs).count 0
            · rw [if_pos hrest, if_pos (by omega), namesIn_add, afterNames_add]
              rfl
            · rw [if_neg hrest, if_neg (by omega)]
              rfl
          · rw [if_neg hfirst, if_neg (by omega)]

/-- **Reading a table** succeeds exactly if every name has its zero byte. -/
theorem read_eq {sizes : List Int} (hsizes : groupCount ≤ sizes.length) (bs : List UInt8) :
    read sizes bs =
      if total sizes ≤ bs.count 0 then .ok (namesIn (total sizes) bs, afterNames (total sizes) bs)
      else .error .unterminated :=
  readGroups_eq groupCount sizes bs hsizes

/-! ## Tables that were written -/

theorem cut_at_zero {s : List UInt8} (hs : 0 ∉ s) (rest : List UInt8) :
    (s ++ 0 :: rest).takeWhile (· != 0) = s ∧ afterZero (s ++ 0 :: rest) = rest := by
  have hne : ∀ b ∈ s, (b != 0) = true := by
    intro b hb
    have : b ≠ 0 := fun h => hs (h ▸ hb)
    simpa using this
  constructor
  · rw [List.takeWhile_append_of_pos hne]
    simp
  · rw [afterZero, List.dropWhile_append_of_pos hne]
    simp

theorem encode_cons (name : List Char) (names : List (List Char)) (code : List UInt8) :
    encode (name :: names) ++ code = Utf8.encode name ++ 0 :: (encode names ++ code) := by
  simp [encode]

theorem length_le_count_encode (names : List (List Char)) (code : List UInt8) :
    names.length ≤ (encode names ++ code).count 0 := by
  induction names with
  | nil => exact Nat.zero_le _
  | cons name names ih =>
      rw [encode_cons, List.count_append, List.count_cons_self, List.length_cons]
      omega

theorem namesIn_encode {names : List (List Char)} (hnames : ∀ name ∈ names, Char.ofNat 0 ∉ name)
    (code : List UInt8) :
    namesIn names.length (encode names ++ code) = names ∧
      afterNames names.length (encode names ++ code) = code := by
  induction names with
  | nil => exact ⟨rfl, rfl⟩
  | cons name names ih =>
      have hname : 0 ∉ Utf8.encode name := Utf8.zero_not_mem_encode (hnames name (by simp))
      obtain ⟨htake, hafter⟩ := cut_at_zero hname (encode names ++ code)
      obtain ⟨hin, hrest⟩ := ih (fun n hn => hnames n (by simp [hn]))
      rw [encode_cons, List.length_cons, namesIn, afterNames, htake, hafter, hin, hrest,
        Utf8.decodeLossy_encode]
      exact ⟨rfl, rfl⟩

/-- **Reading undoes writing**, whatever code follows the names. -/
theorem read_encode_append {sizes : List Int} {names : List (List Char)}
    (hsizes : groupCount ≤ sizes.length) (htotal : total sizes = names.length)
    (hnames : ∀ name ∈ names, Char.ofNat 0 ∉ name) (code : List UInt8) :
    read sizes (encode names ++ code) = .ok (names, code) := by
  obtain ⟨hin, hrest⟩ := namesIn_encode hnames code
  rw [read_eq hsizes, htotal, if_pos (length_le_count_encode names code), hin, hrest]

end Pcode.NameTable
