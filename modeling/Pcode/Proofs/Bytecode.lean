import Pcode.Bytecode

set_option autoImplicit false

/-! # Decoding byte code that was written

`textOf` says what a sequence of items stands for: the texts of the items one after the other,
with a blank after each name that another name or a keyword follows.

Main statement: decoding the bytes of items that fit the table of names gives the pieces of
`textOf` (`decode_encode`). The decoder looks one byte ahead for the blank, the text one item
ahead; that the two agree is `needsBlank_encode`. -/

namespace Pcode.Bytecode

/-! ## What items stand for -/

/-- The number of names that references can be written for: two bytes leave 15 bits, and the
first 128 values would be numbers below zero. -/
def referenceLimit : Nat := 32640

/-- Items that can be written for a table of `count` names. -/
def Item.Fits (count : Nat) : Item → Prop
  | .token number => number.toNat < 128
  | .name number => number < min count referenceLimit

instance (count : Nat) : (item : Item) → Decidable (item.Fits count)
  | .token number => inferInstanceAs (Decidable (number.toNat < 128))
  | .name number => inferInstanceAs (Decidable (number < min count referenceLimit))

/-- The text of one item. -/
def Item.text (names : List (List Char)) : Item → List Char
  | .token number => (tokenTable.getD number.toNat "").toList
  | .name number => names.getD number []

/-- Whether the first item is a name or a keyword. -/
def startsWord : List Item → Bool
  | [] => false
  | .token number :: _ => keywordTokens.contains number.toNat
  | .name _ :: _ => true

/-- The text of a sequence of items. -/
def textOf (names : List (List Char)) : List Item → List Char
  | [] => []
  | .token number :: rest => (Item.token number).text names ++ textOf names rest
  | .name number :: rest =>
      (Item.name number).text names ++ (if startsWord rest then [' '] else []) ++
        textOf names rest

/-! ## References -/

theorem isReference_of_lt {b : UInt8} (h : b.toNat < 128) : isReference b = false := by
  simp [isReference, h]

/-- The two bytes of a reference, in one formula: the number is that of the two bytes less 128. -/
theorem encodeName_eq (number : Nat) :
    encodeName number =
      [UInt8.ofNat (128 + (number + 128) / 256 % 128), UInt8.ofNat (number + 128)] := by
  unfold encodeName
  split
  · next hsmall =>
      rw [Nat.div_eq_of_lt (by omega)]
      rfl
  · next hlarge =>
      have hsteps : (number - 128) / 256 + 1 = (number + 128) / 256 := by omega
      have hlow : UInt8.ofNat (number - 128) = UInt8.ofNat (number + 128) := by
        apply UInt8.toNat_inj.1
        rw [UInt8.toNat_ofNat', UInt8.toNat_ofNat']
        omega
      rw [hsteps, hlow]

/-- The two bytes of a reference: the first one marks it, and together they give its number
back. -/
theorem nameNumber_encodeName {number : Nat} (h : number < referenceLimit) :
    ∃ high low, encodeName number = [high, low] ∧ isReference high = true ∧
      nameNumber high low = number := by
  have hlimit : number < 32640 := h
  refine ⟨_, _, encodeName_eq number, ?_, ?_⟩
  · rw [isReference, UInt8.toNat_ofNat']
    simp only [decide_eq_true_eq]
    omega
  · rw [nameNumber, UInt8.toNat_ofNat', UInt8.toNat_ofNat']
    omega

theorem lookup_of_lt {names : List (List Char)} {number : Nat} (h : number < names.length) :
    lookup names number = .ok (names.getD number []) := by
  have hlen : ¬ ((names.length : Int) ≤ number) := by omega
  have hneg : ¬ ((number : Int) < 0) := by omega
  simp only [lookup, if_neg hlen, if_neg hneg, Int.toNat_natCast]
  rw [List.getElem?_eq_getElem h, List.getD_eq_getElem?_getD, List.getElem?_eq_getElem h]
  rfl

/-! ## One item in front of others -/

theorem needsBlank_encode {count : Nat} {items : List Item} (h : ∀ item ∈ items, item.Fits count) :
    needsBlank (encode items) = startsWord items := by
  cases items with
  | nil => rfl
  | cons item rest =>
      have hfits := h item (by simp)
      cases item with
      | token number =>
          show (isReference number || keywordTokens.contains number.toNat) = _
          rw [isReference_of_lt hfits]
          rfl
      | name number =>
          obtain ⟨high, low, hbytes, hmark, -⟩ :=
            nameNumber_encodeName (Nat.lt_of_lt_of_le hfits (Nat.min_le_right _ _))
          show needsBlank (encodeName number ++ encode rest) = true
          rw [hbytes]
          show (isReference high || keywordTokens.contains high.toNat) = true
          rw [hmark]
          rfl

theorem decode_token_cons (names : List (List Char)) {b : UInt8} (hb : b.toNat < 128)
    (code : List UInt8) :
    (decode names (b :: code)).map List.flatten =
      ((decode names code).map List.flatten).map ((Item.token b).text names ++ ·) := by
  rw [decode.eq_def]
  simp only [isReference_of_lt hb, Bool.false_eq_true, if_false, Item.text]
  generalize (tokenTable.getD b.toNat "").toList = text
  cases decode names code with
  | error e => rfl
  | ok parts =>
      -- a token without a text adds no piece, which shows only before the pieces are joined
      cases text with
      | nil => rfl
      | cons c text => rfl

theorem decode_name_append {names : List (List Char)} {number : Nat}
    (h : number < min names.length referenceLimit) (code : List UInt8) :
    (decode names (encodeName number ++ code)).map List.flatten =
      ((decode names code).map List.flatten).map
        ((Item.name number).text names ++ (if needsBlank code then [' '] else []) ++ ·) := by
  obtain ⟨high, low, hbytes, hmark, hnumber⟩ :=
    nameNumber_encodeName (Nat.lt_of_lt_of_le h (Nat.min_le_right _ _))
  have hlookup : lookup names number = .ok (names.getD number []) :=
    lookup_of_lt (Nat.lt_of_lt_of_le h (Nat.min_le_left _ _))
  rw [hbytes]
  show (decode names (high :: low :: code)).map List.flatten = _
  rw [decode]
  simp only [hmark, if_true, hnumber, hlookup]
  cases decode names code with
  | error e => rfl
  | ok parts => by_cases hblank : needsBlank code = true <;> simp [Except.map, Item.text, hblank]

/-! ## Sequences of items -/

theorem encode_cons (item : Item) (items : List Item) :
    encode (item :: items) = item.encode ++ encode items :=
  List.flatMap_cons

/-- **Decoding undoes encoding**: the pieces, joined, are the text of the items. -/
theorem decode_encode {names : List (List Char)} {items : List Item}
    (h : ∀ item ∈ items, item.Fits names.length) :
    (decode names (encode items)).map List.flatten = .ok (textOf names items) := by
  induction items with
  | nil => rfl
  | cons item rest ih =>
      have hrest : ∀ i ∈ rest, i.Fits names.length := fun i hi => h i (by simp [hi])
      have hitem := h item (by simp)
      rw [encode_cons]
      cases item with
      | token number =>
          show (decode names (number :: encode rest)).map List.flatten = _
          rw [decode_token_cons names hitem, ih hrest]
          rfl
      | name number =>
          show (decode names (encodeName number ++ encode rest)).map List.flatten = _
          rw [decode_name_append hitem, ih hrest, needsBlank_encode hrest]
          rfl

end Pcode.Bytecode
