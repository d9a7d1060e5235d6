import Pcode.Proofs.Bytecode

set_option autoImplicit false

/-! # References without a name

Code is read from left to right as a sequence of marks (`scan`): tokens, references with the number
that their two bytes write, and perhaps a reference that the end of the code cuts off. Decoding
stops at the first mark that has a fault (`decode_eq`). A number beyond the last name is refused
as such. A number below zero is not: it counts from the end of the names, and where it reaches
back beyond the first one, decoding breaks off, as it does at a reference that is cut off.

`checked` refuses every reference that is cut off or has a number without a name, and gives every
other one the name with that number.

Main statement: what decoding comes to, and in which cases exactly this is the same as `checked`
(`decode_eq_checked_iff`). -/

namespace Pcode.Bytecode

/-! ## Marks -/

/-- What stands at one place of some code. -/
inductive Mark where
  /-- a token of the language -/
  | token (number : UInt8)
  /-- a reference, by the number that its bytes write -/
  | reference (number : Int)
  /-- the first byte of a reference that has no second one -/
  | cutOff
deriving Repr, DecidableEq

/-- The marks of some code, from left to right. -/
def scan : List UInt8 → List Mark
  | [] => []
  | b :: rest =>
      if isReference b then
        match rest with
        | [] => [.cutOff]
        | low :: rest => .reference (nameNumber b low) :: scan rest
      else .token b :: scan rest

theorem scan_token {b : UInt8} (hb : isReference b = false) (rest : List UInt8) :
    scan (b :: rest) = .token b :: scan rest := by
  rw [scan.eq_def]
  simp only [hb, Bool.false_eq_true, if_false]

theorem scan_reference {b : UInt8} (hb : isReference b = true) (low : UInt8)
    (rest : List UInt8) :
    scan (b :: low :: rest) = .reference (nameNumber b low) :: scan rest := by
  rw [scan.eq_def]
  simp only [hb, if_true]

theorem scan_cutOff {b : UInt8} (hb : isReference b = true) : scan [b] = [.cutOff] := by
  rw [scan.eq_def]
  simp only [hb, if_true]

/-- Whether the first mark is a reference or a keyword. -/
def wordFirst : List Mark → Bool
  | [] => false
  | .token number :: _ => keywordTokens.contains number.toNat
  | .reference _ :: _ => true
  | .cutOff :: _ => true

theorem wordFirst_scan (code : List UInt8) : wordFirst (scan code) = needsBlank code := by
  cases code with
  | nil => rfl
  | cons b rest =>
      rw [needsBlank]
      cases hb : isReference b with
      | false => rw [scan_token hb]; rfl
      | true =>
          cases rest with
          | nil => rw [scan_cutOff hb]; rfl
          | cons low rest => rw [scan_reference hb]; rfl

/-- The pieces of text that some marks stand for, when `nameAt` gives the names. -/
def pieces (nameAt : Int → List Char) : List Mark → List (List Char)
  | [] => []
  | .token number :: rest =>
      let text := (tokenTable.getD number.toNat "").toList
      if text.isEmpty then pieces nameAt rest else text :: pieces nameAt rest
  | .reference number :: rest =>
      nameAt number :: (if wordFirst rest then [' '] :: pieces nameAt rest else pieces nameAt rest)
  | .cutOff :: rest => pieces nameAt rest

/-- Only the names at the numbers that occur matter. -/
theorem pieces_congr {nameAt nameAt' : Int → List Char} {marks : List Mark}
    (h : ∀ number, .reference number ∈ marks → nameAt number = nameAt' number) :
    pieces nameAt marks = pieces nameAt' marks := by
  induction marks with
  | nil => rfl
  | cons mark rest ih =>
      have hrest := ih fun number hmem => h number (List.mem_cons_of_mem mark hmem)
      cases mark with
      | token number => simp only [pieces, hrest]
      | reference number => simp only [pieces, hrest, h number (by simp)]
      | cutOff => simp only [pieces, hrest]

/-! ## Faults -/

/-- What decoding with `count` names stops at. -/
def Mark.fault? (count : Nat) : Mark → Option Error
  | .token _ => none
  | .reference number =>
      if count ≤ number then some .beyondLast
      else if number + count < 0 then some .beforeFirst
      else none
  | .cutOff => some .cutOff

/-- A mark that has a fault neither by decoding nor by its meaning: a reference has to have a number
of one of `count` names. -/
def Mark.IsSound (count : Nat) : Mark → Prop
  | .token _ => True
  | .reference number => 0 ≤ number ∧ number < count
  | .cutOff => False

instance (count : Nat) : (mark : Mark) → Decidable (mark.IsSound count)
  | .token _ => inferInstanceAs (Decidable True)
  | .reference number => inferInstanceAs (Decidable (0 ≤ number ∧ number < count))
  | .cutOff => inferInstanceAs (Decidable False)

theorem Mark.IsSound.fault?_eq_none {count : Nat} {mark : Mark} (h : mark.IsSound count) :
    mark.fault? count = none := by
  cases mark with
  | token number => rfl
  | reference number =>
      obtain ⟨hlow, hhigh⟩ := h
      rw [fault?, if_neg (by omega), if_neg (by omega)]
  | cutOff => exact absurd h id

/-- The name with a number, where numbers below zero count from the end. -/
def nameFromEnds (names : List (List Char)) (number : Int) : List Char :=
  names.getD (if number < 0 then number + names.length else number).toNat []

theorem lookup_eq (names : List (List Char)) (number : Int) :
    lookup names number =
      match (Mark.reference number).fault? names.length with
      | some e => .error e
      | none => .ok (nameFromEnds names number) := by
  unfold lookup Mark.fault? nameFromEnds
  by_cases hhigh : (names.length : Int) ≤ number
  · simp only [if_pos hhigh]
  · by_cases hlow : number + names.length < 0
    · have hneg : number < 0 := by omega
      simp only [if_neg hhigh, if_pos hneg, if_pos hlow]
    · generalize hplace : (if number < 0 then number + names.length else number) = place
      have hbounds : ¬place < 0 ∧ place.toNat < names.length := by
        by_cases hneg : number < 0
        · rw [if_pos hneg] at hplace
          omega
        · rw [if_neg hneg] at hplace
          omega
      obtain ⟨hplace, hlt⟩ := hbounds
      simp only [if_neg hhigh, if_neg hlow, if_neg hplace, List.getD_eq_getElem?_getD,
        List.getElem?_eq_getElem hlt, Option.getD_some]

/-- **Decoding stops at the first fault**, and without one gives the pieces of all marks. -/
theorem decode_eq (names : List (List Char)) (code : List UInt8) :
    decode names code =
      match (scan code).findSome? (Mark.fault? names.length) with
      | some e => .error e
      | none => .ok (pieces (nameFromEnds names) (scan code)) := by
  induction code using scan.induct with
  | case1 => rfl
  | case2 b hb =>
      rw [scan_cutOff hb, decode.eq_def]
      simp only [hb, if_true]
      rfl
  | case3 b hb low rest ih =>
      rw [scan_reference hb, decode.eq_def]
      simp only [hb, if_true, lookup_eq, List.findSome?_cons]
      cases (Mark.reference (nameNumber b low)).fault? names.length with
      | some e => rfl
      | none =>
          simp only [ih, pieces, wordFirst_scan]
          cases (scan rest).findSome? (Mark.fault? names.length) with
          | some e => rfl
          | none => rfl
  | case4 b rest hb ih =>
      have hb : isReference b = false := by simpa using hb
      rw [scan_token hb, decode.eq_def]
      simp only [hb, Bool.false_eq_true, if_false, ih, List.findSome?_cons, Mark.fault?, pieces]
      cases (scan rest).findSome? (Mark.fault? names.length) with
      | some e => rfl
      | none => rfl

/-! ## Decoding with every reference checked -/

/-- The result for code in which every reference has to be whole and to have a name. -/
def checked (names : List (List Char)) (code : List UInt8) : Except Error (List (List Char)) :=
  if ∀ mark ∈ scan code, mark.IsSound names.length then
    .ok (pieces (fun number => names.getD number.toNat []) (scan code))
  else .error .beyondLast

/-- The first mark with a fault has the fault `e`. -/
def FirstFault (count : Nat) (marks : List Mark) (e : Error) : Prop :=
  ∃ pre mark post, marks = pre ++ mark :: post ∧ mark.fault? count = some e ∧
    ∀ m ∈ pre, m.fault? count = none

theorem findSome?_fault?_eq_some_iff {count : Nat} {marks : List Mark} {e : Error} :
    marks.findSome? (Mark.fault? count) = some e ↔ FirstFault count marks e :=
  List.findSome?_eq_some_iff

/-- Sound marks name what they say, from whichever end the names are counted. -/
theorem pieces_nameFromEnds {names : List (List Char)} {marks : List Mark}
    (h : ∀ mark ∈ marks, mark.IsSound names.length) :
    pieces (nameFromEnds names) marks =
      pieces (fun number => names.getD number.toNat []) marks := by
  refine pieces_congr fun number hmem => ?_
  have hsound : 0 ≤ number ∧ number < names.length := h _ hmem
  rw [nameFromEnds, if_neg (by omega)]

theorem decode_eq_ok_iff {names : List (List Char)} {code : List UInt8}
    {parts : List (List Char)} :
    decode names code = .ok parts ↔
      (∀ mark ∈ scan code, mark.fault? names.length = none) ∧
        parts = pieces (nameFromEnds names) (scan code) := by
  rw [decode_eq, ← List.findSome?_eq_none_iff]
  cases (scan code).findSome? (Mark.fault? names.length) with
  | some e => simp
  | none => simp [eq_comm]

theorem decode_eq_error_iff {names : List (List Char)} {code : List UInt8} {e : Error} :
    decode names code = .error e ↔ FirstFault names.length (scan code) e := by
  rw [decode_eq, ← findSome?_fault?_eq_some_iff]
  cases (scan code).findSome? (Mark.fault? names.length) with
  | some e' => simp
  | none => simp

/-- **What becomes of references.** Decoding gives pieces exactly if no mark has a fault, and then
each reference stands for the name with its number, counted from the end if it is below zero;
it ends with an error exactly if that is the first fault. It does what `checked` does exactly if
every reference is whole and has a number from zero up to that of the last name, or the first fault
is a number beyond the last name. -/
theorem decode_eq_checked_iff (names : List (List Char)) (code : List UInt8) :
    (∀ parts, decode names code = .ok parts ↔
        (∀ mark ∈ scan code, mark.fault? names.length = none) ∧
          parts = pieces (nameFromEnds names) (scan code)) ∧
      (∀ e, decode names code = .error e ↔ FirstFault names.length (scan code) e) ∧
      (decode names code = checked names code ↔
        (∀ mark ∈ scan code, mark.IsSound names.length) ∨
          FirstFault names.length (scan code) .beyondLast) := by
  refine ⟨fun parts => decode_eq_ok_iff, fun e => decode_eq_error_iff, ?_⟩
  by_cases hsound : ∀ mark ∈ scan code, mark.IsSound names.length
  · rw [checked, if_pos hsound, decode_eq_ok_iff]
    have hfaults : ∀ mark ∈ scan code, mark.fault? names.length = none := fun mark hmem =>
      (hsound mark hmem).fault?_eq_none
    exact ⟨fun _ => .inl hsound, fun _ => ⟨hfaults, (pieces_nameFromEnds hsound).symm⟩⟩
  · rw [checked, if_neg hsound, decode_eq_error_iff]
    exact ⟨.inr, fun h => h.resolve_left hsound⟩

/-- A reference that is cut off, one that reaches back beyond the first name, and one that is
answered by the last name: none of them is refused. -/
theorem unchecked_references :
    (decode ["x".toList] [0x80] = .error .cutOff ∧
        checked ["x".toList] [0x80] = .error .beyondLast) ∧
      (decode ["x".toList] [0x80, 0] = .error .beforeFirst ∧
        checked ["x".toList] [0x80, 0] = .error .beyondLast) ∧
      (decode ["x".toList] [0x80, 0x7f] = .ok ["x".toList] ∧
        checked ["x".toList] [0x80, 0x7f] = .error .beyondLast) :=
  ⟨⟨rfl, rfl⟩, ⟨rfl, rfl⟩, ⟨rfl, rfl⟩⟩

end Pcode.Bytecode
