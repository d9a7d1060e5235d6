import Pcode.Proofs.Bytecode
import Pcode.Text.Blank
import Pcode.Text.Word

set_option autoImplicit false

/-! # Words of decoded code that stand side by side

Between two items that are neighbours but for tokens without a text, decoding puts a blank or
nothing. Where the text of the first ends in a word and that of the second begins with one, the
two run together if there is nothing.

Main statement: in which cases exactly they run together (`words_glued_iff`). There are three: the
first is a keyword of the table without a blank at its end; a name is followed by a token without
a text; or a name is followed by a keyword that is not among `keywordTokens`. -/

namespace Pcode.Bytecode

open Pcode.Text (isBlank isWord)

/-! ## The text between two items -/

/-- What decoding puts between an item and those after it. -/
def gap : Item → List Item → List Char
  | .token _, _ => []
  | .name _, rest => if startsWord rest then [' '] else []

/-- The text of some items, with the blanks that those after them ask for. -/
def textBefore (names : List (List Char)) : List Item → List Item → List Char
  | [], _ => []
  | item :: items, rest =>
      item.text names ++ gap item (items ++ rest) ++ textBefore names items rest

theorem textOf_cons (names : List (List Char)) (item : Item) (rest : List Item) :
    textOf names (item :: rest) = item.text names ++ gap item rest ++ textOf names rest := by
  cases item with
  | token number =>
      show _ = _ ++ [] ++ _
      rw [List.append_nil, textOf]
  | name number => rfl

theorem textOf_append (names : List (List Char)) (items rest : List Item) :
    textOf names (items ++ rest) = textBefore names items rest ++ textOf names rest := by
  induction items with
  | nil => rfl
  | cons item items ih =>
      rw [List.cons_append, textOf_cons, ih, textBefore]
      simp only [List.append_assoc]

/-- A token without a text. -/
def Item.IsSilent (names : List (List Char)) (item : Item) : Prop :=
  ∃ number, item = .token number ∧ item.text names = []

theorem textOf_silent_append {names : List (List Char)} {silent : List Item}
    (h : ∀ item ∈ silent, item.IsSilent names) (rest : List Item) :
    textOf names (silent ++ rest) = textOf names rest := by
  induction silent with
  | nil => rfl
  | cons item silent ih =>
      obtain ⟨number, rfl, htext⟩ := h item (by simp)
      rw [List.cons_append, textOf_cons, htext, ih fun i hi => h i (by simp [hi])]
      rfl

theorem startsWord_append_cons (between : List Item) (b : Item) (post : List Item) :
    startsWord (between ++ b :: post) = startsWord (between ++ [b]) := by
  cases between with
  | nil => cases b <;> rfl
  | cons item between => cases item <;> rfl

/-- Two items with only silent tokens between them: what is before, the gap, and what is after. -/
theorem textOf_neighbours {names : List (List Char)} {between : List Item}
    (h : ∀ item ∈ between, item.IsSilent names) (pre post : List Item) (a b : Item) :
    textOf names (pre ++ a :: (between ++ b :: post)) =
      textBefore names pre (a :: (between ++ b :: post)) ++ a.text names ++
        gap a (between ++ [b]) ++ b.text names ++ gap b post ++ textOf names post := by
  have hgap : gap a (between ++ b :: post) = gap a (between ++ [b]) := by
    cases a with
    | token number => rfl
    | name number => simp only [gap, startsWord_append_cons between b post]
  rw [textOf_append, textOf_cons, textOf_silent_append h, textOf_cons, hgap]
  simp only [List.append_assoc]

/-! ## Code that can be decoded -/

/-- Items that can be written, whatever names there are. -/
def Item.Writable : Item → Prop
  | .token number => number.toNat < 128
  | .name number => number < referenceLimit

theorem lt_of_lookup_eq_ok {names : List (List Char)} {number : Nat} {name : List Char}
    (h : lookup names number = .ok name) : number < names.length := by
  refine Nat.lt_of_not_ge fun hge => ?_
  have hlen : (names.length : Int) ≤ number := by omega
  rw [lookup, if_pos hlen] at h
  cases h

/-- Code that was written and can be decoded refers to names that are there. -/
theorem fits_of_decode_encode {names : List (List Char)} {items : List Item}
    {parts : List (List Char)} (hitems : ∀ item ∈ items, item.Writable)
    (h : decode names (encode items) = .ok parts) : ∀ item ∈ items, item.Fits names.length := by
  induction items generalizing parts with
  | nil => exact fun _ hmem => absurd hmem List.not_mem_nil
  | cons item rest ih =>
      have hitem := hitems item (by simp)
      have hrest : ∀ i ∈ rest, i.Writable := fun i hi => hitems i (by simp [hi])
      -- whatever the item is, the code after it is decoded as well
      suffices hparts : item.Fits names.length ∧
          ∃ more, decode names (encode rest) = .ok more by
        obtain ⟨hfits, more, hmore⟩ := hparts
        exact List.forall_mem_cons.2 ⟨hfits, ih hrest hmore⟩
      rw [encode_cons] at h
      cases item with
      | token number =>
          refine ⟨hitem, ?_⟩
          change decode names (number :: encode rest) = _ at h
          rw [decode.eq_def] at h
          simp only [isReference_of_lt hitem, Bool.false_eq_true, if_false] at h
          cases hmore : decode names (encode rest) with
          | error e => rw [hmore] at h; cases h
          | ok more => exact ⟨more, rfl⟩
      | name number =>
          obtain ⟨high, low, hbytes, hmark, hnumber⟩ := nameNumber_encodeName hitem
          change decode names (encodeName number ++ encode rest) = _ at h
          rw [hbytes] at h
          change decode names (high :: low :: encode rest) = _ at h
          rw [decode] at h
          simp only [hmark, if_true, hnumber] at h
          cases hlookup : lookup names number with
          | error e => rw [hlookup] at h; cases h
          | ok name =>
              refine ⟨Nat.lt_min.2 ⟨lt_of_lookup_eq_ok hlookup, hitem⟩, ?_⟩
              cases hmore : decode names (encode rest) with
              | error e => rw [hlookup, hmore] at h; cases h
              | ok more => exact ⟨more, rfl⟩

/-! ## Words -/

/-- A text that begins with a letter, a digit or an underscore. -/
def BeginsWord (s : List Char) : Prop := ∃ c ∈ s.head?, isWord c = true

/-- A text that ends in a letter, a digit or an underscore. -/
def EndsWord (s : List Char) : Prop := ∃ c ∈ s.getLast?, isWord c = true

instance (s : List Char) : Decidable (BeginsWord s) :=
  decidable_of_iff (s.head?.any isWord = true) (by simp [BeginsWord, Option.any_eq_true])

instance (s : List Char) : Decidable (EndsWord s) :=
  decidable_of_iff (s.getLast?.any isWord = true) (by simp [EndsWord, Option.any_eq_true])

/-- The keywords that the table writes without a blank after them. -/
def bareKeywords : List Nat := [4, 5, 6, 8, 11, 13, 23, 41]

/-- The tokens that begin with a word and are not among `keywordTokens`. -/
def unlistedKeywords : List Nat := [
  45, 46, 58, 96, 97, 105, 106, 107, 108, 109, 110, 113, 114, 116, 118, 119, 120, 121, 122, 123,
  124, 125, 126, 127]

theorem endsWord_token_iff (names : List (List Char)) {number : UInt8}
    (h : number.toNat < 128) :
    EndsWord ((Item.token number).text names) ↔ number.toNat ∈ bareKeywords := by
  have htable : ∀ n < 128, EndsWord (tokenTable.getD n "").toList ↔ n ∈ bareKeywords := by
    decide +kernel
  exact htable number.toNat h

theorem beginsWord_token_iff (names : List (List Char)) {number : UInt8}
    (h : number.toNat < 128) (hkeyword : number.toNat ∉ keywordTokens) :
    BeginsWord ((Item.token number).text names) ↔ number.toNat ∈ unlistedKeywords := by
  have htable : ∀ n < 128, n ∉ keywordTokens →
      (BeginsWord (tokenTable.getD n "").toList ↔ n ∈ unlistedKeywords) := by
    decide +kernel
  exact htable number.toNat h hkeyword

/-- The neighbours `a` and `b`, both words where they meet, that run together when only the silent
tokens `between` stand between them. -/
def Glued : Item → List Item → Item → Prop
  | .token number, _, _ => number.toNat ∈ bareKeywords
  | .name _, [], .token number => number.toNat ∈ unlistedKeywords
  | .name _, [], .name _ => False
  | .name _, item :: _, _ => ∃ number, item = .token number ∧ number.toNat ∉ keywordTokens

theorem gap_name_eq_nil_iff (number : Nat) (rest : List Item) :
    gap (.name number) rest = [] ↔ startsWord rest = false := by
  cases h : startsWord rest with
  | false => simp [gap, h]
  | true => simp [gap, h]

/-- Nothing stands between the two exactly in the three cases. -/
theorem gap_eq_nil_iff {names : List (List Char)} {between : List Item} {a b : Item}
    (hbetween : ∀ item ∈ between, item.IsSilent names) (hwa : a.Writable) (hwb : b.Writable)
    (ha : EndsWord (a.text names)) (hb : BeginsWord (b.text names)) :
    gap a (between ++ [b]) = [] ↔ Glued a between b := by
  cases a with
  | token number =>
      -- a token brings its blank itself or not at all
      exact ⟨fun _ => (endsWord_token_iff names hwa).1 ha, fun _ => rfl⟩
  | name number =>
      rw [gap_name_eq_nil_iff]
      cases between with
      | nil =>
          cases b with
          | name number => exact ⟨fun h => absurd h (by simp [startsWord]), False.elim⟩
          | token number =>
              show keywordTokens.contains number.toNat = false ↔ number.toNat ∈ unlistedKeywords
              have hdisjoint : ∀ n ∈ unlistedKeywords, keywordTokens.contains n = false := by
                decide
              refine ⟨fun h => ?_, hdisjoint number.toNat⟩
              exact (beginsWord_token_iff names hwb (by simpa using h)).1 hb
      | cons item between =>
          obtain ⟨silent, rfl, -⟩ := hbetween item (by simp)
          show keywordTokens.contains silent.toNat = false ↔ _
          rw [List.contains_eq_mem, decide_eq_false_iff_not]
          constructor
          · exact fun h => ⟨silent, rfl, h⟩
          · rintro ⟨other, hother, h⟩
            rwa [Item.token.inj hother]

theorem gap_eq_or (a : Item) (rest : List Item) : gap a rest = [] ∨ gap a rest = [' '] := by
  cases a with
  | token number => exact .inl rfl
  | name number =>
      cases h : startsWord rest with
      | false => exact .inl ((gap_name_eq_nil_iff number rest).2 h)
      | true => exact .inr (if_pos h)

/-- **When words run together.** Let code that was written be decoded, and let `a` and `b` be items
of it with only silent tokens between them, such that `a` ends and `b` begins with a word. Then
what stands between their texts is a blank or nothing, and it is nothing exactly in the three
cases of `Glued`. -/
theorem words_glued_iff {names : List (List Char)} {pre between post : List Item} {a b : Item}
    {parts : List (List Char)}
    (hitems : ∀ item ∈ pre ++ a :: (between ++ b :: post), item.Writable)
    (hdecode : decode names (encode (pre ++ a :: (between ++ b :: post))) = .ok parts)
    (hbetween : ∀ item ∈ between, item.IsSilent names)
    (ha : EndsWord (a.text names)) (hb : BeginsWord (b.text names)) :
    parts.flatten = textBefore names pre (a :: (between ++ b :: post)) ++ a.text names ++
        gap a (between ++ [b]) ++ b.text names ++ gap b post ++ textOf names post ∧
      (gap a (between ++ [b]) = [] ↔ Glued a between b) ∧
      (¬Glued a between b ↔ ∃ c ∈ gap a (between ++ [b]), isBlank c = true) := by
  have htext : parts.flatten = textOf names (pre ++ a :: (between ++ b :: post)) := by
    have hread := decode_encode (fits_of_decode_encode hitems hdecode)
    rw [hdecode] at hread
    exact Except.ok.inj hread
  have hglued : gap a (between ++ [b]) = [] ↔ Glued a between b :=
    gap_eq_nil_iff hbetween (hitems a (by simp)) (hitems b (by simp)) ha hb
  refine ⟨by rw [htext, textOf_neighbours hbetween], hglued, ?_⟩
  rw [← hglued]
  rcases gap_eq_or a (between ++ [b]) with hgap | hgap
  · rw [hgap]
    simp
  · rw [hgap]
    exact ⟨fun _ => ⟨' ', by simp, by decide⟩, fun _ => by simp⟩

set_option maxRecDepth 4000 in
/-- A name, a token without a text and another name, after a keyword and before a line end. -/
theorem words_glued_iff_sample :
    let names := ["ab".toList, "c1".toList]
    decode names (encode ([.token 3] ++ .name 0 :: ([.token 14] ++ .name 1 :: [.token 100]))) =
        .ok ["if ".toList, "ab".toList, "c1".toList, "\n".toList] ∧
      Glued (.name 0) [.token 14] (.name 1) ∧ gap (.name 0) ([.token 14] ++ [.name 1]) = [] := by
  intro names
  have hdecode : decode names
      (encode ([.token 3] ++ .name 0 :: ([.token 14] ++ .name 1 :: [.token 100]))) =
        .ok ["if ".toList, "ab".toList, "c1".toList, "\n".toList] := rfl
  have hitems : ∀ item ∈ [Item.token 3] ++ .name 0 :: ([.token 14] ++ .name 1 :: [.token 100]),
      item.Writable := by
    simp [Item.Writable, referenceLimit]
  have hbetween : ∀ item ∈ [Item.token 14], item.IsSilent names := by
    intro item hitem
    rw [List.mem_singleton.1 hitem]
    exact ⟨14, rfl, by decide +kernel⟩
  have hglued : Glued (.name 0) [.token 14] (.name 1) := ⟨14, rfl, by decide⟩
  exact ⟨hdecode, hglued, (words_glued_iff hitems hdecode hbetween (by decide +kernel)
    (by decide +kernel)).2.1.2 hglued⟩

set_option maxRecDepth 4000 in
/-- One case of each kind: a bare keyword before a name, a name before a keyword that is not listed,
and two names with a silent token between them. -/
theorem glued_words :
    (decode ["x".toList] (encode [.token 6, .name 0])).map List.flatten = .ok "whilex".toList ∧
      (decode ["x".toList] (encode [.name 0, .token 58])).map List.flatten =
        .ok "xfeend ".toList ∧
      (decode ["x".toList] (encode [.name 0, .token 0, .name 0])).map List.flatten =
        .ok "xx".toList :=
  ⟨rfl, rfl, rfl⟩

end Pcode.Bytecode
