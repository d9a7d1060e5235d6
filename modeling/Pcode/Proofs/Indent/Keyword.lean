import Pcode.Proofs.Indent.Statement
import Pcode.Proofs.Spacing.Lead
import Pcode.Proofs.Text.Blank

set_option autoImplicit false

/-! # The first word of a line decides what the line is

A line is compared with many keywords, some of which begin others (`end`, `endif`; `else`,
`elseif`), and the first that matches wins. What may follow a keyword does not begin with a word
character, so only the whole first word can match: comparing with a list of keywords is looking
the first word up in it (`word?_eq_some_iff`, `closing?_eq_none`).

Main statements: the kind of a line that begins with a keyword, alone or with an expression
after one space (`ofLine_opening`, `ofLine_continuation`, `ofLine_end`), and of a line that
begins with another word (`ofLine_plain`). -/

namespace Pcode.Text

/-- The word a text begins with; empty if it begins with another character. -/
def firstWord (s : List Char) : List Char := s.takeWhile isWord

/-- What follows the first word. -/
def afterWord (s : List Char) : List Char := s.dropWhile isWord

theorem firstWord_append_afterWord (s : List Char) : firstWord s ++ afterWord s = s :=
  List.takeWhile_append_dropWhile

theorem isWord_of_mem_firstWord {s : List Char} {c : Char} (hc : c ∈ firstWord s) :
    isWord c = true :=
  List.mem_takeWhile_imp hc

/-- The words of a text, with an empty one wherever a character of no word has no word beside it. -/
def words (s : List Char) : List (List Char) := s.splitOnP fun c => !isWord c

/-- A character of no word separates words. -/
theorem words_append_cons {c : Char} (hc : isWord c = false) (s t : List Char) :
    words (s ++ c :: t) = words s ++ words t :=
  List.splitOnP_append_cons s t (by simp [hc])

theorem words_of_isWord {w : List Char} (hw : ∀ c ∈ w, isWord c = true) : words w = [w] :=
  List.splitOnP_eq_singleton fun c hc => by simp [hw c hc]

/-- The first of the words is the one that the text begins with. -/
theorem words_eq (s : List Char) :
    words s = firstWord s ::
      match afterWord s with
      | [] => []
      | _ :: t => words t := by
  have hfirst : words (firstWord s) = [firstWord s] :=
    words_of_isWord fun c hc => isWord_of_mem_firstWord hc
  have hsplit := firstWord_append_afterWord s
  cases hafter : afterWord s with
  | nil =>
      rw [hafter, List.append_nil] at hsplit
      rwa [hsplit] at hfirst ⊢
  | cons c t =>
      have hc : isWord c = false := by
        have hhead := List.head?_dropWhile_not isWord s
        rw [show s.dropWhile isWord = c :: t from hafter] at hhead
        simpa using hhead
      rw [hafter] at hsplit
      have hwords := words_append_cons hc (firstWord s) t
      rw [hsplit, hfirst] at hwords
      exact hwords

theorem infix_of_mem_words {w s : List Char} (h : w ∈ words s) : w <:+: s := by
  rw [words_eq] at h
  rcases List.mem_cons.1 h with rfl | h
  · exact (List.takeWhile_prefix isWord).isInfix
  · split at h
    · cases h
    · next c t hafter =>
        have hsuffix : c :: t <:+ s := hafter ▸ List.dropWhile_suffix isWord
        have hshorter : t.length < s.length := hsuffix.length_le
        exact (infix_of_mem_words h).trans ((List.suffix_cons c t).trans hsuffix).isInfix
termination_by s.length

end Pcode.Text

namespace Pcode.Indent

open Pcode.Text
open Pcode.Spacing (lastSplit lastSplit_eq_some)

/-! ## Keywords -/

/-- The words are made of word characters. -/
def AreWords (words : List String) : Prop := ∀ w ∈ words, ∀ c ∈ w.toList, isWord c = true

instance (words : List String) : Decidable (AreWords words) :=
  -- by going through the words, not through all characters
  haveI (w : String) : Decidable (∀ c ∈ w.toList, isWord c = true) := List.decidableBAll _ w.toList
  List.decidableBAll _ words

/-- The text begins with one of the words. -/
def Heads (words : List String) (s : List Char) : Prop := ∃ w ∈ words, w.toList = firstWord s

instance (words : List String) (s : List Char) : Decidable (Heads words s) :=
  inferInstanceAs (Decidable (∃ w ∈ words, w.toList = firstWord s))

theorem Heads.of_subset {words others : List String} {s : List Char} (h : Heads words s)
    (hsubset : words ⊆ others) : Heads others s := by
  obtain ⟨w, hw, hws⟩ := h
  exact ⟨w, hsubset hw, hws⟩

theorem Heads.not_of_disjoint {words others : List String} {s : List Char} (h : Heads words s)
    (hdisjoint : ∀ w ∈ words, w ∉ others) : ¬ Heads others s := by
  rintro ⟨v, hv, hvs⟩
  obtain ⟨w, hw, hws⟩ := h
  have heq : w = v := String.toList_inj.1 (hws.trans hvs.symm)
  exact hdisjoint w hw (heq ▸ hv)

/-- A keyword does not begin with a blank. -/
theorem Heads.beginsInk {words : List String} {s : List Char} (h : Heads words s)
    (hwords : ∀ w ∈ words, BeginsInk w.toList) : BeginsInk (firstWord s) := by
  obtain ⟨w, hw, hws⟩ := h
  exact hws ▸ hwords w hw

theorem after?_append (w r : List Char) : after? w (w ++ r) = some r := by
  induction w with
  | nil => rfl
  | cons c w ih => rw [List.cons_append, after?, if_pos rfl, ih]

theorem after?_eq_some_iff {w s r : List Char} : after? w s = some r ↔ s = w ++ r :=
  ⟨after?_eq_some, fun h => h ▸ after?_append w r⟩

/-- A keyword that stands at the start of a text, with no word character after it, is the first
word of the text. -/
theorem firstWord_of_boundary {w r : List Char} (hw : ∀ c ∈ w, isWord c = true)
    (hr : ∀ c ∈ r.head?, isWord c = false) : firstWord (w ++ r) = w ∧ afterWord (w ++ r) = r := by
  have hnil : r.takeWhile isWord = [] ∧ r.dropWhile isWord = r := by
    cases r with
    | nil => exact ⟨rfl, rfl⟩
    | cons c r =>
        have hc : isWord c = false := hr c rfl
        exact ⟨by simp [List.takeWhile, hc], by simp [List.dropWhile, hc]⟩
  constructor
  · rw [firstWord, List.takeWhile_append_of_pos hw, hnil.1, List.append_nil]
  · rw [afterWord, List.dropWhile_append_of_pos hw, hnil.2]

/-- A reader of what follows a keyword that takes no word character. -/
def RefusesWord {β : Type} (tail? : List Char → Option β) : Prop :=
  ∀ c r, isWord c = true → tail? (c :: r) = none

theorem refusesWord_expressionTail? : RefusesWord expressionTail? := by
  intro c r hc
  have hblank := isBlank_of_isWord hc
  simp [expressionTail?, List.dropWhile, List.takeWhile, hblank, hc]

theorem refusesWord_closingTail? : RefusesWord closingTail? := by
  intro c r hc
  have hblank := isBlank_of_isWord hc
  simp [closingTail?, List.dropWhile, List.takeWhile, hblank]

theorem refusesWord_shortBody? : RefusesWord shortBody? := by
  intro c r hc
  simp [shortBody?, hc]

/-- What a reader that refuses words accepts after a keyword begins where the first word ends. -/
theorem firstWord_of_tail {β : Type} {tail? : List Char → Option β} (htail : RefusesWord tail?)
    {w r : List Char} {t : β} (hw : ∀ c ∈ w, isWord c = true) (h : tail? r = some t) :
    firstWord (w ++ r) = w ∧ afterWord (w ++ r) = r := by
  apply firstWord_of_boundary hw
  intro c hc
  obtain ⟨r, rfl⟩ : ∃ r', r = c :: r' := by
    cases r with
    | nil => cases hc
    | cons d r => cases hc; exact ⟨r, rfl⟩
  cases hword : isWord c with
  | false => rfl
  | true => rw [htail c r hword] at h; cases h

section

variable {β : Type} {words : List String} {tail? : List Char → Option β} {s w : List Char} {t : β}

/-- **Comparing with a list of keywords is looking up the first word.** -/
theorem word?_eq_some_iff (hwords : AreWords words) (htail : RefusesWord tail?) :
    word? words tail? s = some (w, t) ↔
      Heads words s ∧ w = firstWord s ∧ tail? (afterWord s) = some t := by
  -- whatever is found is the first word with what follows it
  have hfound : ∀ w t, word? words tail? s = some (w, t) →
      Heads words s ∧ w = firstWord s ∧ tail? (afterWord s) = some t := by
    intro w t h
    obtain ⟨v, hv, hvt⟩ := List.exists_of_findSome?_eq_some h
    obtain ⟨r, hafter, hr⟩ := Option.bind_eq_some_iff.1 hvt
    obtain ⟨u, hu, hpair⟩ := Option.map_eq_some_iff.1 hr
    cases hpair
    obtain ⟨hfirst, hrest⟩ := firstWord_of_tail htail (hwords v hv) hu
    rw [after?_eq_some hafter]
    exact ⟨⟨v, hv, hfirst.symm⟩, hfirst.symm, by rw [hrest, hu]⟩
  refine ⟨hfound w t, ?_⟩
  rintro ⟨⟨v, hv, hvs⟩, rfl, ht⟩
  cases hword : word? words tail? s with
  | some p =>
      obtain ⟨-, hw, ht'⟩ := hfound p.1 p.2 hword
      rw [ht] at ht'
      cases ht'
      rw [← hw]
  | none =>
      have hnone := List.findSome?_eq_none_iff.1 hword v hv
      have hafter : after? v.toList s = some (afterWord s) :=
        after?_eq_some_iff.2 (by rw [hvs, firstWord_append_afterWord])
      simp [hafter, ht] at hnone

theorem word?_eq_none (hwords : AreWords words) (htail : RefusesWord tail?)
    (h : ¬ Heads words s) : word? words tail? s = none := by
  rw [Option.eq_none_iff_forall_ne_some]
  rintro ⟨w, t⟩ heq
  exact h ((word?_eq_some_iff hwords htail).1 heq).1

theorem word?_eq_none_of_tail (hwords : AreWords words) (htail : RefusesWord tail?)
    (h : tail? (afterWord s) = none) : word? words tail? s = none := by
  rw [Option.eq_none_iff_forall_ne_some]
  rintro ⟨w, t⟩ heq
  have hsome := ((word?_eq_some_iff hwords htail).1 heq).2.2
  rw [h] at hsome
  cases hsome

theorem closing?_eq_none (hwords : AreWords words) (h : ¬ Heads words s) :
    closing? words s = none := by
  rw [Option.eq_none_iff_forall_ne_some]
  rintro ⟨close, tail⟩ heq
  obtain ⟨v, hv, hvt⟩ := List.exists_of_findSome?_eq_some heq
  obtain ⟨r, hafter, hr⟩ := Option.bind_eq_some_iff.1 hvt
  apply h
  refine ⟨v, hv, ?_⟩
  rw [after?_eq_some hafter]
  split at hr
  · exact (firstWord_of_boundary (hwords v hv) (by intro c hc; cases hc; decide)).1.symm
  · obtain ⟨u, hu, -⟩ := Option.map_eq_some_iff.1 hr
    exact (firstWord_of_tail refusesWord_closingTail? (hwords v hv) hu).1.symm

end

/-! ## Keywords with their expressions -/

/-- What follows a keyword: nothing, or one space and an expression. -/
def argument : List Char → List Char
  | [] => []
  | c :: e => ' ' :: c :: e

theorem firstWord_keyword {w : List Char} (hw : ∀ c ∈ w, isWord c = true) (expr : List Char) :
    firstWord (w ++ argument expr) = w ∧ afterWord (w ++ argument expr) = argument expr := by
  apply firstWord_of_boundary hw
  intro c hc
  cases expr with
  | nil => cases hc
  | cons d e =>
      cases hc
      exact isWord_of_isBlank (by decide)

/-- After a blank any text is an expression. -/
theorem expressionTail?_of_blank {c : Char} (hc : isBlank c = true) (s : List Char) :
    ∃ tail, expressionTail? (c :: s) = some tail := by
  have htake : (c :: s).takeWhile isBlank ≠ [] := by simp [List.takeWhile, hc]
  have hlast := List.getLast?_eq_some_getLast htake
  simp only [expressionTail?, hlast]
  split
  · exact ⟨_, rfl⟩
  · split
    · exact ⟨_, rfl⟩
    · exact ⟨_, rfl⟩

/-- An expression is taken as it comes. -/
theorem expressionTail?_argument (expr : List Char) :
    ∃ tail, expressionTail? (argument expr) = some tail := by
  cases expr with
  | nil => exact ⟨[], rfl⟩
  | cons c e => exact expressionTail?_of_blank (by decide) (c :: e)

/-- A block that is closed on the line that opens it has a closing word among its words. -/
theorem exists_mem_words_of_shortBody? {s : List Char} {q : List Char × List Char × List Char}
    (h : shortBody? s = some q) : ∃ w ∈ shortEndWords, w.toList ∈ words s := by
  rw [shortBody?.eq_def] at h
  split at h
  · cases h
  · next b t =>
      split at h
      · cases h
      · split at h
        · cases h
        · next c u hdrop =>
            obtain ⟨⟨lead, found⟩, hsplit, -⟩ := Option.map_eq_some_iff.1 h
            obtain ⟨r, rfl, hclose⟩ := lastSplit_eq_some hsplit
            obtain ⟨v, d, rfl, hd⟩ := Spacing.lastSplit_lead hsplit
            obtain ⟨w, hw, hfirst⟩ : Heads shortEndWords r := by
              by_contra hheads
              rw [closing?_eq_none (by decide) hheads] at hclose
              cases hclose
            have hbreak : isWord d = false := by simpa [Spacing.isBreak] using hd
            have ht : t = t.takeWhile isBlank ++ c :: (v ++ d :: r) := by
              conv_lhs => rw [← List.takeWhile_append_dropWhile (p := isBlank) (l := t), hdrop]
              simp
            have hwords := words_append_cons hbreak (b :: (t.takeWhile isBlank ++ c :: v)) r
            rw [List.cons_append, List.append_assoc, List.cons_append, ← ht] at hwords
            refine ⟨w, hw, ?_⟩
            rw [hwords, words_eq r, hfirst]
            exact List.mem_append_right _ List.mem_cons_self

/-- Without a closing word no block is closed on the line that opens it. -/
theorem shortBody?_eq_none {s : List Char} (hs : ∀ w ∈ shortEndWords, w.toList ∉ words s) :
    shortBody? s = none := by
  rw [Option.eq_none_iff_forall_ne_some]
  intro q h
  obtain ⟨w, hw, hmem⟩ := exists_mem_words_of_shortBody? h
  exact hs w hw hmem

/-- Without the letters of `end` there is no closing word. -/
theorem not_mem_words_of_letters {s : List Char} (hs : ¬ "end".toList <:+: s) :
    ∀ w ∈ shortEndWords, w.toList ∉ words s := by
  have hends : ∀ w ∈ shortEndWords, "end".toList <+: w.toList := by decide
  intro w hw hmem
  exact hs ((hends w hw).isInfix.trans (infix_of_mem_words hmem))

/-- A text of words and other characters behind a keyword has the words it has by itself. -/
theorem words_argument {expr : List Char} (hexpr : expr ≠ []) :
    words (argument expr) = [] :: words expr := by
  cases expr with
  | nil => exact absurd rfl hexpr
  | cons c e => exact words_append_cons (isWord_of_isBlank (by decide)) [] (c :: e)

theorem shortBody?_argument {expr : List Char}
    (hexpr : ∀ w ∈ shortEndWords, w.toList ∉ words expr) : shortBody? (argument expr) = none := by
  cases expr with
  | nil => rfl
  | cons c e =>
      have hne : ∀ w ∈ shortEndWords, w.toList ≠ [] := by decide
      apply shortBody?_eq_none
      intro w hw hmem
      rw [words_argument (List.cons_ne_nil c e)] at hmem
      exact (List.mem_cons.1 hmem).elim (hne w hw) (hexpr w hw)

/-! ## Kinds of lines -/

/-- The kinds of blocks. -/
inductive Kind where
  | function
  | control
  | switch
deriving DecidableEq

/-- The words that open a block. -/
def Kind.words : Kind → List String
  | .function => functionWords
  | .control => blockWords
  | .switch => switchWords

/-- The statement that opens a block. -/
def Kind.opening : Kind → List Char → List Char → Statement
  | .function => .functionStart
  | .control => .blockStart
  | .switch => .switchStart

/-- The words that make a line more than plain code. -/
def keywords : List String :=
  functionWords ++ blockWords ++ switchWords ++ continuationWords ++ endWords

theorem ofLine_opening {kind : Kind} {line tail : List Char}
    (hhead : Heads kind.words (skipBlanks line))
    (hshort : shortBody? (afterWord (skipBlanks line)) = none)
    (htail : expressionTail? (afterWord (skipBlanks line)) = some tail) :
    Statement.ofLine line = kind.opening (firstWord (skipBlanks line)) tail := by
  have hnone : word? shortBlockWords shortBody? (skipBlanks line) = none :=
    word?_eq_none_of_tail (by decide) refusesWord_shortBody? hshort
  have hfound : ∀ words, AreWords words → Heads words (skipBlanks line) →
      word? words expressionTail? (skipBlanks line) = some (firstWord (skipBlanks line), tail) :=
    fun words hwords h =>
      (word?_eq_some_iff hwords refusesWord_expressionTail?).2 ⟨h, rfl, htail⟩
  have hmissed : ∀ words, AreWords words → (∀ w ∈ kind.words, w ∉ words) →
      word? words expressionTail? (skipBlanks line) = none :=
    fun words hwords h =>
      word?_eq_none hwords refusesWord_expressionTail? (hhead.not_of_disjoint h)
  rw [Statement.ofLine]
  simp only [hnone]
  cases kind with
  | function => simp only [hfound functionWords (by decide) hhead, Kind.opening]
  | control =>
      simp only [hmissed functionWords (by decide) (by decide),
        hfound blockWords (by decide) hhead, Kind.opening]
  | switch =>
      simp only [hmissed functionWords (by decide) (by decide),
        hmissed blockWords (by decide) (by decide), hfound switchWords (by decide) hhead,
        Kind.opening]

theorem ofLine_continuation {line tail : List Char}
    (hhead : Heads continuationWords (skipBlanks line))
    (htail : expressionTail? (afterWord (skipBlanks line)) = some tail) :
    Statement.ofLine line = .continuation (firstWord (skipBlanks line)) tail := by
  have hshort : word? shortBlockWords shortBody? (skipBlanks line) = none :=
    word?_eq_none (by decide) refusesWord_shortBody? (hhead.not_of_disjoint (by decide))
  have hmissed : ∀ words, AreWords words → (∀ w ∈ continuationWords, w ∉ words) →
      word? words expressionTail? (skipBlanks line) = none :=
    fun words hwords h =>
      word?_eq_none hwords refusesWord_expressionTail? (hhead.not_of_disjoint h)
  have hfound : word? continuationWords expressionTail? (skipBlanks line) =
      some (firstWord (skipBlanks line), tail) :=
    (word?_eq_some_iff (by decide) refusesWord_expressionTail?).2 ⟨hhead, rfl, htail⟩
  simp only [Statement.ofLine, hshort, hmissed functionWords (by decide) (by decide),
    hmissed blockWords (by decide) (by decide), hmissed switchWords (by decide) (by decide), hfound]

theorem ofLine_end {line : List Char} (h : skipBlanks line = "end".toList) :
    Statement.ofLine line = .blockEnd "end".toList [] := by
  rw [Statement.ofLine, h]
  rfl

/-- A line that begins with no keyword is plain code. -/
theorem ofLine_plain {line : List Char} (hhead : ¬ Heads keywords (skipBlanks line)) :
    Statement.ofLine line = .plain := by
  have hshort : word? shortBlockWords shortBody? (skipBlanks line) = none :=
    word?_eq_none (by decide) refusesWord_shortBody? fun h => hhead (h.of_subset (by decide))
  have hmissed : ∀ words, AreWords words → words ⊆ keywords →
      word? words expressionTail? (skipBlanks line) = none :=
    fun words hwords hsubset =>
      word?_eq_none hwords refusesWord_expressionTail? fun h => hhead (h.of_subset hsubset)
  have hclosing : closing? endWords (skipBlanks line) = none :=
    closing?_eq_none (by decide) fun h => hhead (h.of_subset (by decide))
  simp only [Statement.ofLine, hshort, hmissed functionWords (by decide) (by decide),
    hmissed blockWords (by decide) (by decide), hmissed switchWords (by decide) (by decide),
    hmissed continuationWords (by decide) (by decide), hclosing]

/-! ## Commands -/

/-- No command and no keyword begins with the other. -/
theorem isCommandLine_eq_false {line : List Char} (hhead : Heads keywords (skipBlanks line)) :
    isCommandLine line = false := by
  have hapart : ∀ w ∈ keywords, ∀ v ∈ commandWords,
      ¬ w.toList <+: v.toList ∧ ¬ v.toList <+: w.toList := by decide
  obtain ⟨w, hw, hws⟩ := hhead
  rw [isCommandLine, Option.isSome_eq_false_iff, Option.isNone_iff_eq_none,
    Option.eq_none_iff_forall_ne_some]
  rintro ⟨v, t⟩ heq
  obtain ⟨u, hu, hword⟩ := List.exists_of_findSome?_eq_some heq
  obtain ⟨r, hafter, -⟩ := Option.bind_eq_some_iff.1 hword
  have hline : firstWord (skipBlanks line) <+: skipBlanks line := List.takeWhile_prefix isWord
  rw [← hws] at hline
  have hcommand : u.toList <+: skipBlanks line := ⟨r, (after?_eq_some hafter).symm⟩
  rcases List.prefix_or_prefix_of_prefix hline hcommand with h | h
  · exact (hapart w hw u hu).1 h
  · exact (hapart w hw u hu).2 h

end Pcode.Indent
