import Pcode.Proofs.Spacing.LastSplit
import Pcode.Proofs.Spacing.Sign.Tree

set_option autoImplicit false

/-! # What a rule looks at

A rule for code looks at the ink of a text, and at a gap in few places. Its *view* says at which
places it finds something (`spot`), when it cuts at the start of the text though there are spots
behind (`start`), how much ink it takes, and what becomes of the gaps beside it: a blank, none, or
as in the text. The last spot is the one that is cut.

Main statement: the rules for operators, brackets and separators see what their views say
(`inkRules_sees`). Everything that is said about cuts from here on is said about views. -/

namespace Pcode.Spacing

open Pcode.Text

/-! ## Symbols by their ink -/

/-- The ink begins with characters of the classes, in order. -/
def fits : List (Char → Bool) → List Char → Bool
  | [], _ => true
  | _ :: _, [] => false
  | p :: ps, c :: i => p c && fits ps i

theorem fits_drop (p : Char → Bool) (ps : List (Char → Bool)) (k : Nat) (s : List Char) :
    fits (p :: ps) ((ink s).drop k) = (inkAt p k s && fits ps ((ink s).drop (k + 1))) := by
  rw [inkAt, ← List.head?_drop, ← List.tail_drop]
  cases (ink s).drop k with
  | nil => rfl
  | cons c i => rfl

theorem symbols?_eq (ps : List (Char → Bool)) (s : List Char) :
    symbols? ps s =
      if fits ps (ink s) then some ((ink s).take ps.length, past ps.length s) else none := by
  induction ps generalizing s with
  | nil => simp [symbols?, fits]
  | cons p ps ih =>
      rw [symbols?]
      split
      · next hskip =>
          have hnil : ink s = [] := by rw [← ink_skipBlanks, hskip, ink_nil]
          simp [hnil, fits]
      · next c r hskip =>
          have hc := isBlank_of_skipBlanks_eq_cons hskip
          have hink : ink s = c :: ink r := by rw [← ink_skipBlanks, hskip, ink_cons_of_ink hc]
          have hpast : past (ps.length + 1) s = past ps.length r := by
            rw [← past_skipBlanks, hskip, past_cons_of_ink hc]
          rw [hink, fits, List.length_cons, List.take_succ_cons, hpast, ih]
          by_cases hp : p c = true <;> by_cases hps : fits ps (ink r) = true <;> simp [hp, hps]

/-- A probe reads the ink: it finds `n` characters of it where `f` says so of the text, and `rest`
says what becomes of the text behind them. -/
def Probe.ReadsInk (p : Probe) (f : List Char → Bool) (n : Nat) (rest : List Char → List Char) :
    Prop :=
  ∀ t, '\n' ∉ t → p t = if f t then some ⟨[], (ink t).take n, rest (past n t)⟩ else none

theorem newline_not_mem_past {s : List Char} (hs : '\n' ∉ s) (k : Nat) : '\n' ∉ past k s :=
  fun hmem => hs ((past_suffix k s).mem hmem)

theorem operator_readsInk (ps : List (Char → Bool)) :
    (operator ps).ReadsInk (fun t => fits ps (ink t)) ps.length skipBlanks := by
  intro t ht
  rw [operator, symbols?_eq]
  split
  · rw [Option.map_some, remainder_eq (newline_not_mem_past ht _)]
  · rfl

theorem closing_readsInk : Probe.ReadsInk closing (fun t => fits [isClosing] (ink t)) 1 id := by
  intro t ht
  rw [closing, symbols?_eq]
  split
  · rw [Option.map_some, firstLine_of_not_mem (newline_not_mem_past ht _)]
    rfl
  · rfl

/-- Two signs with a closer or nothing behind them. -/
def fitsIncrement (i : List Char) : Bool := fits [isSign, isSign] i && (i[2]?).all isCloser

theorem increment_readsInk :
    Probe.ReadsInk increment (fun t => fitsIncrement (ink t)) 2 skipBlanks := by
  intro t ht
  have hline := newline_not_mem_past ht 2
  have hnext : (ink t)[2]? = (skipBlanks (past 2 t)).head? := by
    rw [← List.head?_drop, ← ink_past, ← ink_skipBlanks]
    by_cases hblank : (past 2 t).all isBlank = true
    · rw [(skipBlanks_eq_nil_iff _).2 hblank, ink_nil]
    · obtain ⟨c, r, hcons, hc⟩ := (beginsInk_skipBlanks (by simpa using hblank)).exists_cons
      rw [hcons, ink_cons_of_ink hc, List.head?_cons, List.head?_cons]
  simp only [increment, symbols?_eq, fitsIncrement, hnext]
  by_cases hfits : fits [isSign, isSign] (ink t) = true
  · simp only [hfits, if_true, List.length_cons, List.length_nil, Nat.zero_add, Nat.reduceAdd,
      Bool.true_and]
    cases hskip : skipBlanks (past 2 t) with
    | nil => rfl
    | cons c r =>
        have hr : '\n' ∉ r := fun hmem =>
          (Respaced.of_skipBlanks hskip).newline_not_mem hline (List.mem_cons_of_mem c hmem)
        simp only [firstLine_of_not_mem hr]
        rfl
  · simp [hfits]

/-! ## Views -/

/-- What a rule looks at: whether it cuts at the start of a text, its spots, the classes of the ink
it takes, and the gaps beside that, where `none` is for a gap that stays as it is. -/
structure View where
  start : List Char → Bool
  spot : Nat → List Char → Bool
  takes : List (Char → Bool)
  left : Option Bool
  right : Option Bool

/-- How much ink a view takes. -/
def View.size (v : View) : Nat := v.takes.length

/-- The spot at which a view cuts: the start of the text, or the last one. -/
structure View.Chosen (v : View) (s : List Char) (k : Nat) : Prop where
  spot : v.spot k s = true
  first : v.start s = true → k = 0
  last : v.start s = false → ∀ j, v.spot j s = true → j ≤ k

/-- A cut at the place `k` that takes `n` characters of ink and leaves the gaps `l` and `r` beside
them, all other gaps being those of the text. -/
structure Placed (s : List Char) (c : Cut) (k n : Nat) (l r : Bool) : Prop where
  bound : k + n ≤ (ink s).length
  left_ink : ink c.left = (ink s).take k
  mid : c.mid = ((ink s).drop k).take n
  right_ink : ink c.right = (ink s).drop (k + n)
  left_gap : ∀ j, j < k → gapAt j c.left = gapAt j s
  left_end : gapAt k c.left = l
  right_start : gapAt 0 c.right = r
  right_gap : ∀ j, gapAt (j + 1) c.right = gapAt (k + n + (j + 1)) s

/-- A view cuts a text at a place. -/
def View.Cuts (v : View) (s : List Char) (c : Cut) (k : Nat) : Prop :=
  Placed s c k v.size (v.left.getD (gapAt k s)) (v.right.getD (gapAt (k + v.size) s))

/-- A rule cuts where its view says, and finds nothing where the view has no spot. -/
def Rule.Sees (r : Rule) (v : View) : Prop :=
  ∀ s, '\n' ∉ s →
    (r.cut? s = none ∧ ∀ k, v.spot k s = false) ∨
      ∃ c k, r.cut? s = some c ∧ v.Chosen s k ∧ v.Cuts s c k

section

variable {r : Rule} {s lead : List Char} {f : Found}

theorem Rule.cut?_of_probe (hempty : r.emptyLead = true) (hfound : r.probe s = some f) :
    r.cut? s = some ⟨f.head ++ (if r.padLeft then [' '] else []), f.mid,
      (if r.padRight then [' '] else []) ++ f.right, false⟩ := by
  simp [Rule.cut?, Rule.split?, hempty, hfound]

theorem Rule.cut?_of_lastSplit (hempty : r.emptyLead = false ∨ r.probe s = none)
    (hsplit : lastSplit r.ends r.probe s = some (lead, f)) :
    r.cut? s = some ⟨lead ++ f.head ++ (if r.padLeft then [' '] else []), f.mid,
      (if r.padRight then [' '] else []) ++ f.right, false⟩ := by
  rcases hempty with hempty | hempty <;> simp [Rule.cut?, Rule.split?, hempty, hsplit]

theorem Rule.cut?_of_none (hempty : r.emptyLead = false ∨ r.probe s = none)
    (hsplit : lastSplit r.ends r.probe s = none) : r.cut? s = none := by
  rcases hempty with hempty | hempty <;> simp [Rule.cut?, Rule.split?, hempty, hsplit]

end

/-! ## Rules behind ink -/

/-- The view of a rule that finds something wherever `f` says so of the text from there on. -/
def textView (f : List Char → Bool) (ps : List (Char → Bool)) (left right : Option Bool) :
    View where
  start := f
  spot := fun k s => f (past k s)
  takes := ps
  left := left
  right := right

/-- The view of a rule that looks at nothing but the ink. -/
def inkView (f : List Char → Bool) (ps : List (Char → Bool)) (left right : Option Bool) : View where
  start := fun s => f (ink s)
  spot := fun k s => f ((ink s).drop k)
  takes := ps
  left := left
  right := right

section

variable (f : List Char → Bool) (ps : List (Char → Bool)) (l r : Option Bool)

@[simp] theorem textView_start (s : List Char) : (textView f ps l r).start s = f s := rfl

@[simp] theorem textView_spot (k : Nat) (s : List Char) :
    (textView f ps l r).spot k s = f (past k s) := rfl

@[simp] theorem inkView_spot (k : Nat) (s : List Char) :
    (inkView f ps l r).spot k s = f ((ink s).drop k) := rfl

theorem inkView_eq : inkView f ps l r = textView (fun t => f (ink t)) ps l r := by
  simp only [inkView, textView, ink_past]

end

/-- What becomes of the text behind the middle: its gaps stay, but for the first one. -/
structure KeepsBehind (rest : List Char → List Char) (right : Option Bool) : Prop where
  ink_eq : ∀ t, ink (rest t) = ink t
  start : ∀ t, gapAt 0 (rest t) = right.getD (gapAt 0 t)
  gap : ∀ j t, gapAt (j + 1) (rest t) = gapAt (j + 1) t

theorem keeps_pad (b : Bool) :
    KeepsBehind (fun t => (if b then [' '] else []) ++ skipBlanks t) (some b) := by
  have hblank : ([' '] : List Char).all isBlank = true := by decide
  constructor
  · intro t
    cases b
    · simp
    · rw [if_pos rfl, ink_append, (ink_eq_nil_iff _).2 hblank, ink_skipBlanks, List.nil_append]
  · intro t
    cases b
    · simp
    · rfl
  · intro j t
    cases b
    · simp [gapAt_skipBlanks]
    · rw [if_pos rfl, gapAt, past_blank_append hblank, past_skipBlanks, gapAt]

theorem placed_of_upTo {s : List Char} {k n : Nat} {rest : List Char → List Char}
    {right : Option Bool} (hrest : KeepsBehind rest right) (hbound : k + n ≤ (ink s).length)
    (b : Bool) :
    Placed s ⟨upTo k s ++ (if b then [' '] else []), ((ink s).drop k).take n,
      rest (past (k + n) s), false⟩ k n b (right.getD (gapAt (k + n) s)) where
  bound := hbound
  left_ink := by
    have hpad : ink (if b then [' '] else []) = [] := by cases b <;> rfl
    rw [ink_append, ink_upTo, hpad, List.append_nil]
  mid := rfl
  right_ink := by rw [hrest.ink_eq, ink_past]
  left_gap := fun j hj => gapAt_upTo_append_of_lt hj (by omega) _
  left_end := by
    rw [gapAt_upTo_append (by omega)]
    cases b <;> rfl
  right_start := by rw [hrest.start, gapAt_past, Nat.add_zero]
  right_gap := fun j => by rw [hrest.gap, gapAt_past]

theorem length_le_of_fits {ps : List (Char → Bool)} {i : List Char} (h : fits ps i = true) :
    ps.length ≤ i.length := by
  induction ps generalizing i with
  | nil => exact Nat.zero_le _
  | cons p ps ih =>
      cases i with
      | nil => cases h
      | cons c i =>
          rw [fits, Bool.and_eq_true] at h
          exact Nat.succ_le_succ (ih h.2)

section

variable {p : Probe} {f : List Char → Bool} {n : Nat} {rest : List Char → List Char} {s : List Char}

theorem Probe.ReadsInk.past (hp : p.ReadsInk f n rest) (hs : '\n' ∉ s) (k : Nat) :
    p (past k s) = if f (Text.past k s) then
      some ⟨[], ((ink s).drop k).take n, rest (Text.past (k + n) s)⟩ else none := by
  rw [hp _ (newline_not_mem_past hs k), ink_past, past_add]

/-- Behind ink, a probe that reads it finds something at every place where the text fits. -/
theorem Probe.ReadsInk.lastSplit (hp : p.ReadsInk f n rest) (hn : 0 < n)
    (hf : ∀ t, f t = true → n ≤ (ink t).length) (hs : '\n' ∉ s) :
    IsLast (fun k => if f (Text.past (k + 1) s) then
        some (upTo (k + 1) s,
          ⟨[], ((ink s).drop (k + 1)).take n, rest (Text.past (k + 1 + n) s)⟩) else none)
      (lastSplit isInk p s) := by
  refine (lastSplit_isInk p hs).congr fun k => ?_
  rw [hp.past hs]
  by_cases hfits : f (Text.past (k + 1) s) = true
  · have hlength := hf _ hfits
    rw [ink_past, List.length_drop] at hlength
    rw [if_pos hfits, if_pos hfits, if_pos (by omega), Option.map_some]
  · rw [if_neg hfits, if_neg hfits, Option.map_none, ite_self]

end

theorem Probe.ReadsInk.sees {p : Probe} {f : List Char → Bool} {ps : List (Char → Bool)}
    {rest : List Char → List Char} {right : Option Bool} {l r : Bool}
    (hp : p.ReadsInk f ps.length rest) (hps : 0 < ps.length)
    (hf : ∀ t, f t = true → fits ps (ink t) = true)
    (hrest : KeepsBehind (fun t => (if r then [' '] else []) ++ rest t) right) :
    Rule.Sees ⟨true, isInk, p, l, r⟩ (textView f ps (some l) right) := by
  intro s hs
  have hlength : ∀ t, f t = true → ps.length ≤ (ink t).length := fun t ht =>
    length_le_of_fits (hf t ht)
  -- wherever the text fits, a cut there is what the view says of that place
  have hplaced : ∀ k, f (Text.past k s) = true → (textView f ps (some l) right).Cuts s
      ⟨upTo k s ++ [] ++ (if l then [' '] else []), ((ink s).drop k).take ps.length,
        (if r then [' '] else []) ++ rest (Text.past (k + ps.length) s), false⟩ k := by
    intro k hk
    have hbound := hlength _ hk
    rw [ink_past, List.length_drop] at hbound
    rw [List.append_nil]
    exact placed_of_upTo hrest (by omega) l
  -- the empty lead is tried first, then the longest one
  have hfound := hp.past hs 0
  rw [past_zero] at hfound
  by_cases hstart : f s = true
  · right
    rw [if_pos hstart] at hfound
    have hcuts := hplaced 0 (by rwa [past_zero])
    rw [upTo_zero] at hcuts
    refine ⟨_, 0, Rule.cut?_of_probe rfl hfound, ⟨?_, fun _ => rfl, ?_⟩, hcuts⟩
    · rwa [textView_spot, past_zero]
    · intro hfalse
      rw [textView_start, hstart] at hfalse
      cases hfalse
  · rw [if_neg hstart] at hfound
    rcases hp.lastSplit hps hlength hs with ⟨hnone, hall⟩ | ⟨k, q, hsome, hk, hmax⟩
    · left
      refine ⟨Rule.cut?_of_none (Or.inr hfound) hnone, fun k => ?_⟩
      rw [textView_spot]
      cases k with
      | zero => simpa using hstart
      | succ k => simpa using hall k
    · right
      obtain ⟨hspot, hq⟩ := Option.ite_none_right_eq_some.1 hk
      cases hq
      refine ⟨_, k + 1, Rule.cut?_of_lastSplit (Or.inr hfound) hsome, ⟨hspot, ?_, ?_⟩,
        hplaced (k + 1) hspot⟩
      · intro htrue
        exact absurd htrue hstart
      · intro _ j hj
        rw [textView_spot] at hj
        cases j with
        | zero => exact Nat.zero_le _
        | succ j => exact Nat.succ_le_succ (hmax j (by simp [hj]))

/-! ## Rules in front of ink -/

/-- A sign that belongs to the word behind it: nothing stands between them, and in front of the sign
there is a gap or a character that calls for an operand. -/
def unaryAt (k : Nat) (s : List Char) : Bool :=
  inkAt isSign k s && inkAt isWord (k + 1) s && !gapAt (k + 1) s &&
    (gapAt k s || (decide (0 < k) && inkAt isBeforeSign (k - 1) s))

/-- The view of the rule for such signs. -/
def signView : View where
  start := fun _ => false
  spot := unaryAt
  takes := [isSign]
  left := none
  right := some false

/-- The view of the rule for calls: a parenthesis right behind a word. -/
def callView : View where
  start := fun _ => false
  spot := fun k s => inkAt (· == '(') k s && !gapAt k s &&
    (decide (0 < k) && inkAt isWord (k - 1) s)
  takes := [(· == '(')]
  left := none
  right := some false

/-- The view of the rule for opening brackets. -/
def openingView : View where
  start := fun s => inkAt isOpening 0 s && !gapAt 0 s
  spot := inkAt isOpening
  takes := [isOpening]
  left := none
  right := some false

theorem getLast?_upTo {k : Nat} {s : List Char} (hk : k < (ink s).length) :
    (upTo (k + 1) s).getLast? = (ink s)[k]? := by
  induction s generalizing k with
  | nil => simp at hk
  | cons c s ih =>
      by_cases hc : isBlank c = true
      · rw [ink_cons_of_isBlank hc] at hk ⊢
        rw [upTo_cons_of_blank hc, List.getLast?_cons, ih hk, List.getElem?_eq_getElem hk]
        rfl
      · have hink : isBlank c = false := by simpa using hc
        rw [ink_cons_of_ink hink, List.length_cons] at hk
        rw [upTo_cons_of_ink hink, ink_cons_of_ink hink, List.getLast?_cons]
        cases k with
        | zero => simp
        | succ k =>
            have hlt : k < (ink s).length := by omega
            rw [ih hlt, List.getElem?_cons_succ, List.getElem?_eq_getElem hlt]
            rfl

theorem takeWhile_past_eq_nil_iff {k : Nat} {s : List Char} :
    (past k s).takeWhile isBlank = [] ↔ gapAt k s = false := by
  rw [gapAt]
  cases past k s with
  | nil => simp
  | cons c r => by_cases hc : isBlank c = true <;> simp [hc]

/-- The lead up to a place ends in the blanks of a gap, or else in the ink in front. -/
theorem getLast?_leadTo {ends : Char → Bool} {b : Bool} {s : List Char}
    (hblank : ∀ c ∈ s, isBlank c = true → ends c = b) {k : Nat} (hk : k ≤ (ink s).length) :
    (leadTo k s).getLast?.any ends =
      if gapAt k s then b else decide (0 < k) && inkAt ends (k - 1) s := by
  by_cases hgap : gapAt k s = true
  · have hne : (past k s).takeWhile isBlank ≠ [] := by
      rw [ne_eq, takeWhile_past_eq_nil_iff, hgap]
      decide
    have hlast := List.getLast_mem hne
    have hmem := (past_suffix k s).mem ((List.takeWhile_sublist isBlank).mem hlast)
    rw [if_pos hgap, leadTo, List.getLast?_append_of_ne_nil _ hne,
      List.getLast?_eq_some_getLast hne, Option.any_some]
    exact hblank _ hmem (List.mem_takeWhile_imp hlast)
  · rw [if_neg hgap, leadTo, takeWhile_past_eq_nil_iff.2 (by simpa using hgap), List.append_nil]
    cases k with
    | zero => rw [upTo_zero]; rfl
    | succ k =>
        rw [getLast?_upTo (by omega), Nat.add_sub_cancel, decide_eq_true (Nat.succ_pos k),
          Bool.true_and, inkAt]

/-- The text at a place begins with ink of a class. -/
theorem head?_past {p : Char → Bool} (hp : ∀ c, p c = true → isBlank c = false) (k : Nat)
    (s : List Char) : (past k s).head?.any p = (inkAt p k s && !gapAt k s) := by
  rw [inkAt, ← List.head?_drop, ← ink_past, gapAt]
  cases past k s with
  | nil => rfl
  | cons c r =>
      by_cases hc : isBlank c = true
      · have hnot : p c = false := by
          by_contra hpc
          rw [hp c (by simpa using hpc)] at hc
          cases hc
        simp [hc, hnot]
      · simp [hc, ink_cons_of_ink (show isBlank c = false by simpa using hc)]

/-- The next ink at a place is of a class. -/
theorem head?_skipBlanks_past (p : Char → Bool) (k : Nat) (s : List Char) :
    (skipBlanks (past k s)).head?.any p = inkAt p k s := by
  rw [inkAt, ← List.head?_drop, ← ink_past, ← ink_skipBlanks]
  by_cases hblank : (past k s).all isBlank = true
  · rw [(skipBlanks_eq_nil_iff _).2 hblank, ink_nil]
  · obtain ⟨c, r, hcons, hc⟩ := (beginsInk_skipBlanks (by simpa using hblank)).exists_cons
    rw [hcons, ink_cons_of_ink hc, List.head?_cons, List.head?_cons]

theorem placed_of_leadTo {s : List Char} {k : Nat} (hk : k < (ink s).length) {c : Cut}
    (hleft : c.left = leadTo k s) (hmid : c.mid = ((ink s).drop k).take 1)
    (hright : c.right = skipBlanks (past (k + 1) s)) : Placed s c k 1 (gapAt k s) false where
  bound := hk
  left_ink := by rw [hleft, ink_leadTo]
  mid := hmid
  right_ink := by rw [hright, ink_skipBlanks, ink_past]
  left_gap := fun j hj => by
    rw [hleft, leadTo, gapAt_upTo_append_of_lt hj (Nat.le_of_lt hk)]
  left_end := by rw [hleft, gapAt_leadTo (Nat.le_of_lt hk)]
  right_start := by rw [hright, gapAt_zero_skipBlanks]
  right_gap := fun j => by rw [hright, gapAt_skipBlanks, gapAt_past]

theorem isBlank_of_isBeforeSign {c : Char} (h : isBlank c = true) : isBeforeSign c = true := by
  simp [isBeforeSign, h]

/-- A sign right in front of a word, with the text behind it. -/
theorem unarySign_eq {t : List Char} (ht : '\n' ∉ t) :
    unarySign t =
      if inkAt isSign 0 t && (past 1 t).head?.any isWord then
        some ⟨[], (ink t).take 1, past 1 t⟩
      else none := by
  have hline := newline_not_mem_past ht 1
  have hfits : fits [isSign] (ink t) = inkAt isSign 0 t := by
    have hdrop := fits_drop isSign [] 0 t
    rwa [List.drop_zero, fits, Bool.and_true] at hdrop
  rw [unarySign, symbols?_eq, hfits]
  cases hsign : inkAt isSign 0 t with
  | false => rfl
  | true =>
      simp only [if_true, List.length_singleton, Bool.true_and]
      cases hpast : past 1 t with
      | nil => rfl
      | cons c r =>
          have hr : '\n' ∉ r := fun hmem => hline (by rw [hpast]; exact List.mem_cons_of_mem c hmem)
          simp only [firstLine_of_not_mem hr, List.head?_cons, Option.any_some]
          rfl

theorem inkAt_past (p : Char → Bool) (k j : Nat) (s : List Char) :
    inkAt p j (past k s) = inkAt p (k + j) s := by
  rw [inkAt, inkAt, ink_past, List.getElem?_drop]

theorem inkAt_skipBlanks (p : Char → Bool) (k : Nat) (s : List Char) :
    inkAt p k (skipBlanks s) = inkAt p k s :=
  inkAt_of_ink_eq (ink_skipBlanks s) p k

theorem unarySign_endsLead : EndsLead isBeforeSign unarySign := by
  refine ⟨rfl, fun c t hc _ => ⟨isBlank_of_isBeforeSign hc, ?_⟩⟩
  rw [unarySign, unarySign, skipBlanks_symbols? hc]

theorem unarySign_past {s : List Char} (hs : '\n' ∉ s) (k : Nat) :
    unarySign (skipBlanks (past k s)) =
      if inkAt isSign k s && (inkAt isWord (k + 1) s && !gapAt (k + 1) s) then
        some ⟨[], ((ink s).drop k).take 1, past (k + 1) s⟩
      else none := by
  have hline : '\n' ∉ skipBlanks (past k s) :=
    (Respaced.skipBlanks _).newline_not_mem (newline_not_mem_past hs k)
  rw [unarySign_eq hline, inkAt_skipBlanks, inkAt_past, past_skipBlanks, ← past_add, ink_skipBlanks,
    ink_past, Nat.add_zero, head?_past fun c => isBlank_of_isWord]

theorem leadSpot_unarySign {s : List Char} (hs : '\n' ∉ s) (k : Nat) :
    leadSpot isBeforeSign unarySign k s = unaryAt k s := by
  rw [leadSpot, unarySign_past hs, unaryAt]
  cases hsign : inkAt isSign k s with
  | false => simp
  | true =>
      have hlast := getLast?_leadTo (s := s) (fun c _ hc => isBlank_of_isBeforeSign hc)
        (Nat.le_of_lt (lt_of_inkAt hsign))
      rw [hlast]
      cases gapAt k s <;> cases inkAt isWord (k + 1) s <;> cases gapAt (k + 1) s <;> simp

theorem skipBlanks_past_of_gapAt {k : Nat} {s : List Char} (h : gapAt k s = false) :
    skipBlanks (past k s) = past k s := by
  rw [gapAt] at h
  cases hpast : past k s with
  | nil => rfl
  | cons c r =>
      rw [hpast, List.head?_cons, Option.any_some] at h
      exact BeginsInk.skipBlanks_eq ⟨c, rfl, h⟩

/-- A rule in front of ink cuts at the last spot of its probe. -/
theorem EndsLead.cuts {ends : Char → Bool} {p : Probe} (h : EndsLead ends p) {e : Bool}
    {s : List Char} (hs : '\n' ∉ s) (hempty : e = false ∨ p s = none)
    (hfound : ∀ k f, p (skipBlanks (past k s)) = some f →
      k < (ink s).length ∧ f = ⟨[], ((ink s).drop k).take 1, skipBlanks (past (k + 1) s)⟩) :
    (Rule.cut? ⟨e, ends, p, false, false⟩ s = none ∧ ∀ k, leadSpot ends p k s = false) ∨
      ∃ c k, Rule.cut? ⟨e, ends, p, false, false⟩ s = some c ∧ leadSpot ends p k s = true ∧
        (∀ j, leadSpot ends p j s = true → j ≤ k) ∧ Placed s c k 1 (gapAt k s) false := by
  simp only [← isSome_splitAt?_leadTo]
  rcases h.lastSplit_isLast hs with ⟨hnone, hall⟩ | ⟨k, ⟨lead, f⟩, hsome, hk, hmax⟩
  · left
    exact ⟨Rule.cut?_of_none hempty hnone, fun k => congrArg Option.isSome (hall k)⟩
  · right
    obtain ⟨rfl, hf⟩ := splitAt?_eq_some hk
    obtain ⟨hlt, rfl⟩ := hfound k f hf
    refine ⟨_, k, Rule.cut?_of_lastSplit hempty hsome, Option.isSome_iff_exists.2 ⟨_, hk⟩,
      fun j hj => hmax j (Option.isSome_iff_ne_none.1 hj), ?_⟩
    exact placed_of_leadTo hlt (by simp) rfl (by simp)

theorem unaryRule_sees : Rule.Sees ⟨false, isBeforeSign, unarySign, false, false⟩ signView := by
  intro s hs
  have hfound : ∀ k f, unarySign (skipBlanks (past k s)) = some f →
      k < (ink s).length ∧ f = ⟨[], ((ink s).drop k).take 1, skipBlanks (past (k + 1) s)⟩ := by
    intro k f hf
    rw [unarySign_past hs] at hf
    split at hf
    · next hword =>
        simp only [Bool.and_eq_true, Bool.not_eq_true'] at hword
        rw [skipBlanks_past_of_gapAt hword.2.2]
        exact ⟨lt_of_inkAt hword.1, (Option.some.inj hf).symm⟩
    · cases hf
  rcases unarySign_endsLead.cuts hs (Or.inl rfl) hfound with
    ⟨hnone, hall⟩ | ⟨c, k, hcut, hk, hmax, hplaced⟩
  · left
    refine ⟨hnone, fun k => ?_⟩
    rw [← hall k, leadSpot_unarySign hs]
    rfl
  · right
    rw [leadSpot_unarySign hs] at hk
    simp only [leadSpot_unarySign hs] at hmax
    exact ⟨c, k, hcut, ⟨hk, fun h => absurd h Bool.false_ne_true, fun _ => hmax⟩, hplaced⟩

/-! ## Brackets -/

/-- A probe for a bracket of a class at the very start of a text. -/
structure Probe.ReadsBracket (p : Probe) (q : Char → Bool) : Prop where
  isInk : ∀ c, q c = true → isBlank c = false
  isSome : ∀ t, (p t).isSome = t.head?.any q
  found : ∀ t f, '\n' ∉ t → p t = some f → f = ⟨[], t.take 1, skipBlanks (t.drop 1)⟩

theorem callOpening_readsBracket : Probe.ReadsBracket callOpening (· == '(') where
  isInk := fun c hc => by
    rw [beq_iff_eq] at hc
    rw [hc]
    decide
  isSome := fun t => by
    rw [callOpening.eq_def]
    split
    · rfl
    · next hne =>
        cases t with
        | nil => rfl
        | cons c r => simpa using fun h : c = '(' => hne r (by rw [h])
  found := fun t f ht hf => by
    rw [callOpening.eq_def] at hf
    split at hf
    · next r =>
        rw [remainder_eq fun hmem => ht (List.mem_cons_of_mem _ hmem)] at hf
        exact (Option.some.inj hf).symm
    · cases hf

theorem opening_readsBracket : Probe.ReadsBracket opening isOpening where
  isInk := fun c => isBlank_of_isOpening
  isSome := fun t => by
    cases t with
    | nil => rfl
    | cons c r => cases hc : isOpening c <;> simp [opening, hc]
  found := fun t f ht hf => by
    cases t with
    | nil => cases hf
    | cons c r =>
        rw [opening, remainder_eq fun hmem => ht (List.mem_cons_of_mem _ hmem)] at hf
        split at hf
        · exact (Option.some.inj hf).symm
        · cases hf

namespace Probe.ReadsBracket

variable {p : Probe} {q : Char → Bool} {s : List Char}

theorem endsLead (hp : p.ReadsBracket q) (ends : Char → Bool) : EndsLead ends p := by
  constructor
  · have hnil := hp.isSome []
    simpa using hnil
  · intro c t hc hne
    have hq : q c = true := by
      have hsome := hp.isSome (c :: t)
      rwa [Option.isSome_iff_ne_none.2 hne, List.head?_cons, Option.any_some, eq_comm] at hsome
    rw [hp.isInk c hq] at hc
    cases hc

theorem isSome_past (hp : p.ReadsBracket q) (k : Nat) (s : List Char) :
    (p (skipBlanks (past k s))).isSome = inkAt q k s := by
  rw [hp.isSome, head?_skipBlanks_past]

theorem found_past (hp : p.ReadsBracket q) (hs : '\n' ∉ s) (k : Nat) (f : Found)
    (hf : p (skipBlanks (past k s)) = some f) :
    k < (ink s).length ∧ f = ⟨[], ((ink s).drop k).take 1, skipBlanks (past (k + 1) s)⟩ := by
  have hline : '\n' ∉ skipBlanks (past k s) :=
    (Respaced.skipBlanks _).newline_not_mem (newline_not_mem_past hs k)
  have hlt : k < (ink s).length := by
    apply lt_of_inkAt (p := q)
    rw [← hp.isSome_past, hf]
    rfl
  have hblank : (past k s).all isBlank = false := by
    rw [Bool.eq_false_iff, ne_eq, ← ink_eq_nil_iff, ink_past, List.drop_eq_nil_iff]
    omega
  obtain ⟨c, r, hcons, hc⟩ := (beginsInk_skipBlanks hblank).exists_cons
  have hink : (ink s).drop k = c :: ink r := by
    rw [← ink_past, ← ink_skipBlanks, hcons, ink_cons_of_ink hc]
  have hpast : past (k + 1) s = r := by
    rw [past_add, ← past_skipBlanks, hcons, past_cons_of_ink hc, past_zero]
  refine ⟨hlt, ?_⟩
  rw [hp.found _ f hline hf, hcons, hink, hpast]
  rfl

end Probe.ReadsBracket

theorem callRule_sees : Rule.Sees ⟨false, isWord, callOpening, false, false⟩ callView := by
  intro s hs
  have hread := callOpening_readsBracket
  have hspot : ∀ k, leadSpot isWord callOpening k s = callView.spot k s := by
    intro k
    rw [leadSpot, hread.isSome_past]
    show _ = (inkAt (· == '(') k s && !gapAt k s && (decide (0 < k) && inkAt isWord (k - 1) s))
    cases hparen : inkAt (· == '(') k s with
    | false => simp
    | true =>
        rw [getLast?_leadTo (s := s) (fun c _ hc => isWord_of_isBlank hc)
          (Nat.le_of_lt (lt_of_inkAt hparen))]
        cases gapAt k s <;> simp
  rcases (hread.endsLead isWord).cuts hs (Or.inl rfl) (hread.found_past hs) with
    ⟨hnone, hall⟩ | ⟨c, k, hcut, hk, hmax, hplaced⟩
  · left
    exact ⟨hnone, fun k => by rw [← hspot, hall k]⟩
  · right
    simp only [hspot] at hk hmax
    exact ⟨c, k, hcut, ⟨hk, fun h => absurd h Bool.false_ne_true, fun _ => hmax⟩, hplaced⟩

/-- In a line, all ink is on it. -/
theorem inkAt_ne_newline {s : List Char} (hs : '\n' ∉ s) {k : Nat} (hk : k < (ink s).length) :
    inkAt (· != '\n') k s = true := by
  have hmem : (ink s)[k] ∈ s := List.mem_of_mem_filter (List.getElem_mem hk)
  rw [inkAt_iff]
  refine ⟨(ink s)[k], List.getElem?_eq_getElem hk, ?_⟩
  rw [bne_iff_ne]
  intro heq
  rw [heq] at hmem
  exact hs hmem

/-- Every opening bracket of a line has something in front of it, but for one at the very start. -/
theorem leadSpot_opening {s : List Char} (hs : '\n' ∉ s) (hstart : openingView.start s = false)
    (k : Nat) : leadSpot (· != '\n') opening k s = openingView.spot k s := by
  have hline : ∀ c ∈ s, isBlank c = true → (c != '\n') = true := fun c hc _ => by
    simpa using fun h : c = '\n' => hs (h ▸ hc)
  rw [leadSpot, opening_readsBracket.isSome_past]
  show _ = inkAt isOpening k s
  cases hopen : inkAt isOpening k s with
  | false => simp
  | true =>
      have hlt := lt_of_inkAt hopen
      rw [getLast?_leadTo hline (Nat.le_of_lt hlt)]
      by_cases hgap : gapAt k s = true
      · simp [hgap]
      · -- without a gap there is ink in front, since the text does not start here
        have hpos : 0 < k := by
          refine Nat.pos_of_ne_zero fun hzero => ?_
          rw [hzero] at hopen hgap
          simp [openingView, hopen, hgap] at hstart
        simp [hgap, hpos, inkAt_ne_newline hs (show k - 1 < (ink s).length by omega)]

theorem openingRule_sees : Rule.Sees ⟨true, (· != '\n'), opening, false, false⟩ openingView := by
  intro s hs
  have hread := opening_readsBracket
  have hstart : (opening s).isSome = openingView.start s := by
    rw [hread.isSome]
    have hhead := head?_past (fun c => isBlank_of_isOpening) 0 s
    rwa [past_zero] at hhead
  cases hfirst : openingView.start s with
  | true =>
      -- the bracket stands at the very start: the lead is empty
      right
      obtain ⟨hopen, hgap⟩ : inkAt isOpening 0 s = true ∧ gapAt 0 s = false := by
        simpa [openingView] using hfirst
      have hskip : skipBlanks (past 0 s) = s := by rw [skipBlanks_past_of_gapAt hgap, past_zero]
      obtain ⟨f, hf⟩ := Option.isSome_iff_exists.1 (hstart.trans hfirst)
      obtain ⟨hlt, rfl⟩ := hread.found_past hs 0 f (by rwa [hskip])
      refine ⟨_, 0, Rule.cut?_of_probe rfl hf, ⟨hopen, fun _ => rfl, ?_⟩, ?_⟩
      · intro hfalse
        rw [hfirst] at hfalse
        cases hfalse
      · have hnil : leadTo 0 s = [] := by
          rw [leadTo, upTo_zero, takeWhile_past_eq_nil_iff.2 hgap, List.append_nil]
        exact placed_of_leadTo hlt (by simp [hnil]) rfl (by simp)
  | false =>
      have hnone : opening s = none := by simpa [hfirst] using hstart
      rcases (hread.endsLead _).cuts hs (Or.inr hnone) (hread.found_past hs) with
        ⟨hnone, hall⟩ | ⟨c, k, hcut, hk, hmax, hplaced⟩
      · left
        exact ⟨hnone, fun k => by rw [← leadSpot_opening hs hfirst, hall k]⟩
      · right
        simp only [leadSpot_opening hs hfirst] at hk hmax
        refine ⟨c, k, hcut, ⟨hk, fun h => ?_, fun _ => hmax⟩, hplaced⟩
        rw [hfirst] at h
        cases h

/-! ## All views -/

/-- The view of a rule for symbols of the given classes, with a blank added or left out on each
side. -/
def symbolView (ps : List (Char → Bool)) (l r : Bool) : View :=
  inkView (fits ps) ps (some l) (some r)

theorem symbolRule_sees {ps : List (Char → Bool)} (hps : 0 < ps.length) (l r : Bool) :
    Rule.Sees ⟨true, isInk, operator ps, l, r⟩ (symbolView ps l r) := by
  rw [symbolView, inkView_eq]
  exact (operator_readsInk ps).sees hps (fun _ => id) (keeps_pad r)

def incrementView : View := inkView fitsIncrement [isSign, isSign] (some false) (some false)

theorem fits_of_fitsIncrement {i : List Char} (h : fitsIncrement i = true) :
    fits [isSign, isSign] i = true := by
  rw [fitsIncrement, Bool.and_eq_true] at h
  exact h.1

theorem incrementRule_sees : Rule.Sees ⟨true, isInk, increment, false, false⟩ incrementView := by
  rw [incrementView, inkView_eq]
  exact increment_readsInk.sees (by decide) (fun _ => fits_of_fitsIncrement) (keeps_pad false)

def closingView : View := inkView (fits [isClosing]) [isClosing] (some false) none

theorem closingRule_sees : Rule.Sees ⟨true, isInk, closing, false, false⟩ closingView := by
  rw [closingView, inkView_eq]
  exact closing_readsInk.sees (by decide) (fun _ => id) ⟨fun _ => rfl, fun _ => rfl, fun _ _ => rfl⟩

def colonView : View := symbolView [(· == ':')] false false

def dotEqualsView : View :=
  symbolView [(· == '.'), fun c => isSign c || c == '*' || c == '/' || c == '^', (· == '=')]
    true true

def dotPowerView : View := symbolView [(· == '.'), (· == '^')] false false

def powerView : View := symbolView [(· == '^')] false false

def pairView : View := symbolView [isPairHead, isPairTail] true true

def negationView : View := symbolView [fun c => c == '!' || c == '~'] true false

def operatorView : View := symbolView [isOperator] true true

def separatorView : View := symbolView [fun c => c == ',' || c == ';'] false true

/-- The views of the rules for signs, operators, brackets and separators, in the order in which
these are tried. -/
def views : List View :=
  [incrementView, signView, colonView, dotEqualsView, dotPowerView, powerView, pairView,
    negationView, operatorView, callView, openingView, closingView, separatorView]

/-- **The rules for code see what their views say**, all but those for numbers in front of them and
the one for continuation marks behind. -/
theorem inkRules_sees : List.Forall₂ Rule.Sees ((inkRules.drop 2).take 13) views := by
  refine .cons incrementRule_sees (.cons unaryRule_sees ?_)
  iterate 7 refine .cons (symbolRule_sees (by decide) _ _) ?_
  refine .cons callRule_sees (.cons openingRule_sees (.cons closingRule_sees ?_))
  exact .cons (symbolRule_sees (by decide) _ _) .nil

end Pcode.Spacing
