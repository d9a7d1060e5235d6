import Pcode.Spacing.Probe

set_option autoImplicit false

/-! # Literals and comments

Text in quotes and comments are cut out before anything else, so that nothing inside them is
taken for code. A literal in single quotes writes a quote twice and is not empty; a literal
in double quotes has no double quote inside. -/

namespace Pcode.Spacing

open Pcode.Text

/-- Characters after which a quote opens a literal; after any other it transposes. -/
def isBeforeLiteral (c : Char) : Bool :=
  isOpening c || c == ',' || c == ';' || c == '=' || isSign c || isBlank c

/-- What may follow a literal: the end of the text, a blank, or a character that cannot
continue an operand; with it the rest of the line. -/
def afterLiteral? : List Char → Option (List Char)
  | [] => some []
  | c :: s =>
      if isClosing c || isSign c || c == ',' || c == ';' then some (c :: firstLine s)
      else if isBlank c then
        some ((c :: s).takeWhile isBlank ++ firstLine ((c :: s).dropWhile isBlank))
      else none

/-- The body of a literal in single quotes with its closing quote, and what follows. -/
def singleBody : List Char → Option (List Char × List Char)
  | [] => none
  | '\'' :: '\'' :: s => (singleBody s).map (fun q => ('\'' :: '\'' :: q.1, q.2))
  | c :: s => if c = '\'' then some ([c], s) else (singleBody s).map (fun q => (c :: q.1, q.2))

/-- A literal in single quotes, which is not empty. -/
def singleQuoted : Probe := fun s =>
  match skipBlanks s with
  | '\'' :: t =>
      match singleBody t with
      | some (body, r) =>
          if body.length < 2 then none
          else (afterLiteral? r).map (fun u => ⟨[], '\'' :: body, u⟩)
      | none => none
  | _ => none

/-- A literal in double quotes. -/
def doubleQuoted : Probe := fun s =>
  match skipBlanks s with
  | '"' :: t =>
      match t.dropWhile (· != '"') with
      | q :: r =>
          (afterLiteral? r).map (fun u => ⟨[], '"' :: (t.takeWhile (· != '"') ++ [q]), u⟩)
      | [] => none
  | _ => none

/-- A comment, which reaches to the end of its line. -/
def comment : Probe := fun s =>
  match skipBlanks s with
  | '%' :: t => some ⟨[], '%' :: firstLine t, []⟩
  | _ => none

def singleQuotedRule : Rule := ⟨true, isBeforeLiteral, singleQuoted, false, false⟩

def doubleQuotedRule : Rule := ⟨true, isBeforeLiteral, doubleQuoted, false, false⟩

def commentRule : Rule := ⟨true, isInk, comment, true, false⟩

/-- The cut at a literal: of the last literals of the two kinds the longer one, since the
shorter may be part of it. -/
def literalCut? (s : List Char) : Option Cut :=
  match singleQuotedRule.cut? s, doubleQuotedRule.cut? s with
  | none, other => other
  | some single, none => some single
  | some single, some double =>
      some (if single.mid.length < double.mid.length then double else single)

/-- The cut at a comment. -/
def commentCut? (s : List Char) : Option Cut :=
  (commentRule.cut? s).map (fun c => { c with isComment := true })

/-- The cut at a literal or, without one, at a comment. -/
def quotedCut? (s : List Char) : Option Cut :=
  match literalCut? s with
  | some c => some c
  | none => commentCut? s

/-! ## What these probes find -/

theorem afterLiteral?_sublist {s u : List Char} (h : afterLiteral? s = some u) : u.Sublist s := by
  rw [afterLiteral?.eq_def] at h
  split at h
  · cases h
    exact List.nil_sublist []
  · next c t =>
      split at h
      · cases h
        exact (firstLine_sublist t).cons_cons c
      · split at h
        · cases h
          exact sublist_of_append List.takeWhile_append_dropWhile.symm (firstLine_sublist _)
        · cases h

theorem singleBody_append {s body r : List Char} (h : singleBody s = some (body, r)) :
    s = body ++ r := by
  fun_induction singleBody s generalizing body with
  | case1 => cases h
  | case2 s ih =>
      obtain ⟨q, hq, hpair⟩ := Option.map_eq_some_iff.1 h
      cases hpair
      simp [ih hq]
  | case3 s =>
      cases h; rfl
  | case4 c s hc hne ih =>
      obtain ⟨q, hq, hpair⟩ := Option.map_eq_some_iff.1 h
      cases hpair
      simp [ih hq]

theorem singleBody_ends {s body r : List Char} (h : singleBody s = some (body, r)) :
    ∃ v, body = v ++ ['\''] := by
  fun_induction singleBody s generalizing body with
  | case1 => cases h
  | case2 s ih =>
      obtain ⟨q, hq, hpair⟩ := Option.map_eq_some_iff.1 h
      cases hpair
      obtain ⟨v, hv⟩ := ih hq
      exact ⟨'\'' :: '\'' :: v, by rw [hv]; rfl⟩
  | case3 s =>
      cases h
      exact ⟨[], rfl⟩
  | case4 c s hc hne ih =>
      obtain ⟨q, hq, hpair⟩ := Option.map_eq_some_iff.1 h
      cases hpair
      obtain ⟨v, hv⟩ := ih hq
      exact ⟨c :: v, by rw [hv]; rfl⟩

/-- What a probe finds is a literal between two quotes `q`, and right of it what may follow one. -/
def Probe.TakesLiteral (p : Probe) (q : Char) : Prop :=
  ∀ t f, p t = some f → ∃ body r, skipBlanks t = f.mid ++ r ∧ f.head = [] ∧
    f.mid = q :: (body ++ [q]) ∧ afterLiteral? r = some f.right

theorem singleQuoted_takesLiteral : Probe.TakesLiteral singleQuoted '\'' := by
  intro t f h
  rw [singleQuoted] at h
  split at h
  · next u hskip =>
      split at h
      · next body r hbody =>
          split at h
          · cases h
          · obtain ⟨v, hv, rfl⟩ := Option.map_eq_some_iff.1 h
            obtain ⟨w, rfl⟩ := singleBody_ends hbody
            exact ⟨w, r, by rw [hskip, singleBody_append hbody]; rfl, rfl, rfl, hv⟩
      · cases h
  · cases h

theorem doubleQuoted_takesLiteral : Probe.TakesLiteral doubleQuoted '"' := by
  intro t f h
  rw [doubleQuoted] at h
  split at h
  · next u hskip =>
      split at h
      · next q r hdrop =>
          obtain ⟨v, hv, rfl⟩ := Option.map_eq_some_iff.1 h
          obtain rfl : q = '"' := by
            have hstop := List.head?_dropWhile_not (· != '"') u
            rw [hdrop] at hstop
            simpa using hstop
          have hparts : u = u.takeWhile (· != '"') ++ '"' :: r := by
            rw [← hdrop, List.takeWhile_append_dropWhile]
          refine ⟨u.takeWhile (· != '"'), r, ?_, rfl, rfl, hv⟩
          rw [hskip, List.cons_append, List.append_assoc]
          exact congrArg ('"' :: ·) hparts
      · cases h
  · cases h

theorem Probe.TakesLiteral.inOrder {p : Probe} {q : Char} (h : p.TakesLiteral q) :
    p.InOrder := by
  intro t f hf
  obtain ⟨body, r, htext, hhead, -, hright⟩ := h t f hf
  rw [hhead, List.nil_append]
  exact (sublist_of_append htext (afterLiteral?_sublist hright)).trans (skipBlanks_sublist t)

theorem Probe.TakesLiteral.takesInk {p : Probe} {q : Char} (h : p.TakesLiteral q)
    (hq : isBlank q = false) : p.TakesInk := by
  apply h.inOrder.takesInk
  intro t f hf
  obtain ⟨body, r, -, -, hmid, -⟩ := h t f hf
  rw [hmid, inkCount_cons_of_ink hq]
  exact Nat.succ_pos _

theorem comment_eq_some {s : List Char} {f : Found} (h : comment s = some f) :
    ∃ t, skipBlanks s = '%' :: t ∧ f = ⟨[], '%' :: firstLine t, []⟩ := by
  rw [comment] at h
  split at h
  · next t hskip =>
      cases h
      exact ⟨t, hskip, rfl⟩
  · cases h

theorem comment_inOrder : Probe.InOrder comment := by
  intro t f h
  obtain ⟨u, hskip, rfl⟩ := comment_eq_some h
  simpa using cons_sublist_of_skipBlanks hskip (firstLine_sublist u)

theorem comment_takesInk : Probe.TakesInk comment := by
  apply comment_inOrder.takesInk
  intro t f h
  obtain ⟨u, -, rfl⟩ := comment_eq_some h
  rw [inkCount_cons_of_ink (by decide)]
  exact Nat.succ_pos _

/-! ## Cuts at literals and comments -/

theorem literalCut?_eq_some {s : List Char} {c : Cut} (h : literalCut? s = some c) :
    singleQuotedRule.cut? s = some c ∨ doubleQuotedRule.cut? s = some c := by
  rw [literalCut?] at h
  split at h
  · exact Or.inr h
  · next hsingle _ => exact Or.inl (hsingle.trans h)
  · next hsingle hdouble =>
      split at h
      · exact Or.inr (hdouble.trans h)
      · exact Or.inl (hsingle.trans h)

theorem quotedCut?_eq_some {s : List Char} {c : Cut} (h : quotedCut? s = some c) :
    literalCut? s = some c ∨ commentCut? s = some c := by
  rw [quotedCut?] at h
  split at h
  · next hliteral => exact Or.inl (hliteral.trans h)
  · exact Or.inr h

theorem literalCut?_ink {s : List Char} {c : Cut} (h : literalCut? s = some c) :
    inkCount c.left < inkCount s ∧ inkCount c.right < inkCount s := by
  rcases literalCut?_eq_some h with hsingle | hdouble
  · exact Rule.cut?_ink (singleQuoted_takesLiteral.takesInk (by decide)) hsingle
  · exact Rule.cut?_ink (doubleQuoted_takesLiteral.takesInk (by decide)) hdouble

theorem commentCut?_ink {s : List Char} {c : Cut} (h : commentCut? s = some c) :
    inkCount c.left < inkCount s ∧ inkCount c.right < inkCount s := by
  obtain ⟨d, hd, rfl⟩ := Option.map_eq_some_iff.1 h
  have hink := Rule.cut?_ink (r := commentRule) comment_takesInk hd
  exact hink

end Pcode.Spacing
