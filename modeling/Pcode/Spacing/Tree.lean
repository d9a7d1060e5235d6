import Pcode.Spacing.Rules

set_option autoImplicit false

/-! # Cutting to the end

Cutting a text, then both sides of the cut, and so on, gives a tree whose leaves cannot be
cut. Read from left to right it is the text with its spacing in order (`format`). The tree of
the cuts at literals and comments alone, with one blank in place of each, is the code of a
line (`codeOf`), where brackets can be counted.

Main statements: both recursions follow one cut at a time (`format_of_cut`, `codeOf_of_cut`)
and stop at a text that has none (`format_of_uncut`, `codeOf_of_uncut`). -/

namespace Pcode.Spacing

open Pcode.Text

/-- A way of cutting texts into smaller ones. -/
structure Cutter where
  cut? : List Char → Option Cut
  smaller : ∀ {s : List Char} {c : Cut}, cut? s = some c → Smaller c.left s ∧ Smaller c.right s

/-- A text cut to the end. -/
inductive Tree where
  | leaf (text : List Char)
  | node (left : Tree) (mid : List Char) (right : Tree) (isComment : Bool)
deriving Repr, DecidableEq

/-- The tree of all cuts of a text. -/
def Cutter.tree (k : Cutter) (s : List Char) : Tree :=
  match h : k.cut? s with
  | none => .leaf s
  | some c =>
      have := k.smaller h
      .node (k.tree c.left) c.mid (k.tree c.right) c.isComment
termination_by (inkCount s, s.length)
decreasing_by
  · exact Prod.lex_def.2 this.1
  · exact Prod.lex_def.2 this.2

theorem Cutter.tree_of_uncut {k : Cutter} {s : List Char} (h : k.cut? s = none) :
    k.tree s = .leaf s := by
  rw [Cutter.tree]
  split
  · rfl
  · next c hc => rw [h] at hc; cases hc

theorem Cutter.tree_of_cut {k : Cutter} {s : List Char} {c : Cut} (h : k.cut? s = some c) :
    k.tree s = .node (k.tree c.left) c.mid (k.tree c.right) c.isComment := by
  rw [Cutter.tree]
  split
  · next hc => rw [h] at hc; cases hc
  · next d hd => rw [h] at hd; cases hd; rfl

namespace Tree

/-- The text of a tree, from left to right. -/
def text : Tree → List Char
  | leaf s => s
  | node l mid r _ => l.text ++ mid ++ r.text

/-- The leaves of a tree with one blank between neighbours. -/
def leaves : Tree → List Char
  | leaf s => s
  | node l _ r _ => l.leaves ++ ' ' :: r.leaves

/-- How deep the cuts of a tree are nested, the leaves included. -/
def depth : Tree → Nat
  | leaf _ => 1
  | node l _ r _ => max l.depth r.depth + 1

/-- Whether one of the cuts is at a comment. -/
def hasComment : Tree → Bool
  | leaf _ => false
  | node l _ r isComment => isComment || l.hasComment || r.hasComment

end Tree

/-- Cutting by all rules. -/
def spacing : Cutter := ⟨cut?, cut?_smaller⟩

/-- Cutting at literals and comments. -/
def quoting : Cutter := ⟨quotedCut?, quotedCut?_smaller⟩

/-- A text with its spacing in order. -/
def format (s : List Char) : List Char := (spacing.tree s).text

/-- The code of a text: a blank stands for each literal and comment. -/
def codeOf (s : List Char) : List Char := (quoting.tree s).leaves

theorem format_of_uncut {s : List Char} (h : cut? s = none) : format s = s := by
  rw [format, Cutter.tree_of_uncut (k := spacing) h, Tree.text]

theorem format_of_cut {s : List Char} {c : Cut} (h : cut? s = some c) :
    format s = format c.left ++ c.mid ++ format c.right := by
  rw [format, Cutter.tree_of_cut (k := spacing) h, Tree.text, format, format]

theorem codeOf_of_uncut {s : List Char} (h : quotedCut? s = none) : codeOf s = s := by
  rw [codeOf, Cutter.tree_of_uncut (k := quoting) h, Tree.leaves]

theorem codeOf_of_cut {s : List Char} {c : Cut} (h : quotedCut? s = some c) :
    codeOf s = codeOf c.left ++ ' ' :: codeOf c.right := by
  rw [codeOf, Cutter.tree_of_cut (k := quoting) h, Tree.leaves, codeOf, codeOf]

end Pcode.Spacing
