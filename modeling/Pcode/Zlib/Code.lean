set_option autoImplicit false

/-! # Prefix codes

A code assigns strings of bits to symbols so that none begins another. It is given by the
length of each symbol's string; symbols of one length are numbered in order. Decoding walks a
binary tree and takes at least one bit (`Code.length_decode_lt`). -/

namespace Pcode.Zlib

/-- A binary tree with symbols at its leaves. -/
inductive CodeTree where
  | empty
  | leaf (symbol : Nat)
  | node (zero one : CodeTree)
deriving Repr

namespace CodeTree

/-- Walk from the root to a leaf. -/
def decode : CodeTree → List Bool → Option (Nat × List Bool)
  | empty, _ => none
  | leaf symbol, bits => some (symbol, bits)
  | node _ _, [] => none
  | node zero one, b :: bits => if b then one.decode bits else zero.decode bits

theorem length_decode_le {t : CodeTree} {bits rest : List Bool} {s : Nat}
    (h : t.decode bits = some (s, rest)) : rest.length ≤ bits.length := by
  induction t generalizing bits with
  | empty => simp [decode] at h
  | leaf symbol =>
      simp only [decode, Option.some.injEq, Prod.mk.injEq] at h
      exact Nat.le_of_eq (congrArg List.length h.2.symm)
  | node zero one ihZero ihOne =>
      cases bits with
      | nil => simp [decode] at h
      | cons b bits =>
          rw [decode] at h
          split at h
          · exact Nat.le_succ_of_le (ihOne h)
          · exact Nat.le_succ_of_le (ihZero h)

/-- Put a symbol at the end of a path. -/
def insert : CodeTree → List Bool → Nat → CodeTree
  | _, [], symbol => leaf symbol
  | node zero one, b :: path, symbol =>
      if b then node zero (one.insert path symbol) else node (zero.insert path symbol) one
  | _, b :: path, symbol =>
      if b then node empty (empty.insert path symbol) else node (empty.insert path symbol) empty

end CodeTree

/-- A prefix code: a tree whose root is not a leaf. -/
structure Code where
  zero : CodeTree
  one : CodeTree
deriving Repr

namespace Code

/-- Take one symbol off the bits. -/
def decode (c : Code) : List Bool → Option (Nat × List Bool)
  | [] => none
  | b :: bits => if b then c.one.decode bits else c.zero.decode bits

theorem length_decode_lt {c : Code} {bits rest : List Bool} {s : Nat}
    (h : c.decode bits = some (s, rest)) : rest.length < bits.length := by
  cases bits with
  | nil => simp [decode] at h
  | cons b bits =>
      rw [decode] at h
      split at h
      · exact Nat.lt_succ_of_le (CodeTree.length_decode_le h)
      · exact Nat.lt_succ_of_le (CodeTree.length_decode_le h)

/-- The lowest `length` bits of a number, the most significant first. -/
def pathOf : Nat → Nat → List Bool
  | 0, _ => []
  | length + 1, n => n.testBit length :: pathOf length n

/-- The symbols with a string of the given length, in order. -/
def symbolsOfLength (lengths : List Nat) (length : Nat) : List Nat :=
  ((List.range lengths.length).zip lengths).filterMap fun (symbol, l) =>
    if l = length then some symbol else none

/-- The strings of all symbols, shorter ones first: `next` is the number of the next string
of length `length`. -/
def paths (lengths : List Nat) : Nat → Nat → Nat → List (List Bool × Nat)
  | 0, _, _ => []
  | more + 1, length, next =>
      let symbols := symbolsOfLength lengths length
      let numbered := (List.range symbols.length).zip symbols
      numbered.map (fun (i, symbol) => (pathOf length (next + i), symbol)) ++
        paths lengths more (length + 1) (2 * (next + symbols.length))

/-- The longest string of a code. -/
def maxLength : Nat := 15

/-- The part of all strings of the longest length that begins with a string of the code, in
units of one such string. -/
def weight (lengths : List Nat) : Nat :=
  lengths.foldl (fun total l => if l = 0 then total else total + 1 <<< (maxLength - l)) 0

/-- The tree of the code with the given lengths. -/
def build (lengths : List Nat) : Code :=
  let tree := (paths lengths maxLength 1 0).foldl (fun t (path, symbol) => t.insert path symbol)
    CodeTree.empty
  match tree with
  | .node zero one => ⟨zero, one⟩
  | _ => ⟨.empty, .empty⟩

/-- The code with the given lengths if it uses every string of bits. -/
def complete? (lengths : List Nat) : Option Code :=
  if weight lengths = 1 <<< maxLength then some (build lengths) else none

/-- The code with the given lengths if it uses every string of bits, or has no symbols but
such of length one. -/
def usable? (lengths : List Nat) : Option Code :=
  if weight lengths = 1 <<< maxLength ||
      (weight lengths < 1 <<< maxLength && lengths.all (· ≤ 1)) then
    some (build lengths)
  else none

end Code

end Pcode.Zlib
