import Pcode.Byte.Adler
import Pcode.Byte.BigEndian
import Pcode.Zlib.Code

set_option autoImplicit false

/-! # Decompression

The zlib format: a header of two bytes, compressed blocks, and the checksum of the data. A
stream without a complete header, with a preset dictionary, with a block that does not
decode, with a wrong checksum or with an early end has no data. What follows the checksum is
not looked at. -/

namespace Pcode.Zlib

/-! ## Bits -/

/-- The bits of some bytes, the lowest bit of each byte first. -/
def bitsOf (bs : List UInt8) : List Bool :=
  bs.flatMap fun b => (List.range 8).map b.toNat.testBit

/-- Take a number of `count` bits, the lowest first. -/
def takeBits : Nat → List Bool → Option (Nat × List Bool)
  | 0, bits => some (0, bits)
  | _ + 1, [] => none
  | count + 1, b :: bits =>
      (takeBits count bits).map fun (n, rest) => ((if b then 1 else 0) + 2 * n, rest)

theorem length_takeBits {count n : Nat} {bits rest : List Bool}
    (h : takeBits count bits = some (n, rest)) : rest.length + count = bits.length := by
  induction count generalizing bits n with
  | zero =>
      simp only [takeBits, Option.some.injEq, Prod.mk.injEq] at h
      rw [h.2]
      rfl
  | succ count ih =>
      cases bits with
      | nil => simp [takeBits] at h
      | cons b bits =>
          rw [takeBits] at h
          obtain ⟨⟨m, r⟩, hm, hpair⟩ := Option.map_eq_some_iff.1 h
          cases hpair
          have := ih hm
          rw [List.length_cons]
          omega

/-- Drop the bits that are left of the current byte. -/
def alignByte (bits : List Bool) : List Bool := bits.drop (bits.length % 8)

/-- Take a number of whole bytes. -/
def takeBytes : Nat → List Bool → Option (List UInt8 × List Bool)
  | 0, bits => some ([], bits)
  | count + 1, bits =>
      match takeBits 8 bits with
      | some (n, rest) => (takeBytes count rest).map fun (bs, r) => (UInt8.ofNat n :: bs, r)
      | none => none

theorem length_takeBytes_le {count : Nat} {bs : List UInt8} {bits rest : List Bool}
    (h : takeBytes count bits = some (bs, rest)) : rest.length ≤ bits.length := by
  induction count generalizing bits bs with
  | zero =>
      simp only [takeBytes, Option.some.injEq, Prod.mk.injEq] at h
      exact Nat.le_of_eq (congrArg List.length h.2.symm)
  | succ count ih =>
      rw [takeBytes] at h
      split at h
      · next n r hbits =>
          obtain ⟨⟨m, q⟩, hm, hpair⟩ := Option.map_eq_some_iff.1 h
          cases hpair
          have h1 := length_takeBits hbits
          have h2 := ih hm
          omega
      · cases h

/-! ## Lengths and distances -/

/-- The least length of each length symbol, from `257` on, and how many further bits say how
much is added. -/
def lengthTable : List (Nat × Nat) :=
  [(3, 0), (4, 0), (5, 0), (6, 0), (7, 0), (8, 0), (9, 0), (10, 0), (11, 1), (13, 1), (15, 1),
    (17, 1), (19, 2), (23, 2), (27, 2), (31, 2), (35, 3), (43, 3), (51, 3), (59, 3), (67, 4),
    (83, 4), (99, 4), (115, 4), (131, 5), (163, 5), (195, 5), (227, 5), (258, 0)]

/-- The least distance of each distance symbol, and how many further bits say how much is
added. -/
def distanceTable : List (Nat × Nat) :=
  [(1, 0), (2, 0), (3, 0), (4, 0), (5, 1), (7, 1), (9, 2), (13, 2), (17, 3), (25, 3), (33, 4),
    (49, 4), (65, 5), (97, 5), (129, 6), (193, 6), (257, 7), (385, 7), (513, 8), (769, 8),
    (1025, 9), (1537, 9), (2049, 10), (3073, 10), (4097, 11), (6145, 11), (8193, 12), (12289, 12),
    (16385, 13), (24577, 13)]

/-- The number that a symbol of a table stands for. -/
def extended? (table : List (Nat × Nat)) (symbol : Nat) (bits : List Bool) :
    Option (Nat × List Bool) :=
  match table[symbol]? with
  | some (least, extra) => (takeBits extra bits).map fun (n, rest) => (least + n, rest)
  | none => none

theorem length_extended?_le {table : List (Nat × Nat)} {symbol n : Nat} {bits rest : List Bool}
    (h : extended? table symbol bits = some (n, rest)) : rest.length ≤ bits.length := by
  rw [extended?] at h
  split at h
  · obtain ⟨⟨m, r⟩, hm, hpair⟩ := Option.map_eq_some_iff.1 h
    cases hpair
    have := length_takeBits hm
    omega
  · cases h

/-- Read a length and a distance; `symbol` is counted from the first length symbol. -/
def reference? (distances : Code) (symbol : Nat) (bits : List Bool) :
    Option (Nat × Nat × List Bool) :=
  match extended? lengthTable symbol bits with
  | none => none
  | some (length, rest) =>
      match distances.decode rest with
      | none => none
      | some (d, rest) =>
          (extended? distanceTable d rest).map fun (distance, rest) => (length, distance, rest)

theorem length_reference?_le {distances : Code} {symbol length distance : Nat}
    {bits rest : List Bool} (h : reference? distances symbol bits = some (length, distance, rest)) :
    rest.length ≤ bits.length := by
  rw [reference?] at h
  split at h
  · cases h
  · next hlength =>
      split at h
      · cases h
      · next hdecode =>
          obtain ⟨⟨m, r⟩, hm, hpair⟩ := Option.map_eq_some_iff.1 h
          cases hpair
          have h1 := length_extended?_le hlength
          have h2 := Code.length_decode_lt hdecode
          have h3 := length_extended?_le hm
          omega

/-- Append `count` bytes, each a copy of the one `distance` places before it. -/
def copyBack (distance : Nat) : Nat → Array UInt8 → Array UInt8
  | 0, out => out
  | count + 1, out => copyBack distance count (out.push (out.getD (out.size - distance) 0))

/-! ## Blocks -/

/-- What a symbol of a block asks for. -/
inductive Item where
  /-- append a byte -/
  | byte (b : UInt8)
  /-- append a copy of what stands `distance` places back -/
  | copy (length distance : Nat)
  /-- end the block -/
  | stop
deriving Repr

/-- Take one item off the bits. -/
def takeItem (literals distances : Code) (bits : List Bool) : Option (Item × List Bool) :=
  match literals.decode bits with
  | none => none
  | some (symbol, rest) =>
      if symbol < 256 then some (.byte (UInt8.ofNat symbol), rest)
      else if symbol = 256 then some (.stop, rest)
      else
        (reference? distances (symbol - 257) rest).map fun (length, distance, r) =>
          (.copy length distance, r)

theorem length_takeItem_lt {literals distances : Code} {bits rest : List Bool} {item : Item}
    (h : takeItem literals distances bits = some (item, rest)) : rest.length < bits.length := by
  rw [takeItem] at h
  split at h
  · cases h
  · next hdecode =>
      have hlt := Code.length_decode_lt hdecode
      split at h
      · cases h; exact hlt
      · split at h
        · cases h; exact hlt
        · obtain ⟨⟨length, distance, r⟩, hr, hpair⟩ := Option.map_eq_some_iff.1 h
          cases hpair
          exact Nat.lt_of_le_of_lt (length_reference?_le hr) hlt

/-- Follow items up to the end of the block. -/
def inflateItems (literals distances : Code) (bits : List Bool) (out : Array UInt8) :
    Option (List Bool × Array UInt8) :=
  match h : takeItem literals distances bits with
  | none => none
  | some (item, rest) =>
      have := length_takeItem_lt h
      match item with
      | .byte b => inflateItems literals distances rest (out.push b)
      | .stop => some (rest, out)
      | .copy length distance =>
          if distance ≤ out.size then
            inflateItems literals distances rest (copyBack distance length out)
          else none
termination_by bits.length

theorem length_inflateItems_le {literals distances : Code} {bits rest : List Bool}
    {out result : Array UInt8}
    (h : inflateItems literals distances bits out = some (rest, result)) :
    rest.length ≤ bits.length := by
  fun_induction inflateItems literals distances bits out with
  | case1 => cases h
  | case2 =>
      rename_i hlt ih
      exact Nat.le_trans (ih h) (Nat.le_of_lt hlt)
  | case3 =>
      rename_i hlt
      cases h
      exact Nat.le_of_lt hlt
  | case4 =>
      rename_i hlt ih
      exact Nat.le_trans (ih h) (Nat.le_of_lt hlt)
  | case5 => cases h

/-- A block that holds its bytes as they are: their number, its complement, the bytes. -/
def inflateStored (bits : List Bool) (out : Array UInt8) : Option (List Bool × Array UInt8) :=
  match takeBits 16 (alignByte bits) with
  | none => none
  | some (length, rest) =>
      match takeBits 16 rest with
      | none => none
      | some (complement, rest) =>
          if length + complement = 65535 then
            (takeBytes length rest).map fun (bs, r) => (r, out ++ bs.toArray)
          else none

theorem length_inflateStored_le {bits rest : List Bool} {out result : Array UInt8}
    (h : inflateStored bits out = some (rest, result)) : rest.length ≤ bits.length := by
  rw [inflateStored] at h
  split at h
  · cases h
  · next h1 =>
      split at h
      · cases h
      · next h2 =>
          split at h
          · obtain ⟨⟨bs, r⟩, hm, hpair⟩ := Option.map_eq_some_iff.1 h
            cases hpair
            have e1 := length_takeBits h1
            have e2 := length_takeBits h2
            have e3 := length_takeBytes_le hm
            simp only [alignByte, List.length_drop] at e1
            omega
          · cases h

/-- The lengths of the fixed code for literals and lengths. -/
def fixedLiterals : List Nat :=
  List.replicate 144 8 ++ List.replicate 112 9 ++ List.replicate 24 7 ++ List.replicate 8 8

/-- The lengths of the fixed code for distances. -/
def fixedDistances : List Nat := List.replicate 32 5

/-- The order in which the lengths of the code for lengths are written. -/
def lengthOrder : List Nat := [16, 17, 18, 0, 8, 7, 9, 6, 10, 5, 11, 4, 12, 3, 13, 2, 14, 1, 15]

/-- Take `count` numbers of three bits. -/
def takeTriples : Nat → List Bool → Option (List Nat × List Bool)
  | 0, bits => some ([], bits)
  | count + 1, bits =>
      match takeBits 3 bits with
      | some (n, rest) => (takeTriples count rest).map fun (ns, r) => (n :: ns, r)
      | none => none

/-- Take `need` lengths of strings; `done` holds those before them, the last one first. The
symbols `16`, `17` and `18` repeat the last length or zero. -/
def takeLengths (code : Code) (need : Nat) (done : List Nat) (bits : List Bool) :
    Option (List Nat × List Bool) :=
  if _hneed : need = 0 then some (done.reverse, bits)
  else
    match code.decode bits with
    | none => none
    | some (symbol, rest) =>
        if symbol < 16 then takeLengths code (need - 1) (symbol :: done) rest
        else
          let run :=
            if symbol = 16 then
              match done.head? with
              | some last => (takeBits 2 rest).map fun (n, r) => (last, 3 + n, r)
              | none => none
            else if symbol = 17 then (takeBits 3 rest).map fun (n, r) => (0, 3 + n, r)
            else (takeBits 7 rest).map fun (n, r) => (0, 11 + n, r)
          match run with
          | none => none
          | some (value, times, rest) =>
              if _hrun : 0 < times ∧ times ≤ need then
                takeLengths code (need - times) (List.replicate times value ++ done) rest
              else none
termination_by need
decreasing_by all_goals omega

/-- The codes for literals and distances that a block brings along. -/
def takeCodes (bits : List Bool) : Option (Code × Code × List Bool) := do
  let (a, bits) ← takeBits 5 bits
  let (b, bits) ← takeBits 5 bits
  let (c, bits) ← takeBits 4 bits
  let literalCount := a + 257
  let distanceCount := b + 1
  if 286 < literalCount || 30 < distanceCount then none
  else
    let (triples, bits) ← takeTriples (c + 4) bits
    let named := lengthOrder.zip triples
    let lengths := (List.range 19).map fun symbol => (named.lookup symbol).getD 0
    let code ← Code.complete? lengths
    let (all, bits) ← takeLengths code (literalCount + distanceCount) [] bits
    if all.getD 256 0 = 0 then none
    else
      let literals ← Code.usable? (all.take literalCount)
      let distances ← Code.usable? (all.drop literalCount)
      some (literals, distances, bits)

/-- The body of a block of the given kind. A block never gives bits back. -/
def inflateBlock (kind : Nat) (bits : List Bool) (out : Array UInt8) :
    Option (List Bool × Array UInt8) :=
  match kind with
  | 0 => inflateStored bits out
  | 1 => inflateItems (Code.build fixedLiterals) (Code.build fixedDistances) bits out
  | 2 =>
      match takeCodes bits with
      | some (literals, distances, rest) =>
          if rest.length ≤ bits.length then inflateItems literals distances rest out else none
      | none => none
  | _ => none

theorem length_inflateBlock_le {kind : Nat} {bits rest : List Bool} {out result : Array UInt8}
    (h : inflateBlock kind bits out = some (rest, result)) : rest.length ≤ bits.length := by
  rw [inflateBlock.eq_def] at h
  split at h
  · exact length_inflateStored_le h
  · exact length_inflateItems_le h
  · split at h
    · next hcodes =>
        split at h
        · next hle => exact Nat.le_trans (length_inflateItems_le h) hle
        · cases h
    · cases h
  · cases h

/-- Decode blocks up to the last one. -/
def inflateBlocks (bits : List Bool) (out : Array UInt8) : Option (List Bool × Array UInt8) :=
  match h : takeBits 3 bits with
  | none => none
  | some (header, rest) =>
      have := length_takeBits h
      match h' : inflateBlock (header / 2) rest out with
      | none => none
      | some (rest', out') =>
          have := length_inflateBlock_le h'
          if header % 2 = 1 then some (rest', out') else inflateBlocks rest' out'
termination_by bits.length
decreasing_by omega

/-! ## Streams -/

/-- Whether two bytes are the header of a stream without a preset dictionary. -/
def isHeader (method flags : UInt8) : Bool :=
  method.toNat % 16 == 8 && method.toNat / 16 ≤ 7 &&
    (method.toNat * 256 + flags.toNat) % 31 == 0 && flags.toNat / 32 % 2 == 0

/-- The data of a stream. -/
def inflate (stream : List UInt8) : Option (List UInt8) :=
  match stream with
  | method :: flags :: body =>
      if isHeader method flags then
        match inflateBlocks (bitsOf body) #[] with
        | some (bits, out) =>
            match takeBytes 4 (alignByte bits) with
            | some (sum, _) =>
                if BigEndian.ofBytes sum = Adler.checksum out.toList then some out.toList else none
            | none => none
        | none => none
      else none
  | _ => none

end Pcode.Zlib
