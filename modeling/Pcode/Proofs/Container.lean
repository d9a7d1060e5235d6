import Pcode.Container
import Pcode.Proofs.Bytecode
import Pcode.Proofs.NameTable
import Pcode.Proofs.Scramble

set_option autoImplicit false

/-! # Reading back a container

A `Listing` is what a container can hold: names in seven groups and items that refer to them.
It is written as a payload (`Listing.payload`), compressed, scrambled, and put behind a header
(`Container.sealing`).

Main statements, one for each stage on the way back: the header (`ofBytes?_toBytesWith`), its check
(`isValid_sealing`), the payload (`program?_sealing`) and the source (`source_program`). -/

namespace Pcode

open Bytecode (Item textOf)

/-! ## Numbers -/

namespace BigEndian

theorem ofBytes_append_singleton (bs : List UInt8) (b : UInt8) :
    ofBytes (bs ++ [b]) = ofBytes bs * 256 + b.toNat := by
  simp [ofBytes]

theorem ofBytes_toBytes (width n : Nat) (h : n < 256 ^ width) : ofBytes (toBytes width n) = n := by
  induction width generalizing n with
  | zero =>
      have hn : n = 0 := by simpa using h
      simp [hn, toBytes, ofBytes]
  | succ width ih =>
      have hdiv : n / 256 < 256 ^ width := by
        apply (Nat.div_lt_iff_lt_mul (by decide : 0 < 256)).2
        simpa [Nat.pow_succ] using h
      rw [toBytes, ofBytes_append_singleton, ih _ hdiv, UInt8.toNat_ofNat']
      omega

end BigEndian

/-! ## The header -/

namespace Container

/-- A field in the middle of some bytes. -/
theorem field_append {before middle after : List UInt8} {offset count : Nat}
    (hoffset : before.length = offset) (hcount : middle.length = count) :
    field (before ++ (middle ++ after)) offset count = middle := by
  rw [field, ← hoffset, List.drop_left, ← hcount, List.take_left]

theorem ofBytes_toBytes_four {n : Nat} (h : n < 2 ^ 32) :
    BigEndian.ofBytes (BigEndian.toBytes 4 n) = n :=
  BigEndian.ofBytes_toBytes 4 n (by simpa using h)

/-- The bytes of a container with anything in the two parts of the header that are not used. -/
def toBytesWith (version unused : List UInt8) (c : Container) : List UInt8 :=
  version ++ c.revision ++ BigEndian.toBytes 4 c.key ++ unused ++
    BigEndian.toBytes 4 c.payloadSize ++ BigEndian.toBytes 4 c.plainSize ++ c.payload

/-- **Reading a container gives it back**, if its numbers fit their fields. -/
theorem ofBytes?_toBytesWith {version unused : List UInt8} {c : Container}
    (hversion : version.length = 6) (hunused : unused.length = 8)
    (hrevision : c.revision.length = 6) (hkey : c.key < 2 ^ 32)
    (hpayload : c.payloadSize < 2 ^ 32) (hplain : c.plainSize < 2 ^ 32) :
    ofBytes? (c.toBytesWith version unused) = some c := by
  have hlength : (c.toBytesWith version unused).length = headerSize + c.payload.length := by
    simp only [toBytesWith, List.length_append, BigEndian.length_toBytes, hunused, hversion,
      hrevision, headerSize]
  have hrev : field (c.toBytesWith version unused) 6 6 = c.revision := by
    rw [toBytesWith]
    simp only [List.append_assoc]
    exact field_append hversion hrevision
  have hfkey : field (c.toBytesWith version unused) 12 4 = BigEndian.toBytes 4 c.key := by
    rw [toBytesWith]
    simp only [List.append_assoc]
    rw [← List.append_assoc version]
    exact field_append (by simp [hversion, hrevision]) (BigEndian.length_toBytes 4 _)
  have hfsize : field (c.toBytesWith version unused) 24 4 = BigEndian.toBytes 4 c.payloadSize := by
    rw [toBytesWith, List.append_assoc (_ ++ _), List.append_assoc (_ ++ _)]
    exact field_append (by simp [hversion, hrevision, hunused]) (BigEndian.length_toBytes 4 _)
  have hfplain : field (c.toBytesWith version unused) 28 4 = BigEndian.toBytes 4 c.plainSize := by
    rw [toBytesWith, List.append_assoc (_ ++ _)]
    exact field_append (by simp [hversion, hrevision, hunused]) (BigEndian.length_toBytes 4 _)
  have hpay : (c.toBytesWith version unused).drop headerSize = c.payload := by
    rw [toBytesWith]
    exact List.drop_left' (by simp [hversion, hrevision, hunused, headerSize])
  rw [ofBytes?, if_neg (by omega), hrev, hfkey, hfsize, hfplain, hpay, ofBytes_toBytes_four hkey,
    ofBytes_toBytes_four hpayload, ofBytes_toBytes_four hplain]

/-- The container for a compressed payload. -/
def sealing (key plainSize : Nat) (z : List UInt8) : Container where
  revision := knownRevision
  key := key
  payloadSize := z.length
  plainSize := plainSize
  payload := Scramble.scramble key z

theorem isValid_sealing {key plainSize : Nat} {z : List UInt8} (hz : z ≠ [])
    (hplain : 0 < plainSize) : (sealing key plainSize z).isValid = true := by
  have hpos : 0 < z.length := List.length_pos_iff.2 hz
  simp [isValid, sealing, hpos, hplain, Scramble.length_scramble]

end Container

/-! ## The payload -/

/-- Names in seven groups, and items that refer to them. -/
structure Listing where
  groups : List (List (List Char))
  items : List Item
  groups_length : groups.length = NameTable.groupCount
  /-- the size of a group fits its field -/
  size_lt : ∀ group ∈ groups, group.length < 2 ^ 32
  /-- a zero character would end a name early -/
  zero_not_mem : ∀ group ∈ groups, ∀ name ∈ group, Char.ofNat 0 ∉ name
  fits : ∀ item ∈ items, item.Fits groups.flatten.length

namespace Listing

/-- The names, the groups one after the other. -/
def names (l : Listing) : List (List Char) := l.groups.flatten

/-- The sizes of the groups. -/
def sizes (l : Listing) : List Nat := l.groups.map List.length

/-- The bytes that are compressed. -/
def payload (l : Listing) : List UInt8 := Program.encode l.groups l.items

/-- The source text. -/
def text (l : Listing) : List Char := textOf l.names l.items

end Listing

namespace Program

/-- The number that starts at the place `4 * i` of numbers written one after the other. -/
theorem field_flatMap_toBytes (ns : List Nat) (rest : List UInt8) {i : Nat} (hi : i < ns.length) :
    Container.field (ns.flatMap (BigEndian.toBytes 4) ++ rest) (4 * i) 4 =
      BigEndian.toBytes 4 ns[i] := by
  induction ns generalizing i with
  | nil => simp at hi
  | cons n ns ih =>
      rw [List.flatMap_cons, List.append_assoc]
      cases i with
      | zero => exact List.take_left' (BigEndian.length_toBytes 4 n)
      | succ i =>
          have hdrop : ∀ t, (BigEndian.toBytes 4 n ++ t).drop (4 * (i + 1)) = t.drop (4 * i) := by
            intro t
            rw [Nat.mul_succ, Nat.add_comm, ← List.drop_drop,
              List.drop_left' (BigEndian.length_toBytes 4 n)]
          rw [Container.field, hdrop]
          exact ih (by simpa using hi)

theorem length_flatMap_toBytes (ns : List Nat) :
    (ns.flatMap (BigEndian.toBytes 4)).length = 4 * ns.length := by
  induction ns with
  | nil => rfl
  | cons n ns ih =>
      rw [List.flatMap_cons, List.length_append, BigEndian.length_toBytes, ih, List.length_cons]
      omega

theorem sizesOf_append {ns : List Nat} (hlength : ns.length = NameTable.groupCount)
    (hns : ∀ n ∈ ns, n < 2 ^ 32) (rest : List UInt8) :
    sizesOf (ns.flatMap (BigEndian.toBytes 4) ++ rest) = ns := by
  apply List.ext_getElem
  · simp [sizesOf, hlength]
  · intro i hi hi'
    have hread := Container.ofBytes_toBytes_four (hns ns[i] (List.getElem_mem hi'))
    simp only [sizesOf, List.getElem_map, List.getElem_range]
    rw [field_flatMap_toBytes ns rest hi', hread]

theorem payload_eq (l : Listing) :
    l.payload = l.sizes.flatMap (BigEndian.toBytes 4) ++
      (NameTable.encode l.names ++ Bytecode.encode l.items) := by
  rw [Listing.payload, encode, List.append_assoc, Listing.sizes, List.flatMap_map]
  rfl

/-- The payload of a listing holds the sizes of its groups, and what follows them. -/
theorem ofBytes_payload (l : Listing) :
    ofBytes l.payload = ⟨l.sizes, NameTable.encode l.names ++ Bytecode.encode l.items⟩ := by
  have hlength : l.sizes.length = NameTable.groupCount := by
    rw [Listing.sizes, List.length_map, l.groups_length]
  have hlt : ∀ n ∈ l.sizes, n < 2 ^ 32 := by
    intro n hn
    obtain ⟨group, hgroup, rfl⟩ := List.mem_map.1 hn
    exact l.size_lt group hgroup
  have hdrop : sizesLength = (l.sizes.flatMap (BigEndian.toBytes 4)).length := by
    rw [length_flatMap_toBytes, hlength]
    rfl
  rw [ofBytes, payload_eq, sizesOf_append hlength hlt, hdrop, List.drop_left]

/-! ## The source -/

/-- **The source of a listing that was written** is the text of its items. -/
theorem source_program (l : Listing) : (ofBytes l.payload).source = .ok l.text := by
  have hlength : (l.sizes.map Int.ofNat).length = NameTable.groupCount := by
    rw [List.length_map, Listing.sizes, List.length_map, l.groups_length]
  have hsizes : NameTable.groupCount ≤ (l.sizes.map Int.ofNat).length := Nat.le_of_eq hlength.symm
  have htotal : NameTable.total (l.sizes.map Int.ofNat) = l.names.length := by
    have htake : (l.sizes.map Int.ofNat).take NameTable.groupCount = l.sizes.map Int.ofNat :=
      List.take_of_length_le (by simp [Listing.sizes, l.groups_length])
    rw [NameTable.total, htake, List.map_map]
    simp [Listing.sizes, Listing.names, List.length_flatten, Function.comp_def]
  have hnames : ∀ name ∈ l.names, Char.ofNat 0 ∉ name := by
    intro name hname
    obtain ⟨group, hgroup, hmem⟩ := List.mem_flatten.1 hname
    exact l.zero_not_mem group hgroup name hmem
  have hdecode : (Bytecode.decode l.names (Bytecode.encode l.items)).map List.flatten =
      .ok l.text := Bytecode.decode_encode l.fits
  rw [ofBytes_payload, source, sourceOf, NameTable.read_encode_append hsizes htotal hnames]
  cases hparts : Bytecode.decode l.names (Bytecode.encode l.items) with
  | error e => rw [hparts] at hdecode; cases hdecode
  | ok parts =>
      rw [hparts] at hdecode
      simp only [hparts]
      exact congrArg _ (Except.ok.inj hdecode)

end Program

/-- The program in a sealed container is the one that was compressed. -/
theorem Container.program?_sealing {inflate : List UInt8 → Option (List UInt8)}
    {key plainSize : Nat} {z plain : List UInt8} (hinflate : inflate z = some plain)
    (hplain : plainSize ≤ plain.length) :
    (sealing key plainSize z).program? inflate = some (Program.ofBytes plain) := by
  have hz : inflate (Scramble.descramble (sealing key plainSize z).key
      (sealing key plainSize z).payload) = some plain := by
    rw [← hinflate]
    exact congrArg inflate (Scramble.descramble_scramble key z)
  have hlen : ¬ plain.length < (sealing key plainSize z).plainSize := Nat.not_lt.2 hplain
  rw [program?, hz]
  exact if_neg hlen

end Pcode
