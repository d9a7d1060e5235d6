import Pcode.Convert
import Pcode.Sample

set_option autoImplicit false

/-! # Workloads

Runs of the parts of the program on samples of a given size, to be measured. Each gives a small
result that depends on all of the work. -/

namespace Pcode.Workload

/-! ## Decoding -/

/-- Scramble the given number of bytes and undo it; the sum of the first, middle and last byte.
Without bytes there is none. -/
def descrambled? (size : Nat) : Option Nat :=
  let plain := (List.range size).map fun i => UInt8.ofNat (37 * i)
  let data := Scramble.descramble Sample.defaultKey (Scramble.scramble Sample.defaultKey plain)
  do
    let first ← data.head?
    let middle ← data[size / 2]?
    let last ← data.getLast?
    return first.toNat + middle.toNat + last.toNat

/-- The length of the source of a program; `none` if it has none. -/
def sourceLength? (program : List UInt8) : Option Nat :=
  match (Program.ofBytes program).source with
  | .ok source => some source.length
  | .error _ => none

/-- Decode a program with the given number of tokens; the length of its source. -/
def decodedLength? (codes : Nat) : Option Nat :=
  let plan : Sample.Plan :=
    { names := codes / 20, codes, tokens := Sample.mixedTokens, nameEvery := 1 }
  plan.program?.bind sourceLength?

/-- Tokens for code with more words than operators. -/
def wordyTokens : List UInt8 := [0x01, 0x03, 0x07, 0x08, 0x32, 0x33, 0x34, 0x35, 0x64, 0x29]

/-- What the whole way from a container to a source shows: whether the container is valid, the
length of the source, and the number of names. -/
structure Journey where
  valid : Bool
  sourceLength : Nat
  names : Nat
deriving Repr, DecidableEq

/-- Read a container with the given number of tokens, decompress it and decode its program. -/
def journey? (inflate : Inflate) (codes : Nat) : Option Journey := do
  let plan : Sample.Plan :=
    { names := max 4 (codes / 10), codes, tokens := wordyTokens, nameEvery := 1 }
  let made ← plan.container? Sample.defaultKey
  let c ← Container.ofBytes? made.toBytes
  let program ← c.program? inflate
  match program.source with
  | .error _ => none
  | .ok source => some ⟨c.isValid, source.length, program.sizes.foldl (· + ·) 0⟩

/-! ## Converting -/

/-- Convert a container with the given number of tokens to some targets, one after the other;
the number of each verdict and the size of each target. -/
def conversions (inflate : Inflate) (codes : Nat) (targets : List String) : List (Nat × Nat) :=
  let plan : Sample.Plan :=
    { names := 8, codes, tokens := Sample.sparseTokens, nameEvery := 0 }
  match plan.container? Sample.defaultKey with
  | none => []
  | some c =>
      let start : Workspace := { files := Files.install {} "sample.p" (.file c.toBytes) }
      (targets.foldl (fun (w, results) target =>
        let (w, verdict) := Convert.run inflate w "sample.p" target
        let size := match w.files.read target with
          | .ok content => (Utf8.decodeLossy content).length
          | .error _ => 0
        (w, results ++ [(verdict.code, size)])) (start, ([] : List (Nat × Nat)))).2

/-- Containers that cannot be converted: too short for a header, with another revision, with a
payload that is no stream, and with a table of names that does not end. -/
def faulty (key : Nat) : List (String × List UInt8) :=
  let container (revision plain payload : List UInt8) : Container :=
    { revision, key, payloadSize := payload.length, plainSize := plain.length,
      payload := Scramble.scramble key payload }
  let junk : List UInt8 := List.replicate 16 0xFF
  let endless := BigEndian.toBytes 4 1 ++ List.replicate 24 0 ++ [0x61]
  [ ("short.p", junk),
    ("revision.p", (container (List.replicate 6 0) junk junk).toBytes),
    ("junk.p", (container Container.knownRevision junk junk).toBytes),
    ("endless.p", (container Container.knownRevision endless (Zlib.store endless)).toBytes)]

/-- The numbers of the verdicts for a container that is not there and for faulty ones. -/
def failures (inflate : Inflate) : List Nat :=
  let files := (faulty Sample.defaultKey).foldl (fun fs (path, content) =>
    fs.install path (.file content)) ({} : Files)
  ("missing.p" :: (faulty Sample.defaultKey).map (·.1)).map fun path =>
    (Convert.run inflate { files } path "out.m").2.code

/-- The verdict on a conversion that is interrupted. -/
def interrupted (inflate : Inflate) : Convert.Verdict :=
  (Convert.runOn { reading := some .interrupted } inflate {} "sample.p" "out.m").2

/-- What is read of a table with a name that does not end, and of code with a reference beyond
the last name. -/
def unread : List (Option (List (List Char))) :=
  [ (NameTable.read [1, 0, 0, 0, 0, 0, 0] [0x61]).toOption.map (·.1),
    (Bytecode.decode [] (Bytecode.encodeName 0)).toOption]

/-- The size of the given number of words and three bytes more, after they are descrambled. -/
def oddSize (words : Nat) : Nat :=
  (Scramble.descramble Sample.defaultKey (List.replicate (4 * words + 3) 0)).length

end Pcode.Workload
