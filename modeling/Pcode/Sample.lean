import Pcode.Container
import Pcode.Zlib.Store

set_option autoImplicit false

/-! # Samples

Programs, containers and source texts of any size, made by rule. A sample program has names
`v0`, `v1`, … in its first group, and code that goes round a list of tokens, with references to
the names in turn between them. -/

namespace Pcode.Sample

/-- A source text of the given number of lines, each with eight literals. -/
def source (lines : Nat) : String :=
  let line := " ".intercalate (List.replicate 8 "'s'")
  "\n".intercalate (List.replicate lines line) ++ "\n"

/-- What a sample program looks like. -/
structure Plan where
  /-- the number of names; there are at least two -/
  names : Nat
  /-- the number of tokens -/
  codes : Nat
  /-- the tokens that are used in turn -/
  tokens : List UInt8
  /-- a reference stands before every token whose number this divides; no token for zero -/
  nameEvery : Nat

/-- Tokens for code with words, operators and ends of lines. -/
def mixedTokens : List UInt8 :=
  [0x01, 0x03, 0x07, 0x08, 0x32, 0x33, 0x34, 0x35, 0x46, 0x47, 0x5F, 0x64, 0x29]

/-- Tokens of which only one in ten has a text. -/
def sparseTokens : List UInt8 := List.replicate 9 0 ++ [0x2F]

/-- The token that ends a line. -/
def lineEnd : UInt8 := 0x64

namespace Plan

/-- The number of names in the program. -/
def nameCount (plan : Plan) : Nat := max plan.names 2

/-- The items of code for the token number `i`. -/
def itemsAt (plan : Plan) (i : Nat) : List Bytecode.Item :=
  let token := Bytecode.Item.token (plan.tokens.getD (i % plan.tokens.length) 0)
  if plan.nameEvery != 0 && i % plan.nameEvery == 0 then [.name (i % plan.nameCount), token]
  else [token]

/-- The code of the program. -/
def items (plan : Plan) : List Bytecode.Item :=
  (List.range plan.codes).flatMap plan.itemsAt ++ [.token lineEnd]

/-- The bytes of the program; `none` if there are no tokens to choose from. -/
def program? (plan : Plan) : Option (List UInt8) :=
  if plan.tokens.isEmpty && plan.codes != 0 then none
  else
    let names := (List.range plan.nameCount).map fun i => s!"v{i}".toList
    some (Program.encode (names :: List.replicate (NameTable.groupCount - 1) []) plan.items)

/-- A container with the program. -/
def container? (plan : Plan) (key : Nat) : Option Container :=
  plan.program?.map fun program =>
    let payload := Zlib.store program
    { revision := Container.knownRevision
      key
      payloadSize := payload.length
      plainSize := program.length
      payload := Scramble.scramble key payload }

end Plan

/-- The key of sample containers. -/
def defaultKey : Nat := 0x12345

end Pcode.Sample
