import Pcode.Data.Read
import Pcode.Shell
import Pcode.Text.Line
import Pcode.Text.Quoted

set_option autoImplicit false

/-! # Reading what runners print

A runner is a program whose last line is a record of data. A runner that fails, or prints
something else, is reported and otherwise left out. -/

namespace Pcode.Survey

open Pcode.Data

/-- Why what a runner prints cannot be used. -/
inductive RunnerFault where
  | start (e : StartFailure)
  /-- it is not data -/
  | data (message : String)
  /-- a value has no operation of that name -/
  | noOperation (typeName operation : String)
  /-- a text is not a number -/
  | notNumber (text : String)
  /-- a value of that type is never a number -/
  | neverNumber (typeName : String)
deriving Repr, DecidableEq

namespace RunnerFault

def kind : RunnerFault → String
  | start e => e.kind
  | data _ => "JSONDecodeError"
  | noOperation .. => "AttributeError"
  | notNumber _ => "ValueError"
  | neverNumber _ => "TypeError"

def message : RunnerFault → String
  | start e => e.message
  | data message => message
  | noOperation typeName operation => s!"'{typeName}' object has no attribute '{operation}'"
  | notNumber text => "could not convert string to float: " ++ Text.quoted text
  | neverNumber typeName => s!"float() argument must be a string or a real number, not '{typeName}'"

end RunnerFault

/-- The number that a value stands for. -/
def number : Value → Except RunnerFault Float
  | .int n => .ok (Float.ofInt n)
  | .float x => .ok x
  | .bool b => .ok (if b then 1 else 0)
  | .text s =>
      match Decimal.read? s.toList with
      | some x => .ok x
      | none => .error (.notNumber s)
  | v => .error (.neverNumber v.typeName)

/-- The record in a field of a record; an empty one if there is nothing in it. -/
def recordIn (v : Value) (key : String) : Except RunnerFault (List (String × Value)) :=
  match v with
  | .record _ =>
      let inner := v.get key
      if inner.isNothing then .ok []
      else
        match inner with
        | .record fields => .ok fields
        | other => .error (.noOperation other.typeName "items")
  | other => .error (.noOperation other.typeName "get")

/-- The data in the last line of what a runner printed; `none` if it printed nothing. -/
def lastData (output : String) : Except RunnerFault (Option Value) :=
  match (Text.splitLines (Text.trim output.toList)).getLast? with
  | none => .ok none
  | some line =>
      match Data.read line with
      | .ok v => .ok (some v)
      | .error f => .error (.data (f.message line))

/-- Run a runner and use the data that it prints; a fault is reported, and gives nothing. -/
def runRunner {α : Type} (name : String) (words : List String)
    (use : Value → Except RunnerFault α) : Script (Option α) := do
  let outcome ← tryCatch (do
      let ended ← Script.start words
      Script.printError ended.errors
      match lastData ended.output with
      | .error f => pure (Except.error f)
      | .ok none => pure (Except.ok none)
      | .ok (some v) => pure ((use v).map some))
    fun stop =>
      match stop with
      | .start e => pure (Except.error (RunnerFault.start e))
      | stop => throw stop
  match outcome with
  | .ok result => pure result
  | .error f =>
      Script.printError ("[" ++ name ++ " runner: " ++ f.kind ++ ": " ++ f.message ++ "]\n")
      pure none

end Pcode.Survey
