import VectorScript.Command

/-!
# Arguments of the command line

Options may stand anywhere after the command, in the forms `--option value`, `--option=value`,
`-o value`, `-o=value` and `-ovalue`.  After `--` every argument stands for itself.
-/

namespace VectorScript

/-- An option that takes a value. -/
inductive OptionName where
  | time
  | indices
deriving DecidableEq, Repr, Inhabited

inductive Argument where
  | word (text : String)
  | verbose
  | option (name : OptionName) (value : String)
deriving DecidableEq, Repr, Inhabited

namespace Argument

def long? : String → Option OptionName
  | "time" => some .time
  | "indices" => some .indices
  | _ => none

def short? : Char → Option OptionName
  | 't' => some .time
  | 'i' => some .indices
  | _ => none

/-- The arguments that one text holds, and an option whose value is the next text. -/
structure Group where
  arguments : List Argument
  pending : Option OptionName
deriving DecidableEq, Repr, Inhabited

/-- Reads an option after two dashes. -/
def ofLong (cs : List Char) : Option Group :=
  let name := String.ofList (cs.takeWhile (· ≠ '='))
  match cs.dropWhile (· ≠ '=') with
  | [] => if name = "verbose" then some ⟨[verbose], none⟩ else (long? name).map (⟨[], some ·⟩)
  | _ :: value => (long? name).map (⟨[option · (String.ofList value)], none⟩)

/-- Reads options of one letter each after one dash. -/
def ofShorts : List Char → Option Group
  | [] => some ⟨[], none⟩
  | 'v' :: cs => (ofShorts cs).map fun g => { g with arguments := verbose :: g.arguments }
  | c :: cs =>
    (short? c).map fun name =>
      match cs with
      | [] => ⟨[], some name⟩
      | '=' :: value => ⟨[option name (String.ofList value)], none⟩
      | value => ⟨[option name (String.ofList value)], none⟩

def ofText (text : String) : Option Group :=
  match text.toList with
  | '-' :: '-' :: cs => ofLong cs
  | '-' :: c :: cs => ofShorts (c :: cs)
  | _ => some ⟨[word text], none⟩

/-- Whether a text may be the value of the option before it.  A dash begins another option, or
else a negative index. -/
def isValue (name : OptionName) (text : String) : Bool :=
  match text.toList with
  | '-' :: c :: cs => name = .indices && (c :: cs).all Char.isDigit
  | _ => true

/-- Reads the arguments after a command. -/
def ofTexts : List String → Option (List Argument)
  | [] => some []
  | text :: rest =>
    if text = "--" then some (rest.map word)
    else
      match ofText text, rest with
      | none, _ => none
      | some ⟨arguments, none⟩, rest => (ofTexts rest).map (arguments ++ ·)
      | some ⟨_, some _⟩, [] => none
      | some ⟨arguments, some name⟩, value :: rest =>
        if isValue name value then
          (ofTexts rest).map (arguments ++ option name value :: ·)
        else none

def words (arguments : List Argument) : List String :=
  arguments.filterMap fun
    | word text => some text
    | _ => none

def values (name : OptionName) (arguments : List Argument) : List String :=
  arguments.filterMap fun
    | option other value => if other = name then some value else none
    | _ => none

/-! ### Values of options -/

/-- Reads a whole number of 64 bits with an optional sign. -/
def readIndex (text : String) : Option Int :=
  let magnitude? (cs : List Char) : Option Nat :=
    if cs.isEmpty || !cs.all Char.isDigit then none
    else some (cs.foldl (fun n c => 10 * n + (c.toNat - '0'.toNat)) 0)
  let value? : Option Int := match text.toList with
    | '-' :: cs => (magnitude? cs).map fun n => -(n : Int)
    | '+' :: cs => (magnitude? cs).map Int.ofNat
    | cs => (magnitude? cs).map Int.ofNat
  value?.filter fun i => Scalar.minIndex ≤ i && i ≤ Scalar.maxIndex

/-- Reads the indices of all such options, one after the other; there is at least one. -/
def readIndices (arguments : List Argument) : Option (List Int) :=
  match values .indices arguments with
  | [] => none
  | texts => (texts.flatMap (·.splitOn ",")).mapM readIndex

/-- Reads the time, which may be given once. -/
def readTime (arguments : List Argument) : Option (Option Float32) :=
  match values .time arguments with
  | [] => some none
  | [text] => (Scalar.read? text).map some
  | _ => none

end Argument

namespace Command

open Argument

/-- The command with some name and arguments. -/
def ofParts (name : String) (arguments : List Argument) : Option Command := do
  let hasIndices := !(values .indices arguments).isEmpty
  let hasTime := !(values .time arguments).isEmpty
  match name, words arguments with
  | "check", [file] => if hasIndices || hasTime then none else return check file
  | "eval", file :: names =>
    if hasIndices then none else return eval file names (← readTime arguments)
  | "shape", [file, target] => if hasIndices || hasTime then none else return shape file target
  | "sample", [file, target] =>
    return sample file target (← readIndices arguments) (← readTime arguments)
  | _, _ => none

/-- Reads the arguments of the command line. -/
def ofArguments : List String → Option Command
  | "-v" :: rest | "--verbose" :: rest => ofArguments rest
  | name :: rest => do ofParts name (← Argument.ofTexts rest)
  | [] => none

end Command

end VectorScript
