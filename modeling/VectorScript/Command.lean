import VectorScript.Session

/-!
# Commands

What the command line does with a script: check that it can be read, print values, print a shape,
or print some elements.  A command gives the text that it prints and its exit status.
-/

namespace VectorScript

inductive Command where
  /-- Lists the statements that cannot be read. -/
  | check (file : String)
  /-- Prints the values of variables, of all of them when no name is given. -/
  | eval (file : String) (names : List String) (time : Option Float32)
  | shape (file name : String)
  /-- Prints the elements at some indices. -/
  | sample (file name : String) (indices : List Int) (time : Option Float32)
deriving Inhabited

/-- Why a file has no text. -/
inductive Unreadable where
  | missing
  | other (reason : String)
deriving DecidableEq, Repr, Inhabited

def Unreadable.message : Unreadable → String
  | missing => "No such file or directory (os error 2)"
  | other reason => reason

/-- What a command printed, and how it ended. -/
structure Outcome where
  status : Nat
  stdout : String
  stderr : String
deriving DecidableEq, Repr, Inhabited

namespace Outcome

/-- The outcome of a command that printed some lines and failed, or not. -/
def ofLines (lines : List String) (failure : Option String) : Outcome :=
  let stdout := String.join (lines.map (· ++ "\n"))
  match failure with
  | none => ⟨0, stdout, ""⟩
  | some message => ⟨1, stdout, "Error: " ++ message ++ "\n"⟩

end Outcome

namespace Command

/-- The file that holds the script. -/
def file : Command → String
  | check file | eval file _ _ | shape file _ | sample file _ _ _ => file

def unreadableText (file : String) (e : Unreadable) : String :=
  "failed to read " ++ file ++ "\n\nCaused by:\n    " ++ e.message

/-- A place in the script, and the source text there. -/
def placeText (st : Statement) (span : Span) (line column : Nat) : String :=
  toString line ++ ":" ++ toString column ++ " `" ++ st.snippet span ++ "`"

/-- The message of an error, with its place if it lies in a declared statement. -/
def errorText (s : Session) (e : EvalError) : String :=
  let place? : Option String := do
    let st ← s.statementOf? e
    let (line, column) ← st.location? e.site.span
    return placeText st e.site.span line column
  match place? with
  | some place => e.message ++ " at " ++ place
  | none => e.message

/-- The line for a statement that cannot be read. -/
def syntaxText (st : Statement) (e : SyntaxError) : String :=
  let (line, column) := (st.location? e.span).getD (0, 0)
  "[" ++ e.cause.code ++ "] " ++ toString line ++ ":" ++ toString column ++ " — " ++
    e.cause.message ++ ": `" ++ st.snippet e.span ++ "`"

def checkStatements (failed : List Statement) : Outcome :=
  if failed.isEmpty then .ofLines ["ok"] none
  else
    .ofLines (failed.filterMap fun st => st.error?.map (syntaxText st))
      (some (toString failed.length ++ " statement(s) failed to parse"))

/-- The lines for some names up to the first one that fails, and the message of its error. -/
def evalNames (s : Session) : List String → List String × Option String
  | [] => ([], none)
  | name :: rest =>
    match s.evaluate name .all with
    | (.error e, s) => ([], some (errorText s e))
    | (.ok v, s) =>
      let (lines, failure) := evalNames s rest
      ((name ++ " = " ++ v.text) :: lines, failure)

/-- The declared variables. -/
def variableNames (s : Session) : List String :=
  s.order.filter fun name => (s.declarations.find? name).any Statement.isVariable

def indicesText (indices : List Int) : String :=
  "[" ++ ", ".intercalate (indices.map toString) ++ "]"

/-- The one line of an answer, or the message of its error. -/
def answerLine {α : Type} (text : α → String) : Except EvalError α × Session → Outcome
  | (.ok a, _) => .ofLines [text a] none
  | (.error e, s) => .ofLines [] (some (errorText s e))

def atTime (s : Session) (time : Option Float32) : Session :=
  (time.map s.setTime).getD s

/-- What a command does with the text of its file. -/
def runOn (c : Command) (source : String) : Outcome :=
  let (s, failed) := Session.load source
  match c with
  | check _ => checkStatements failed
  | eval _ names time =>
    let s := atTime s time
    let (lines, failure) := evalNames s (if names.isEmpty then variableNames s else names)
    .ofLines lines failure
  | shape _ name => answerLine (fun t => name ++ ": " ++ t.text) (s.shape name)
  | sample _ name indices time =>
    answerLine (fun v => name ++ indicesText indices ++ " = " ++ v.text)
      ((atTime s time).evaluate name (.at indices))

/-- What a command does with what its file holds. -/
def run (c : Command) : Except Unreadable String → Outcome
  | .ok source => c.runOn source
  | .error e => .ofLines [] (some (unreadableText c.file e))

end Command

end VectorScript
