import Monomorph.Report
import Monomorph.Snapshot.Reader

/-!
# Monomorph.CommandLine

The commands of the program and what each answers for the contents of a snapshot file: `keys`
prints the report of the keys, as text or as JSON, and `check` prints that all went well.

Arguments are the name of an action and, in any order, its flags and one path. No flag is given
twice after the name.
-/

namespace Monomorph

inductive Action where
  | keys
  | keysAsJson
  | check
  deriving DecidableEq

structure Command where
  action : Action
  path : String
  deriving DecidableEq

structure Outcome where
  exitCode : Nat
  output : String
  errorOutput : String
  deriving DecidableEq

namespace Outcome

def success (output : String) : Outcome :=
  ⟨0, output, ""⟩

/-- A failure exits with 1, and this is the last line it prints. Messages of the log are left out, and
so is the picture of the place where a text is malformed, which is printed before the line. -/
def failure (f : Failure) : Outcome :=
  ⟨1, "", "error: " ++ f.message ++ "\n"⟩

end Outcome

namespace Snapshot

/-- The text of a file; a file that is missing or not UTF-8 has none. -/
def textOf? (bytes : Option ByteArray) : Option String :=
  bytes.bind String.fromUTF8?

def load (bytes : Option ByteArray) : Except Error Loaded :=
  match textOf? bytes with
  | none => .error .unreadable
  | some text => do
    let s ← parse text
    s.build

end Snapshot

namespace Command

/-- How an error of loading is reported. -/
def loadFailure (path : String) : Error → Failure
  | .unreadable => .unreadable path
  | .malformed _ => .malformed
  | e => .library e

def resolve (path : String) (bytes : Option ByteArray) : Except Failure (Loaded × Progress) :=
  match Snapshot.load bytes with
  | .error e => .error (loadFailure path e)
  | .ok l => l.resolveAll.map fun p => (l, p)

def report (path : String) (bytes : Option ByteArray) : Except Failure KeyReport :=
  match resolve path bytes with
  | .error f => .error f
  | .ok (l, p) =>
    match p.report l.metadata with
    | .error e => .error (.library e)
    | .ok (r, _) => .ok r

def output (c : Command) (bytes : Option ByteArray) : Except Failure String :=
  match c.action with
  | .keys => (report c.path bytes).map KeyReport.toText
  | .keysAsJson => (report c.path bytes).map KeyReport.toJson
  | .check => (resolve c.path bytes).map fun _ => "success: No errors found\n"

def run (c : Command) (bytes : Option ByteArray) : Outcome :=
  match c.output bytes with
  | .ok text => .success text
  | .error f => .failure f

end Command

/-! ## Arguments -/

structure Arguments where
  verbose : Bool := false
  json : Bool := false
  path : Option String := none
  deriving DecidableEq

namespace Arguments

/-- The two spellings of the flag that asks for more messages; it changes no answer. -/
def isVerboseFlag (word : String) : Bool :=
  word == "-v" || word == "--verbose"

/-- Words that start with a dash are flags, save the dash alone. -/
def isFlag (word : String) : Bool :=
  match word.toList with
  | '-' :: _ :: _ => true
  | _ => false

/-- Reads the path; a second one is refused, and so is an empty one. -/
def addPath? (a : Arguments) (word : String) : Option Arguments :=
  if a.path.isSome || word.isEmpty then none else some { a with path := some word }

/-- Reads a flag or the path; a flag that is unknown or was given before is refused. -/
def addWord? (a : Arguments) (word : String) : Option Arguments :=
  if isVerboseFlag word then
    if a.verbose then none else some { a with verbose := true }
  else if word == "--json" then
    if a.json then none else some { a with json := true }
  else if isFlag word then none
  else a.addPath? word

/-- Reads words in any order; after a double dash no word is a flag. -/
def addWords? (a : Arguments) : List String → Option Arguments
  | [] => some a
  | word :: words =>
    if word == "--" then words.foldlM addPath? a
    else (a.addWord? word).bind (·.addWords? words)

end Arguments

namespace Command

/-- The command of the name of an action and the words after it; only `keys` prints JSON. -/
def ofWords? (name : String) (words : List String) : Option Command := do
  let a ← Arguments.addWords? {} words
  let path ← a.path
  match name, a.json with
  | "keys", false => some ⟨.keys, path⟩
  | "keys", true => some ⟨.keysAsJson, path⟩
  | "check", false => some ⟨.check, path⟩
  | _, _ => none

/-- The command of a list of arguments; the flag for more messages may also be given before the
name of the action. -/
def ofArgs? : List String → Option Command
  | [] => none
  | word :: words =>
    if Arguments.isVerboseFlag word then
      match words with
      | [] => none
      | name :: words => ofWords? name words
    else ofWords? word words

end Command
end Monomorph
