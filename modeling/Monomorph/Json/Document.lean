import Monomorph.Text.Numeral

/-!
# Monomorph.Json.Document

Documents to be written as JSON, on lines that are indented by two spaces for each bracket.
-/

namespace Monomorph
namespace Json

inductive Document where
  | string (s : String)
  | list (items : List Document)
  | object (members : List (String × Document))

def writtenChar (c : Char) : List Char :=
  if c = '"' then ['\\', '"']
  else if c = '\\' then ['\\', '\\']
  else if c = '\x08' then ['\\', 'b']
  else if c = '\x0c' then ['\\', 'f']
  else if c = '\n' then ['\\', 'n']
  else if c = '\r' then ['\\', 'r']
  else if c = '\t' then ['\\', 't']
  else if c.toNat < 0x20 then
    '\\' :: 'u' :: (Numeral.fourHexDigits c.toNat).map Char.toLower
  else [c]

def quoted (s : String) : String :=
  "\"" ++ String.ofList (s.toList.flatMap writtenChar) ++ "\""

def lineStart (depth : Nat) : String :=
  "\n" ++ String.ofList (List.replicate (2 * depth) ' ')

/-- Items inside `depth` brackets, each on a line of its own; without items the brackets touch. -/
def bracketed (opening closing : String) (depth : Nat) (items : List String) : String :=
  match items with
  | [] => opening ++ closing
  | items =>
    opening ++ ",".intercalate (items.map (lineStart (depth + 1) ++ ·)) ++ lineStart depth ++
      closing

namespace Document

mutual

def write (depth : Nat) : Document → String
  | string s => quoted s
  | list items => bracketed "[" "]" depth (writeItems (depth + 1) items)
  | object members => bracketed "\x7b" "\x7d" depth (writeMembers (depth + 1) members)

def writeItems (depth : Nat) : List Document → List String
  | [] => []
  | d :: rest => write depth d :: writeItems depth rest

def writeMembers (depth : Nat) : List (String × Document) → List String
  | [] => []
  | (name, d) :: rest => (quoted name ++ ": " ++ write depth d) :: writeMembers depth rest

end

def toText (d : Document) : String :=
  d.write 0

end Document
end Json
end Monomorph
