import Monomorph.Error

/-!
# Monomorph.Signature.Render

The text of a signature, as keys contain it. Pinning leaves no trace, a type of the base library
goes by its short name, and an array of one dimension shows none of its bounds. With `owners`
each type parameter names the type that declares it.
-/

namespace Monomorph

/-- The name under which a type appears in signatures. -/
def TypeRef.shownName (t : TypeRef) : String :=
  if t.corlib then t.name else t.fullName

/-- One dimension: nothing without a lower bound, else the lower bound and, after two dots, the
upper bound; a third dot stands for a size that is not known. -/
def dimension (size : Option Nat) : Option Int → String
  | none => ""
  | some lower =>
    Numeral.signed lower ++ ".." ++
      match size with
      | some n => Numeral.signed (lower + n - 1)
      | none => "."

/-- What stands between the brackets of an array of rank 2 or more. -/
def dimensions (rank : Nat) (sizes : List Nat) (lowerBounds : List Int) : String :=
  ",".intercalate ((List.range rank).map fun d => dimension sizes[d]? lowerBounds[d]?)

def arraySuffix (rank : Nat) (sizes : List Nat) (lowerBounds : List Int) : Except Error String :=
  match rank with
  | 0 => .error .zeroRankArray
  | 1 => .ok "[*]"
  | rank => .ok ("[" ++ dimensions rank sizes lowerBounds ++ "]")

def typeParamText (owners : Bool) (number : Nat) (owner : TypeRef) : String :=
  "!" ++ (if owners then "(" ++ owner.fullName ++ ")" else "") ++ Numeral.decimal number

namespace Sig

mutual

def render (owners : Bool) : Sig → Except Error String
  | .primitive p => .ok p.name
  | .classType t => .ok t.shownName
  | .valueType t => .ok t.shownName
  | .ptr next => (next.render owners).map (· ++ "*")
  | .byRef next => (next.render owners).map (· ++ "&")
  | .pinned next => next.render owners
  | .szArray next => (next.render owners).map (· ++ "[]")
  | .array element rank sizes lowerBounds =>
    match element.render owners with
    | .error e => .error e
    | .ok text => (arraySuffix rank sizes lowerBounds).map (text ++ ·)
  | .modReqd modifier next =>
    (next.render owners).map (· ++ " modreq(" ++ modifier.fullName ++ ")")
  | .modOpt modifier next =>
    (next.render owners).map (· ++ " modopt(" ++ modifier.fullName ++ ")")
  | .genericInst generic args =>
    match generic.render owners with
    | .error e => .error e
    | .ok text =>
      (renderEach owners args).map fun texts => text ++ "<" ++ ",".intercalate texts ++ ">"
  | .typeParam number owner => .ok (typeParamText owners number owner)
  | .methodParam number _ => .ok ("!!" ++ Numeral.decimal number)
  | .unsupported e => .error (.unsupportedElement e)

def renderEach (owners : Bool) : List Sig → Except Error (List String)
  | [] => .ok []
  | s :: rest =>
    match s.render owners with
    | .error e => .error e
    | .ok text => (renderEach owners rest).map (text :: ·)

end

def renderList (owners : Bool) (ss : List Sig) : Except Error String :=
  (renderEach owners ss).map (",".intercalate ·)

example : (array (.primitive .int32) 3 [3] [-1, 0]).render false =
    .ok "Int32[-1..1,0...,]" := rfl

example : (ptr (typeParam 0 ⟨7, "Demo", "Box", false⟩)).render true = .ok "!(Demo.Box)0*" := rfl

end Sig
end Monomorph
