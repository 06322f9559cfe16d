import Monomorph.Signature.Basic
import Monomorph.Text.Numeral

/-!
# Monomorph.Error

What can go wrong, one constructor for each cause, and the text that reports it. The causes fall
into three areas, each of which has its own opening words; three causes are reported by the
outermost layer in its own words and have no text here.
-/

namespace Monomorph

inductive ParamLevel where
  | type
  | method
  deriving DecidableEq

def ParamLevel.mark : ParamLevel → String
  | .type => "!"
  | .method => "!!"

inductive Error where
  | unsupportedElement (element : ElementType)
  | zeroRankArray
  | methodParamInTypeArgs (number : Nat)
  /-- A generic parameter has no argument among the `count` that are given. -/
  | argOutOfRange (level : ParamLevel) (number : Nat) (count : Nat)
  /-- A method takes a receiver and is static, or neither. -/
  | receiverMismatch (method : String)
  | declaringTypeMismatch (method type : String)
  | argCountMismatch (name : String) (expected found : Nat)
  | notConcretized (method : String)
  | alreadyConcretized (method : String)
  | unknownType (name : String)
  | duplicateType (name : String)
  | unknownMethod (type method : String)
  | ambiguousMethod (type method : String)
  | unknownField (type field : String)
  /-- A type parameter without an owner stands outside every type. -/
  | typeParamWithoutOwner (number : Nat)
  /-- A method parameter stands outside every method. -/
  | methodParamOutsideMethod (number : Nat)
  /-- The text of a snapshot stops making sense on that line. -/
  | malformed (line : Nat)
  | unreadable
  /-- An identifier or an index lies outside its table. -/
  | outsideTable
  deriving DecidableEq

namespace Error

inductive Area where
  | signature
  | instantiation
  | metadata
  | outer
  deriving DecidableEq

def Area.opening : Area → String
  | .signature => "シグネチャエラー: "
  | .instantiation => "インスタンス化エラー: "
  | .metadata => "メタデータエラー: "
  | .outer => ""

def area : Error → Area
  | unsupportedElement _ => .signature
  | zeroRankArray => .signature
  | methodParamInTypeArgs _ => .signature
  | argOutOfRange .. => .signature
  | receiverMismatch _ => .instantiation
  | declaringTypeMismatch .. => .instantiation
  | argCountMismatch .. => .instantiation
  | notConcretized _ => .instantiation
  | alreadyConcretized _ => .instantiation
  | unknownType _ => .metadata
  | duplicateType _ => .metadata
  | unknownMethod .. => .metadata
  | ambiguousMethod .. => .metadata
  | unknownField .. => .metadata
  | typeParamWithoutOwner _ => .metadata
  | methodParamOutsideMethod _ => .metadata
  | malformed _ => .outer
  | unreadable => .outer
  | outsideTable => .outer

def detail : Error → String
  | unsupportedElement e => "未対応の要素型: " ++ e.name
  | zeroRankArray => "ランク0の配列シグネチャは不正です"
  | methodParamInTypeArgs n =>
    "型引数リストにメソッドジェネリック引数 !!" ++ Numeral.decimal n ++ " が含まれています"
  | argOutOfRange level n count =>
    "ジェネリック引数 " ++ level.mark ++ Numeral.decimal n ++ " が範囲外です: 引数は" ++
      Numeral.decimal count ++ "個しかありません"
  | receiverMismatch method =>
    "メソッド " ++ method ++ " のHasThisフラグとstatic属性が一致しません"
  | declaringTypeMismatch method type =>
    "メソッド " ++ method ++ " は型 " ++ type ++ " に属していません"
  | argCountMismatch name expected found =>
    name ++ " のジェネリック引数の数が一致しません: " ++ Numeral.decimal expected ++
      "個を期待しましたが、" ++ Numeral.decimal found ++ "個が見つかりました"
  | notConcretized method => "メソッド " ++ method ++ " はまだ具体化されていません"
  | alreadyConcretized method => "メソッド " ++ method ++ " は既に具体化されています"
  | unknownType name => "未定義の型: " ++ name
  | duplicateType name => "型 " ++ name ++ " が重複して定義されています"
  | unknownMethod type method => "メソッド " ++ method ++ " が型 " ++ type ++ " に見つかりません"
  | ambiguousMethod type method =>
    "メソッド " ++ method ++ " は型 " ++ type ++ " に複数定義されています"
  | unknownField type field => "フィールド " ++ field ++ " が型 " ++ type ++ " に見つかりません"
  | typeParamWithoutOwner n =>
    "型ジェネリック引数 !" ++ Numeral.decimal n ++ " の所有者が指定されていません"
  | methodParamOutsideMethod n =>
    "メソッド外でメソッドジェネリック引数 !!" ++ Numeral.decimal n ++ " が使われています"
  | malformed _ => ""
  | unreadable => ""
  | outsideTable => ""

def message (e : Error) : String :=
  e.area.opening ++ e.detail

end Error
end Monomorph
