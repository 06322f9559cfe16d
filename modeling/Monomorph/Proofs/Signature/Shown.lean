import Mathlib.Data.List.Forall2
import Monomorph.Proofs.Basic
import Monomorph.Signature.Render
import Monomorph.Text.Identifier

/-!
# Monomorph.Proofs.Signature.Shown

What the text of a signature shows.

`Sig.shown` is a signature reduced to what its text tells: pinning is gone, types are known by
their printed names alone, arrays of one dimension have lost their bounds and parameters their
owners. Signatures that show the same are `Sig.KeyEquivalent`.

* `Sig.toList_of_render`: the text of a signature is the text of what it shows.
* `Sig.legible_of_render`: a signature with a text and with plain names shows something legible.
-/

namespace Monomorph

/-- A name that is not empty and has characters of one kind only. -/
def Identifier.isNameOf (kind : Char → Bool) (s : String) : Bool :=
  !s.isEmpty && s.toList.all kind

/-- A name without characters that escaping would change. -/
def Identifier.isName (s : String) : Bool :=
  isNameOf isPlain s

/-- What is shown of one dimension: nothing, or its lower bound and its size, if that is known. -/
abbrev Extent := Option (Int × Option Nat)

/-- What is shown of the dimensions of an array. -/
inductive Brackets where
  /-- One dimension that starts at zero. -/
  | zeroBased
  /-- One dimension with any bounds. -/
  | anyBased
  | extents (es : List Extent)

/-- What stands behind the text of an element. -/
inductive Mark where
  | ptr
  | byRef
  | array (brackets : Brackets)
  | modReqd (name : String)
  | modOpt (name : String)

/-- What a text begins with. -/
inductive Leaf where
  | name (text : String)
  | typeParam (owner : Option String) (number : Nat)
  | methodParam (number : Nat)
  | unsupported (element : ElementType)

/-- What is shown of a signature. -/
inductive Shown where
  | leaf (l : Leaf)
  | marked (element : Shown) (m : Mark)
  | inst (generic : Shown) (args : List Shown)

namespace Sig

/-- What is shown of the dimensions of an array of some rank. -/
def brackets (rank : Nat) (sizes : List Nat) (lowerBounds : List Int) : Brackets :=
  match rank with
  | 1 => .anyBased
  | rank => .extents ((List.range rank).map fun d => lowerBounds[d]?.map fun l => (l, sizes[d]?))

mutual

/-- What the text of a signature shows; with `owners` the owners of type parameters too. -/
def shown (owners : Bool) : Sig → Shown
  | .primitive p => .leaf (.name p.name)
  | .classType t => .leaf (.name t.shownName)
  | .valueType t => .leaf (.name t.shownName)
  | .ptr next => .marked (next.shown owners) .ptr
  | .byRef next => .marked (next.shown owners) .byRef
  | .pinned next => next.shown owners
  | .szArray next => .marked (next.shown owners) (.array .zeroBased)
  | .array element rank sizes lowerBounds =>
    .marked (element.shown owners) (.array (brackets rank sizes lowerBounds))
  | .modReqd modifier next => .marked (next.shown owners) (.modReqd modifier.fullName)
  | .modOpt modifier next => .marked (next.shown owners) (.modOpt modifier.fullName)
  | .genericInst generic args => .inst (generic.shown owners) (shownEach owners args)
  | .typeParam number owner =>
    .leaf (.typeParam (if owners then some owner.fullName else none) number)
  | .methodParam number _ => .leaf (.methodParam number)
  | .unsupported e => .leaf (.unsupported e)

/-- What is shown of the signatures of a list. -/
def shownEach (owners : Bool) : List Sig → List Shown
  | [] => []
  | s :: rest => s.shown owners :: shownEach owners rest

end

theorem shownEach_eq_map (owners : Bool) (ss : List Sig) :
    shownEach owners ss = ss.map (shown owners) := by
  induction ss with
  | nil => rfl
  | cons s rest ih => rw [shownEach, ih, List.map_cons]

/-- The texts of two signatures show the same. -/
def KeyEquivalent (owners : Bool) (s t : Sig) : Prop :=
  s.shown owners = t.shown owners

theorem forall₂_keyEquivalent_iff {owners : Bool} {ss ts : List Sig} :
    List.Forall₂ (KeyEquivalent owners) ss ts ↔ shownEach owners ss = shownEach owners ts := by
  rw [shownEach_eq_map, shownEach_eq_map, ← List.forall₂_eq_eq_eq, List.forall₂_map_left_iff,
    List.forall₂_map_right_iff]
  rfl

mutual

/-- Whether the printed names of types, of modifiers and of owners are plain names. -/
def plainNames : Sig → Bool
  | .primitive _ => true
  | .classType t => Identifier.isName t.shownName
  | .valueType t => Identifier.isName t.shownName
  | .ptr next => next.plainNames
  | .byRef next => next.plainNames
  | .pinned next => next.plainNames
  | .szArray next => next.plainNames
  | .array element _ _ _ => element.plainNames
  | .modReqd modifier next => Identifier.isName modifier.fullName && next.plainNames
  | .modOpt modifier next => Identifier.isName modifier.fullName && next.plainNames
  | .genericInst generic args => generic.plainNames && allPlainNames args
  | .typeParam _ owner => Identifier.isName owner.fullName
  | .methodParam _ _ => true
  | .unsupported _ => true

/-- Whether all signatures of a list have plain names. -/
def allPlainNames : List Sig → Bool
  | [] => true
  | s :: rest => s.plainNames && allPlainNames rest

end

end Sig

/-! ## The text -/

def Extent.text : Extent → List Char
  | none => []
  | some (lower, size) => (dimension size (some lower)).toList

def Brackets.text : Brackets → List Char
  | zeroBased => []
  | anyBased => ['*']
  | extents es => [','].intercalate (es.map Extent.text)

def Mark.text : Mark → List Char
  | ptr => ['*']
  | byRef => ['&']
  | array b => '[' :: (b.text ++ [']'])
  | modReqd name => ' ' :: ("modreq(".toList ++ (name.toList ++ [')']))
  | modOpt name => ' ' :: ("modopt(".toList ++ (name.toList ++ [')']))

def Leaf.text : Leaf → List Char
  | name text => text.toList
  | typeParam none number => '!' :: (Numeral.decimal number).toList
  | typeParam (some owner) number =>
    '!' :: '(' :: (owner.toList ++ ')' :: (Numeral.decimal number).toList)
  | methodParam number => '!' :: '!' :: (Numeral.decimal number).toList
  | unsupported _ => []

namespace Shown

mutual

/-- The text of what is shown. -/
def text : Shown → List Char
  | .leaf l => l.text
  | .marked element m => element.text ++ m.text
  | .inst generic args => generic.text ++ '<' :: ([','].intercalate (textEach args) ++ ['>'])

def textEach : List Shown → List (List Char)
  | [] => []
  | a :: rest => a.text :: textEach rest

end

/-- The text of a list, separated by commas. -/
def listText (as : List Shown) : List Char :=
  [','].intercalate (textEach as)

end Shown

theorem dimension_none (size : Option Nat) : (dimension size none).toList = [] := rfl

theorem toList_dimensions (rank : Nat) (sizes : List Nat) (lowerBounds : List Int) :
    (dimensions rank sizes lowerBounds).toList = [','].intercalate (((List.range rank).map
      fun d => lowerBounds[d]?.map fun l => (l, sizes[d]?)).map Extent.text) := by
  rw [dimensions, String.toList_intercalate, List.map_map, List.map_map]
  congr 1
  apply List.map_congr_left
  intro d _
  simp only [Function.comp]
  cases lowerBounds[d]? with
  | none => exact dimension_none _
  | some l => rfl

theorem toList_of_arraySuffix {rank : Nat} {sizes : List Nat} {lowerBounds : List Int} {x : String}
    (h : arraySuffix rank sizes lowerBounds = .ok x) :
    x.toList = (Mark.array (Sig.brackets rank sizes lowerBounds)).text := by
  unfold arraySuffix at h
  split at h
  · cases h
  · cases h
    rfl
  · rename_i h1
    cases h
    rw [Sig.brackets]
    · rw [String.toList_append, String.toList_append, toList_dimensions]
      rfl
    · exact h1

theorem toList_typeParamText (owners : Bool) (number : Nat) (owner : TypeRef) :
    (typeParamText owners number owner).toList =
      (Leaf.typeParam (if owners then some owner.fullName else none) number).text := by
  cases owners <;> simp [typeParamText, Leaf.text]

namespace Sig

mutual

theorem toList_of_render {owners : Bool} (s : Sig) {x : String} (h : s.render owners = .ok x) :
    x.toList = (s.shown owners).text := by
  cases s with
  | primitive p =>
    rw [render, Except.ok.injEq] at h
    rw [← h, shown, Shown.text, Leaf.text]
  | classType t =>
    rw [render, Except.ok.injEq] at h
    rw [← h, shown, Shown.text, Leaf.text]
  | valueType t =>
    rw [render, Except.ok.injEq] at h
    rw [← h, shown, Shown.text, Leaf.text]
  | ptr next =>
    rw [render] at h
    obtain ⟨y, hy, rfl⟩ := exists_of_map_ok h
    rw [String.toList_append, toList_of_render _ hy]
    rfl
  | byRef next =>
    rw [render] at h
    obtain ⟨y, hy, rfl⟩ := exists_of_map_ok h
    rw [String.toList_append, toList_of_render _ hy]
    rfl
  | pinned next =>
    rw [render] at h
    exact toList_of_render next h
  | szArray next =>
    rw [render] at h
    obtain ⟨y, hy, rfl⟩ := exists_of_map_ok h
    rw [String.toList_append, toList_of_render _ hy]
    rfl
  | array element rank sizes lowerBounds =>
    rw [render] at h
    split at h
    · cases h
    · rename_i y hy
      obtain ⟨z, hz, rfl⟩ := exists_of_map_ok h
      rw [String.toList_append, toList_of_render _ hy, toList_of_arraySuffix hz]
      rfl
  | modReqd modifier next =>
    rw [render] at h
    obtain ⟨y, hy, rfl⟩ := exists_of_map_ok h
    rw [String.toList_append, String.toList_append, String.toList_append, toList_of_render _ hy,
      List.append_assoc, List.append_assoc]
    rfl
  | modOpt modifier next =>
    rw [render] at h
    obtain ⟨y, hy, rfl⟩ := exists_of_map_ok h
    rw [String.toList_append, String.toList_append, String.toList_append, toList_of_render _ hy,
      List.append_assoc, List.append_assoc]
    rfl
  | genericInst generic args =>
    rw [render] at h
    split at h
    · cases h
    · rename_i y hy
      obtain ⟨ys, hys, rfl⟩ := exists_of_map_ok h
      simp [toList_of_render _ hy, toList_of_renderEach _ hys, shown, Shown.text,
        String.toList_intercalate]
  | typeParam number owner =>
    rw [render, Except.ok.injEq] at h
    rw [← h, toList_typeParamText, shown, Shown.text]
  | methodParam number owner =>
    rw [render, Except.ok.injEq] at h
    simp [← h, shown, Shown.text, Leaf.text]
  | unsupported e =>
    rw [render] at h
    cases h

theorem toList_of_renderEach {owners : Bool} (ss : List Sig) {xs : List String}
    (h : renderEach owners ss = .ok xs) :
    xs.map String.toList = Shown.textEach (shownEach owners ss) := by
  cases ss with
  | nil =>
    cases h
    rfl
  | cons s rest =>
    rw [renderEach] at h
    split at h
    · cases h
    · rename_i y hy
      obtain ⟨ys, hys, rfl⟩ := exists_of_map_ok h
      rw [List.map_cons, toList_of_render _ hy, toList_of_renderEach _ hys]
      rfl

end

end Sig

/-! ## Legible texts -/

def Leaf.Legible : Leaf → Prop
  | name text => Identifier.isName text = true
  | typeParam none _ => True
  | typeParam (some owner) _ => Identifier.isName owner = true
  | methodParam _ => True
  | unsupported _ => False

def Mark.Legible : Mark → Prop
  | ptr => True
  | byRef => True
  | array (.extents es) => 2 ≤ es.length
  | array _ => True
  | modReqd name => Identifier.isName name = true
  | modOpt name => Identifier.isName name = true

/-- What a text may be made of: leaves, marks, and the characters that its names have. -/
structure Script where
  nameChar : Char → Bool
  leaf : Leaf → Prop
  mark : Mark → Prop

/-- All leaves and marks with plain names. -/
def Script.plain : Script :=
  ⟨Identifier.isPlain, Leaf.Legible, Mark.Legible⟩

namespace Shown

mutual

/-- Every part of the text is in the script. -/
def Legible (S : Script) : Shown → Prop
  | .leaf l => S.leaf l
  | .marked element m => element.Legible S ∧ S.mark m
  | .inst generic args => generic.Legible S ∧ EachLegible S args

def EachLegible (S : Script) : List Shown → Prop
  | [] => True
  | a :: rest => a.Legible S ∧ EachLegible S rest

end

end Shown

theorem legible_of_arraySuffix {rank : Nat} {sizes : List Nat} {lowerBounds : List Int} {x : String}
    (h : arraySuffix rank sizes lowerBounds = .ok x) :
    (Mark.array (Sig.brackets rank sizes lowerBounds)).Legible := by
  unfold arraySuffix at h
  split at h
  · cases h
  · trivial
  · rename_i h0 h1
    rw [Sig.brackets]
    · rw [Mark.Legible, List.length_map, List.length_range]
      have : rank ≠ 0 := fun e => h0 e
      have : rank ≠ 1 := fun e => h1 e
      omega
    · exact h1

theorem isName_primitive (p : Primitive) : Identifier.isName p.name = true := by
  cases p <;> decide

namespace Sig

mutual

theorem legible_of_render {owners : Bool} (s : Sig) {x : String} (h : s.render owners = .ok x)
    (hp : s.plainNames = true) : (s.shown owners).Legible .plain := by
  cases s with
  | primitive p => exact isName_primitive p
  | classType t => exact hp
  | valueType t => exact hp
  | ptr next =>
    rw [render] at h
    obtain ⟨y, hy, _⟩ := exists_of_map_ok h
    exact ⟨legible_of_render next hy hp, trivial⟩
  | byRef next =>
    rw [render] at h
    obtain ⟨y, hy, _⟩ := exists_of_map_ok h
    exact ⟨legible_of_render next hy hp, trivial⟩
  | pinned next =>
    rw [render] at h
    exact legible_of_render next h hp
  | szArray next =>
    rw [render] at h
    obtain ⟨y, hy, _⟩ := exists_of_map_ok h
    exact ⟨legible_of_render next hy hp, trivial⟩
  | array element rank sizes lowerBounds =>
    rw [render] at h
    split at h
    · cases h
    · rename_i y hy
      obtain ⟨z, hz, _⟩ := exists_of_map_ok h
      exact ⟨legible_of_render element hy hp, legible_of_arraySuffix hz⟩
  | modReqd modifier next =>
    rw [render] at h
    rw [plainNames, Bool.and_eq_true] at hp
    obtain ⟨y, hy, _⟩ := exists_of_map_ok h
    exact ⟨legible_of_render next hy hp.2, hp.1⟩
  | modOpt modifier next =>
    rw [render] at h
    rw [plainNames, Bool.and_eq_true] at hp
    obtain ⟨y, hy, _⟩ := exists_of_map_ok h
    exact ⟨legible_of_render next hy hp.2, hp.1⟩
  | genericInst generic args =>
    rw [render] at h
    rw [plainNames, Bool.and_eq_true] at hp
    split at h
    · cases h
    · rename_i y hy
      obtain ⟨ys, hys, _⟩ := exists_of_map_ok h
      exact ⟨legible_of_render generic hy hp.1, legible_of_renderEach args hys hp.2⟩
  | typeParam number owner =>
    cases owners with
    | false => trivial
    | true => exact hp
  | methodParam number owner => trivial
  | unsupported e =>
    rw [render] at h
    cases h

theorem legible_of_renderEach {owners : Bool} (ss : List Sig) {xs : List String}
    (h : renderEach owners ss = .ok xs) (hp : allPlainNames ss = true) :
    Shown.EachLegible .plain (shownEach owners ss) := by
  cases ss with
  | nil => trivial
  | cons s rest =>
    rw [renderEach] at h
    rw [allPlainNames, Bool.and_eq_true] at hp
    split at h
    · cases h
    · rename_i y hy
      obtain ⟨ys, hys, _⟩ := exists_of_map_ok h
      exact ⟨legible_of_render s hy hp.1, legible_of_renderEach rest hys hp.2⟩

end

end Sig
end Monomorph
