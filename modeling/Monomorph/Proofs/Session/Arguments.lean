import Monomorph.Proofs.Session.Identity
import Monomorph.Proofs.Signature.Printed

/-!
# Monomorph.Proofs.Session.Arguments

Which arguments of one type get the same record.

The key of a type prints its arguments, and a leaf of an argument prints as a name alone: a type of
the base library as its short name, any other as its full name, and neither escaped. So arguments
that differ may print the same, and then they get one record (`clash_of_printedNames`): two types of
the base library with one short name, a type of the base library that is named like a primitive, and
a type whose name looks like an instance of another.

* `same_record_iff_same_args`: arguments that are made of definitions, whose printed names end where
  the text goes on, get the same record iff they show the same, and where short names are apart iff
  they are equal.
-/

namespace Monomorph

/-- No type of the base library prints like another type, and no type like a primitive. -/
structure ShortNamesApart (types : List TypeDef) : Prop where
  type : ∀ t ∈ types, t.corlib = true → ∀ u ∈ types, t.toRef.shownName = u.toRef.shownName → t = u
  primitive : ∀ t ∈ types, ∀ p : Primitive, t.toRef.shownName ≠ p.name

theorem TypeDef.shownName_of_not_corlib {t : TypeDef} (h : t.corlib = false) :
    t.toRef.shownName = t.fullName := by
  have hc : t.toRef.corlib = false := h
  simp [TypeRef.shownName, hc]

/-- Other types print their full names, which differ. -/
theorem Metadata.Indexed.distinguished {m : Metadata} (hm : m.Indexed) {types : List TypeDef}
    (h : ∀ t ∈ types, t ∈ m.types) (hs : ShortNamesApart types) : Distinguished types := by
  refine ⟨?_, hs.primitive⟩
  intro t ht u hu he
  cases hct : t.corlib with
  | true => exact hs.type t ht hct u hu he
  | false =>
    cases hcu : u.corlib with
    | true => exact (hs.type u hu hcu t ht he.symm).symm
    | false =>
      rw [TypeDef.shownName_of_not_corlib hct, TypeDef.shownName_of_not_corlib hcu] at he
      exact List.inj_on_of_nodup_map hm.fullNames (h t ht) (h u hu) he

namespace Session

variable {calls : List Call}

/-- The definition and the key of a request, as they are at the end of the run. -/
theorem Answers.keyAfter {i : Nat} {type : TypeDefId} {args : List Sig} {id : TypeInstanceId}
    (h : Answers calls i (.resolveType type args) (.published id)) :
    ∃ d key, (after calls).metadata.typeDef type = .ok d ∧ args.length = d.genericParams ∧
      Key.ofType d.fullName args = .ok key ∧
      (after calls).catalog.types.keys[id]? = some key := by
  obtain ⟨t, hp, hg⟩ := h.performed
  cases hp with
  | type hf _ hk he =>
    have hf := Metadata.freshType_mono (grows_before calls i).metadata hf
    obtain ⟨d, hd, hf⟩ := exists_of_bind_ok hf
    have hl := TypeInstance.length_of_make hf
    obtain rfl := TypeInstance.make_ok hf
    exact ⟨d, _, hd, hl, hk, hg.catalog.typeKey he.getElem?_keys⟩

/-- Arguments that are made of definitions with separable names get the same record iff they show the
same. If the short names are apart, that means that they are equal. -/
theorem same_record_iff_same_args (calls : List Call) {i j : Nat} {type : TypeDefId}
    {args args' : List Sig} {id id' : TypeInstanceId} {types : List TypeDef}
    (h : Answers calls i (.resolveType type args) (.published id))
    (h' : Answers calls j (.resolveType type args') (.published id'))
    (htypes : ∀ t ∈ types, t ∈ (after calls).metadata.types)
    (hnames : ∀ t ∈ types, Identifier.isSeparable t.toRef.shownName = true)
    (ha : ∀ a ∈ args, a.BuiltFrom types) (ha' : ∀ a ∈ args', a.BuiltFrom types) :
    (id = id' ↔ List.Forall₂ (Sig.KeyEquivalent true) args args') ∧
      (ShortNamesApart types → (id = id' ↔ args = args')) := by
  have hc := coherent_after calls
  obtain ⟨d, key, hd, hl, hk, hx⟩ := h.keyAfter
  obtain ⟨d', key', hd', hl', hk', hx'⟩ := h'.keyAfter
  rw [hd] at hd'
  cases hd'
  have hid : id = id' ↔ List.Forall₂ (Sig.KeyEquivalent true) args args' := by
    rw [position_inj hc.typeKeys hx hx']
    exact Key.ofType_eq_iff Script.bare_readable hk hk' (hl.trans hl'.symm)
      (Sig.eachLegible_of_forall fun a hm => (ha a hm).legible hnames true)
      (Sig.eachLegible_of_forall fun a hm => (ha' a hm).legible hnames true)
  refine ⟨hid, ?_⟩
  intro hs
  have hdist := hc.indexed.distinguished htypes hs
  rw [hid, Sig.forall₂_keyEquivalent_iff]
  constructor
  · intro he
    exact Sig.eq_of_shownEach (fun a hm b hn => (ha a hm).eq_of_shown hdist (ha' b hn)) he
  · rintro rfl
    rfl

/-- Different arguments of the first type, made of definitions of the run, get one record. -/
def Clash (calls : List Call) (args args' : List Sig) : Prop :=
  args ≠ args' ∧ (∀ a ∈ args ++ args', a.BuiltFrom (after calls).metadata.types) ∧
    ∃ i j id, Answers calls i (.resolveType 0 args) (.published id) ∧
      Answers calls j (.resolveType 0 args') (.published id)

/-- Two types of the base library with one short name, a third one that is printed like a
primitive, and a type whose name looks like an instance of another. -/
def clashCalls : List Call :=
  [.addType "Demo" "Box" 1 false false, .addType "System.Threading" "Timer" 0 true false,
    .addType "System.Timers" "Timer" 0 true false, .addType "System" "Int32" 0 true true,
    .addType "Demo" "Box<Int32>" 0 false false,
    .resolveType 0 [.classType ⟨1, "System.Threading", "Timer", true⟩],
    .resolveType 0 [.classType ⟨2, "System.Timers", "Timer", true⟩],
    .resolveType 0 [.primitive .int32], .resolveType 0 [.valueType ⟨3, "System", "Int32", true⟩],
    .resolveType 0 [.genericInst (.classType ⟨0, "Demo", "Box", false⟩) [.primitive .int32]],
    .resolveType 0 [.classType ⟨4, "Demo", "Box<Int32>", false⟩]]

/-- The arguments of each pair are printed alike, so the second gets the record of the first. -/
theorem clash_of_printedNames :
    Clash clashCalls [.classType ⟨1, "System.Threading", "Timer", true⟩]
        [.classType ⟨2, "System.Timers", "Timer", true⟩] ∧
      Clash clashCalls [.primitive .int32] [.valueType ⟨3, "System", "Int32", true⟩] ∧
      Clash clashCalls
        [.genericInst (.classType ⟨0, "Demo", "Box", false⟩) [.primitive .int32]]
        [.classType ⟨4, "Demo", "Box<Int32>", false⟩] := by
  have htype {t : TypeDef} (ht : t ∈ (after clashCalls).metadata.types) :
      t.sig.BuiltFrom (after clashCalls).metadata.types := .type ht
  have box : ⟨0, "Demo", "Box", false, false, 1, [], []⟩ ∈ (after clashCalls).metadata.types := by
    decide
  have threading : ⟨1, "System.Threading", "Timer", true, false, 0, [], []⟩ ∈
      (after clashCalls).metadata.types := by
    decide
  have timers : ⟨2, "System.Timers", "Timer", true, false, 0, [], []⟩ ∈
      (after clashCalls).metadata.types := by
    decide
  have int32 : ⟨3, "System", "Int32", true, true, 0, [], []⟩ ∈
      (after clashCalls).metadata.types := by
    decide
  have named : ⟨4, "Demo", "Box<Int32>", false, false, 0, [], []⟩ ∈
      (after clashCalls).metadata.types := by
    decide
  refine ⟨⟨by simp, ?_, 5, 6, 0, ⟨rfl, _, rfl⟩, ⟨rfl, _, rfl⟩⟩,
    ⟨by simp, ?_, 7, 8, 1, ⟨rfl, _, rfl⟩, ⟨rfl, _, rfl⟩⟩,
    ⟨by simp, ?_, 9, 10, 2, ⟨rfl, _, rfl⟩, ⟨rfl, _, rfl⟩⟩⟩
  · simpa using ⟨htype threading, htype timers⟩
  · simpa using ⟨.primitive _, htype int32⟩
  · simpa using ⟨.inst box (by simpa using .primitive _), htype named⟩

/-- One timer and a box have names of their own, so the records differ. -/
theorem same_record_iff_same_args_boxes :
    ¬List.Forall₂ (Sig.KeyEquivalent true)
        [.classType ⟨1, "System.Threading", "Timer", true⟩]
        [.genericInst (.classType ⟨0, "Demo", "Box", false⟩) [.primitive .int32]] ∧
      ((0 : TypeInstanceId) = 2 ↔ [Sig.classType ⟨1, "System.Threading", "Timer", true⟩] =
        [.genericInst (.classType ⟨0, "Demo", "Box", false⟩) [.primitive .int32]]) := by
  have h : Answers clashCalls 5 (.resolveType 0 [.classType ⟨1, "System.Threading", "Timer", true⟩])
      (.published 0) := ⟨rfl, _, rfl⟩
  have h' : Answers clashCalls 9 (.resolveType 0
      [.genericInst (.classType ⟨0, "Demo", "Box", false⟩) [.primitive .int32]])
      (.published 2) := ⟨rfl, _, rfl⟩
  let box : TypeDef := ⟨0, "Demo", "Box", false, false, 1, [], []⟩
  let timer : TypeDef := ⟨1, "System.Threading", "Timer", true, false, 0, [], []⟩
  have hbox : Sig.BuiltFrom [box, timer] (.genericInst box.sig [.primitive .int32]) :=
    .inst (by simp) (by simpa using .primitive _)
  have htimer : Sig.BuiltFrom [box, timer] timer.sig := .type (by simp)
  have hnames : ∀ t ∈ [box, timer], Identifier.isSeparable t.toRef.shownName = true := by decide
  have hs : ShortNamesApart [box, timer] := by
    refine ⟨by decide, ?_⟩
    intro t ht p
    simp only [List.mem_cons, List.not_mem_nil, or_false] at ht
    rcases ht with rfl | rfl <;> cases p <;> decide
  obtain ⟨hshown, hargs⟩ := same_record_iff_same_args clashCalls h h' (by decide) hnames
    (List.forall_mem_singleton.2 htimer) (List.forall_mem_singleton.2 hbox)
  refine ⟨?_, hargs hs⟩
  intro he
  exact absurd (hshown.2 he) (by decide)

end Session
end Monomorph
