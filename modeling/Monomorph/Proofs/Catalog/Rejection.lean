import Monomorph.Catalog
import Monomorph.Proofs.Signature.Concreteness

/-!
# Monomorph.Proofs.Catalog.Rejection

Parameters of methods among the type arguments of a request.

* `resolveType_eq`: if the number of arguments fits, whether they are concrete comes first.
* `refused_iff_first`: so a request with a parameter of a method among its arguments is refused,
  unless a parameter of a type is met before it. Then it is only left without an answer.
* `pair_unanswered`: such a request.
-/

namespace Monomorph
namespace Catalog

open Sig (MeetMethodParam TypeParamFirst Rejected Rearranged)

section Requests

variable {c : Catalog} {m : Metadata} {type : TypeDefId} {d : TypeDef} {args : List Sig}

theorem resolveType_eq (hd : m.typeDef type = .ok d) (hn : args.length = d.genericParams) :
    c.resolveType m type args = Sig.areConcrete args >>= fun concrete =>
      if concrete then
        (Key.ofType d.fullName args).map fun key =>
          let (c, id) := c.publishType key ⟨d.toRef, d.valueType, args⟩
          (c, some id)
      else .ok (c, none) := by
  have hi : TypeInstance.make d args = .ok ⟨d.toRef, d.valueType, args⟩ := by
    rw [TypeInstance.make, if_pos hn]
  rw [resolveType, hd]
  show (TypeInstance.make d args >>= _) = _
  rw [hi]
  rfl

/-- A request whose arguments are refused is refused. -/
theorem resolveType_of_rejected (hd : m.typeDef type = .ok d)
    (hn : args.length = d.genericParams) (h : Rejected args) :
    ∃ number, c.resolveType m type args = .error (.methodParamInTypeArgs number) := by
  obtain ⟨number, h⟩ := h
  refine ⟨number, ?_⟩
  rw [resolveType_eq hd hn, h]
  rfl

/-- A request that meets a parameter of a type first is left without an answer. -/
theorem resolveType_of_typeParamFirst (hd : m.typeDef type = .ok d)
    (hn : args.length = d.genericParams) (h : TypeParamFirst args) :
    c.resolveType m type args = .ok (c, none) := by
  rw [resolveType_eq hd hn, Sig.areConcrete_of_typeParamFirst h]
  rfl

end Requests

/-- A list of type arguments, in any order, is refused iff a parameter of a method is met and none
of a type is the first. So the order matters iff an argument that is refused stands beside one that
is open, and a request with a parameter of a method is refused or left without an answer. -/
theorem refused_iff_first (args : List Sig) :
    (∀ args', Rearranged args args' →
      (Rejected args' ↔ MeetMethodParam args ∧ ¬TypeParamFirst args')) ∧
    ((∀ args', args'.Perm args → (Rejected args' ↔ Rejected args)) ↔
      ¬((∃ s ∈ args, Rejected [s]) ∧ ∃ s ∈ args, s.isConcrete = .ok false)) ∧
    ∀ (c : Catalog) (m : Metadata) (type : TypeDefId) (d : TypeDef),
      m.typeDef type = .ok d → args.length = d.genericParams → MeetMethodParam args →
      (c.resolveType m type args = .ok (c, none) ↔ TypeParamFirst args) ∧
      ((∃ number, c.resolveType m type args = .error (.methodParamInTypeArgs number)) ↔
        ¬TypeParamFirst args) := by
  refine ⟨fun args' => Sig.rejected_iff_of_rearranged, Sig.rejected_perm_iff args, ?_⟩
  intro c m type d hd hn hm
  by_cases hf : TypeParamFirst args
  · have h := resolveType_of_typeParamFirst (c := c) hd hn hf
    refine ⟨iff_of_true h hf, iff_of_false ?_ (not_not_intro hf)⟩
    rintro ⟨number, he⟩
    rw [h] at he
    cases he
  · obtain ⟨number, h⟩ :=
      resolveType_of_rejected (c := c) hd hn ((Sig.rejected_iff args).2 ⟨hm, hf⟩)
    refine ⟨iff_of_false ?_ hf, iff_of_true ⟨number, h⟩ hf⟩
    intro he
    rw [h] at he
    cases he

/-! ## A pair -/

def pair : TypeDef :=
  ⟨0, "Demo", "Pair", false, false, 2, [], []⟩

/-- A parameter of the pair itself and one of a method. -/
def pairArgs : List Sig :=
  [.typeParam 0 pair.toRef, .methodParam 0 0]

theorem refused_iff_first_pair :
    (¬Rejected pairArgs ∧ Rejected pairArgs.reverse) ∧
    (¬∀ ts, ts.Perm pairArgs → (Rejected ts ↔ Rejected pairArgs)) ∧
    empty.resolveType ⟨[pair], []⟩ 0 pairArgs = .ok (empty, none) := by
  have hm : MeetMethodParam pairArgs := ⟨.methodParam 0 0, by simp [pairArgs], 0, 0, .self _⟩
  have hf : TypeParamFirst pairArgs := ⟨0, pair.toRef, [.methodParam 0 0], rfl⟩
  have hperm : Rearranged pairArgs pairArgs.reverse :=
    ⟨pairArgs, .cons (.refl _) (.cons (.refl _) .nil), (List.reverse_perm _).symm⟩
  have hself : Rearranged pairArgs pairArgs :=
    ⟨pairArgs, .cons (.refl _) (.cons (.refl _) .nil), .refl _⟩
  refine ⟨⟨?_, ?_⟩, ?_, ?_⟩
  · intro h
    exact (((refused_iff_first pairArgs).1 pairArgs hself).1 h).2 hf
  · refine ((refused_iff_first pairArgs).1 pairArgs.reverse hperm).2 ⟨hm, ?_⟩
    rintro ⟨number, owner, rest, h⟩
    cases h
  · intro h
    exact (refused_iff_first pairArgs).2.1.1 h
      ⟨⟨.methodParam 0 0, by simp [pairArgs], 0, rfl⟩, .typeParam 0 pair.toRef, by simp [pairArgs],
        rfl⟩
  · exact ((refused_iff_first pairArgs).2.2 empty ⟨[pair], []⟩ 0 pair rfl rfl hm).1.2 hf

/-- The parameter of a method comes too late to be refused: the list just does not count as
concrete, while in the other order it is refused. -/
theorem pair_unanswered :
    MeetMethodParam pairArgs ∧ Sig.areConcrete pairArgs = .ok false ∧
      Sig.areConcrete pairArgs.reverse = .error (.methodParamInTypeArgs 0) ∧
      empty.resolveType ⟨[pair], []⟩ 0 pairArgs = .ok (empty, none) :=
  ⟨⟨.methodParam 0 0, by simp [pairArgs], 0, 0, .self _⟩, rfl, rfl, rfl⟩

end Catalog
end Monomorph
