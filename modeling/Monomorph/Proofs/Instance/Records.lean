import Monomorph.Proofs.Instance.Key
import Monomorph.Proofs.Report
import Monomorph.Proofs.Signature.Outline

/-!
# Monomorph.Proofs.Instance.Records

The records of methods, apart from any catalog, and the keys that can be written for them.

* `Arises.concreteSig`: whatever happens to a record, its concrete signature is its own.
* `texts_under_substitution`: writing a signature commutes with substituting it; so a record whose
  concretized key can be written has all its keys.
-/

namespace Monomorph
namespace MethodInstance

/-- The record was made for a method and has gone through any operations since. -/
inductive Arises : MethodInstance → Prop where
  | made {owner : TypeInstance} {d : MethodDef} {args : List Sig} {i : MethodInstance} :
      make owner d args = .ok i → Arises i
  | concretized {i j : MethodInstance} : Arises i → i.concretize = .ok j → Arises j
  | overridden {i : MethodInstance} (target : MethodInstanceId) :
      Arises i → Arises (i.addOverride target).1
  | marked {i : MethodInstance} (processed skipped : Bool) :
      Arises i → Arises { i with processed := processed, skipped := skipped }

variable {i : MethodInstance}

/-- The concrete signature of a record is the one that its definition and arguments have. -/
theorem Arises.concreteSig (h : i.Arises) : ∀ c, i.concrete = some c → i.concreteSig = .ok c := by
  induction h with
  | made h =>
    intro c hc
    rw [make_ok h] at hc
    cases hc
  | concretized _ h ih =>
    intro c hc
    rw [concretize] at h
    split at h
    · cases h
    · obtain ⟨c', hc', rfl⟩ := exists_of_map_ok h
      cases hc
      exact hc'
  | overridden target _ ih =>
    intro c hc
    rw [addOverride] at hc ⊢
    split at hc
    · rename_i hmem
      rw [if_pos hmem]
      exact ih c hc
    · rename_i hmem
      rw [if_neg hmem]
      exact ih c hc
  | marked processed skipped _ ih => exact ih

/-- A record whose concretized key can be written has all its keys. -/
theorem Arises.exists_keys {key : String} (h : i.Arises) (hk : i.concretizedKey = .ok key) :
    (∃ key, i.declaredKey = .ok key) ∧ ∃ key, i.definition.signatureKey = .ok key := by
  obtain ⟨c, hc⟩ : ∃ c, i.concrete = some c := by
    cases hc : i.concrete with
    | some c => exact ⟨c, rfl⟩
    | none =>
      rw [concretizedKey, hc] at hk
      cases hk
  obtain ⟨declared, hd⟩ := exists_declaredKey (h.concreteSig c hc) hc hk
  exact ⟨⟨declared, hd⟩, exists_signatureKey hd⟩

/-- After a substitution a signature can be written iff it can be before, with all arguments that
are put in, and its text is the same with the texts of these in the places of their parameters.
So a record whose concretized key can be written has all its keys. -/
theorem texts_under_substitution :
    (∀ (owners : Bool) (b : Binding) (s t : Sig), s.substitute b = .ok t →
      (t.HasText owners ↔
        s.HasText owners ∧ ∀ x ∈ s.params, b.Covers x → (b.put x).HasText owners) ∧
      (s.outline owners).filterMap Piece.param? = s.params ∧
      s.render owners = Piece.fill (Sig.render owners) (s.outline owners) ∧
      t.render owners = Piece.fill (fun x => (b.put x).render owners) (s.outline owners)) ∧
    ∀ (i : MethodInstance) (key : String), i.Arises → i.concretizedKey = .ok key →
      (∃ key, i.declaredKey = .ok key) ∧ ∃ key, i.definition.signatureKey = .ok key := by
  refine ⟨?_, fun i key h hk => h.exists_keys hk⟩
  intro owners b s t h
  exact ⟨Sig.hasText_of_substitute_iff h, Sig.filterMap_outline owners s,
    Sig.render_eq_fill owners s, Sig.render_of_substitute h⟩

def leafRef : TypeRef :=
  ⟨2, "Demo", "Leaf", false⟩

/-- The instance `Demo.Map<key, value>`. -/
def mapOf (key value : Sig) : Sig :=
  .genericInst (.classType ⟨1, "Demo", "Map", false⟩) [key, value]

/-- A map from the parameter of a type to arrays of that of another, and a method of a box. -/
theorem texts_under_substitution_map :
    (∃ t, (mapOf (.typeParam 0 boxInstance.type) (.szArray (.typeParam 1 leafRef))).substitute
        (.ofType 0 [.ptr (.primitive .int32)]) = .ok t ∧
      t.render true = .ok "Demo.Map<Int32*,!(Demo.Leaf)1[]>") ∧
    (mapInstance (.primitive .string)).Arises ∧
    (∃ key, (mapInstance (.primitive .string)).declaredKey = .ok key) ∧
    ∃ key, mapDef.signatureKey = .ok key := by
  have hmade : make boxInstance mapDef [.primitive .string] =
      .ok ⟨boxInstance, mapDef, [.primitive .string], none, [], false, false⟩ := rfl
  have harises : (mapInstance (.primitive .string)).Arises := .concretized (.made hmade) rfl
  refine ⟨⟨_, rfl, ?_⟩, harises, texts_under_substitution.2 _ _ harises rfl⟩
  exact (texts_under_substitution.1 true (.ofType 0 [.ptr (.primitive .int32)])
    (mapOf (.typeParam 0 boxInstance.type) (.szArray (.typeParam 1 leafRef))) _ rfl).2.2.2

end MethodInstance
end Monomorph
