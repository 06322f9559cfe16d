import Monomorph.Proofs.Key
import Monomorph.Proofs.Session.Coherence
import Monomorph.Proofs.Signature.Outline
import Monomorph.Report

/-!
# Monomorph.Proofs.Report

A report never fails halfway.

The records of a coherent session have been entered under their keys, which were written then. Of
a method that was the key of the concrete signature; the two other keys of the report are written
from the declared signature, of which the concrete one is a substitution.

* `MethodInstance.exists_declaredKey`, `MethodInstance.exists_signatureKey`: a method whose concrete
  key can be written has all its keys.
* `Coherent.exists_report`: so every record can be reported.
-/

namespace Monomorph

namespace MethodInstance

variable {i : MethodInstance}

theorem exists_keyFor_iff {ret : Sig} {params : List Sig} :
    (∃ key, i.keyFor ret params = .ok key) ↔ ret.HasText false ∧
      (∀ a ∈ i.args, a.HasText false) ∧ ∀ p ∈ params, p.HasText false := by
  simp only [keyFor, exists_map_ok_iff, Key.exists_ofMethod_iff]

/-- Substitution hides nothing that cannot be written. -/
theorem exists_declaredKey {c : ConcreteSig} {key : String} (hc : i.concreteSig = .ok c)
    (hs : i.concrete = some c) (hk : i.concretizedKey = .ok key) :
    ∃ key, i.declaredKey = .ok key := by
  rw [concretizedKey, hs] at hk
  obtain ⟨hret, hargs, hparams⟩ := exists_keyFor_iff.1 ⟨key, hk⟩
  obtain ⟨hr, hp, _⟩ := concreteSig_ok hc
  refine exists_keyFor_iff.2 ⟨Sig.hasText_of_substitute hr hret, hargs, ?_⟩
  intro p hm
  obtain ⟨q, hq, hs⟩ := exists_mem_of_mapM_ok hp hm
  exact Sig.hasText_of_substitute hs (hparams q hq)

theorem exists_signatureKey {key : String} (h : i.declaredKey = .ok key) :
    ∃ key, i.definition.signatureKey = .ok key := by
  obtain ⟨hret, _, hparams⟩ := exists_keyFor_iff.1 ⟨key, h⟩
  exact Key.exists_ofDeclaration_iff.2 ⟨hret, hparams⟩

end MethodInstance

namespace Session

variable {s : Session}

theorem Coherent.exists_typeKey (h : s.Coherent) {id : TypeInstanceId} {t : TypeInstance}
    (ht : s.catalog.typeInstance id = .ok t) : ∃ key, t.key = .ok key := by
  obtain ⟨key, he⟩ := h.typeEntry_of_instance ht
  exact ⟨key, he.key⟩

theorem MethodEntry.exists_report (h : s.Coherent) {owner : TypeInstanceId} {key : String}
    {i : MethodInstance} (hx : s.MethodEntry owner key i) : ∃ r, i.report s.metadata = .ok r := by
  obtain ⟨ownerKey, ho⟩ := h.exists_typeKey hx.owner
  have hd : s.metadata.methodDef i.definition.id = .ok i.definition := by
    obtain ⟨t, d, k, _, hd, hi⟩ := Catalog.freshMethod_ok hx.fresh
    have : i.definition = d := congrArg MethodInstance.definition hi
    rw [this] at hd ⊢
    exact hd
  obtain ⟨⟨c, hc, hs⟩, _⟩ := Catalog.concrete_of_freshMethod hx.fresh
  obtain ⟨declared, hdeclared⟩ : ∃ key, i.declaredKey = .ok key :=
    MethodInstance.exists_declaredKey hc hs hx.key
  obtain ⟨signature, hsignature⟩ := MethodInstance.exists_signatureKey hdeclared
  simp [MethodInstance.report, ho, hd, hsignature, hdeclared, hx.key, bind, Except.bind, pure,
    Except.pure]

theorem FieldEntry.exists_report (h : s.Coherent) {owner : TypeInstanceId} {key : String}
    {i : FieldInstance} (hx : s.FieldEntry owner key i) : ∃ r, i.report = .ok r := by
  obtain ⟨index, hf⟩ := hx.fresh
  obtain ⟨ownerKey, ho⟩ := h.exists_typeKey (Catalog.freshField_ok hf).1
  exact exists_bind_ok_iff.2 ⟨ownerKey, ho, _, rfl⟩

theorem Coherent.exists_methodReport (h : s.Coherent) {id : MethodInstanceId} {i : MethodInstance}
    (hi : s.catalog.methodInstance id = .ok i) : ∃ r, i.report s.metadata = .ok r := by
  obtain ⟨owner, key, hx⟩ := h.methodEntry_of_instance hi
  exact hx.exists_report h

theorem Coherent.exists_fieldReport (h : s.Coherent) {id : FieldInstanceId} {i : FieldInstance}
    (hi : s.catalog.fieldInstance id = .ok i) : ∃ r, i.report = .ok r := by
  obtain ⟨owner, key, hx⟩ := h.fieldEntry_of_instance hi
  exact hx.exists_report h

theorem coherent_setProcessed {m : Metadata} {c c' : Catalog} (h : Coherent ⟨m, c⟩)
    {id : MethodInstanceId} {value : Bool} (hc : c.setProcessed id value = .ok c') :
    Coherent ⟨m, c'⟩ ∧ c'.methods.size = c.methods.size := by
  obtain ⟨i, hi, hc⟩ := exists_of_bind_ok hc
  cases hc
  exact ⟨(Performed.processed hi).coherent h, Registry.size_modify _ _ _⟩

/-- Marking one method does not keep the next one from being reported. -/
theorem Coherent.exists_reportMethods {m : Metadata} (ids : List MethodInstanceId) {c : Catalog}
    (h : Coherent ⟨m, c⟩) (hids : ∀ id ∈ ids, id < c.methods.size) :
    ∃ rs c', c.reportMethods m ids = .ok (rs, c') ∧ Coherent ⟨m, c'⟩ := by
  induction ids generalizing c with
  | nil => exact ⟨[], c, rfl, h⟩
  | cons id rest ih =>
    rw [List.forall_mem_cons] at hids
    obtain ⟨i, hi⟩ := Registry.exists_get?_of_lt hids.1
    rw [← Catalog.methodInstance_eq_ok_iff] at hi
    obtain ⟨r, hr⟩ := h.exists_methodReport hi
    obtain ⟨c₁, hc₁⟩ : ∃ c₁, c.setProcessed id true = .ok c₁ := exists_bind_ok_iff.2 ⟨i, hi, _, rfl⟩
    obtain ⟨h₁, hs⟩ := coherent_setProcessed h hc₁
    obtain ⟨rs, c', hrs, hc'⟩ := ih h₁ (by simpa [hs] using hids.2)
    refine ⟨r :: rs, c', ?_, hc'⟩
    simp [Catalog.reportMethods, Catalog.reportMethod, hi, hr, hc₁, hrs, bind, Except.bind, pure,
      Except.pure]

/-- Every record of a coherent session can be reported. -/
theorem Coherent.exists_report {m : Metadata} {p : Progress} (h : Coherent ⟨m, p.catalog⟩) :
    ∃ r c, p.report m = .ok (r, c) := by
  obtain ⟨types, htypes⟩ : ∃ keys, p.catalog.types.values.mapM TypeInstance.key = .ok keys := by
    rw [exists_mapM_ok_iff]
    intro t ht
    obtain ⟨id, hid⟩ := List.mem_iff_getElem?.1 ht
    exact h.exists_typeKey (Catalog.typeInstance_eq_ok_iff.2 hid)
  obtain ⟨methods, c, hmethods, hc⟩ := h.exists_reportMethods p.catalog.pending (by
    intro id hid
    simp only [Catalog.pending, List.mem_filter, List.mem_range] at hid
    exact hid.1)
  obtain ⟨fields, hfields⟩ : ∃ rs, c.fields.values.mapM FieldInstance.report = .ok rs := by
    rw [exists_mapM_ok_iff]
    intro i hi
    obtain ⟨id, hid⟩ := List.mem_iff_getElem?.1 hi
    exact hc.exists_fieldReport (Catalog.fieldInstance_eq_ok_iff.2 hid)
  simp [Progress.report, htypes, hmethods, hfields, bind, Except.bind, pure, Except.pure]

end Session
end Monomorph
