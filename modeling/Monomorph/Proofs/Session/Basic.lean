import Mathlib.Data.List.Induction
import Monomorph.Proofs.Catalog.Requests

/-!
# Monomorph.Proofs.Session.Basic

Runs of calls against one catalog and the metadata it is filled from.

A session starts without definitions and records; each `Call` either succeeds and leads to a new
session or leaves the session as it is. Definitions may be added at any time, also between two
requests. `Session.after` is the session at the end of a run, and `Session.Answers` says what one
call of the run answered.

* `performed_of_ok`: a call that succeeds does one of the things that `Performed` lists.
* `after_induct`: what holds at the start and is kept by each of them holds after every run.
* `grows_after`: definitions and records that are there at some point of a run stay.
-/

namespace Monomorph

open Registry (Entered)

/-- Metadata, and the catalog that is filled from it. -/
structure Session where
  metadata : Metadata
  catalog : Catalog

inductive Call where
  | addType (nameSpace name : String) (genericParams : Nat) (corlib valueType : Bool)
  | addMethod (type : TypeDefId) (name : String) (sig : MethodSig) (attributes : MethodAttributes)
    (body : Option MethodBody)
  | addField (type : TypeDefId) (field : FieldDef)
  | resolveType (type : TypeDefId) (args : List Sig)
  | resolveMethod (owner : TypeInstanceId) (method : MethodDefId) (args : List Sig)
  | resolveField (owner : TypeInstanceId) (index : Nat)
  | addOverride (method target : MethodInstanceId)
  | setProcessed (method : MethodInstanceId) (value : Bool)
  | setSkipped (method : MethodInstanceId) (value : Bool)

inductive Answer where
  /-- The identifier of a new definition. -/
  | defined (id : Nat)
  /-- The number of a record. -/
  | published (id : Nat)
  /-- There is no record, since an argument mentions a parameter. -/
  | unpublished
  /-- Whether an override is new. -/
  | isNew (value : Bool)
  | done

def Answer.ofNumber : Option Nat → Answer
  | some id => .published id
  | none => .unpublished

namespace Session

def start : Session :=
  ⟨∅, ∅⟩

/-- The session after a call, with the answer. -/
def perform (s : Session) : Call → Except Error (Session × Answer)
  | .addType nameSpace name genericParams corlib valueType =>
    (s.metadata.addType nameSpace name genericParams corlib valueType).map fun (m, id) =>
      ({ s with metadata := m }, .defined id)
  | .addMethod type name sig attributes body =>
    (s.metadata.addMethod type name sig attributes body).map fun (m, id) =>
      ({ s with metadata := m }, .defined id)
  | .addField type field =>
    (s.metadata.addField type field).map fun m => ({ s with metadata := m }, .done)
  | .resolveType type args =>
    (s.catalog.resolveType s.metadata type args).map fun (c, id) =>
      ({ s with catalog := c }, .ofNumber id)
  | .resolveMethod owner method args =>
    (s.catalog.resolveMethod s.metadata owner method args).map fun (c, id) =>
      ({ s with catalog := c }, .ofNumber id)
  | .resolveField owner index =>
    (s.catalog.resolveField s.metadata owner index).map fun (c, id) =>
      ({ s with catalog := c }, .published id)
  | .addOverride method target =>
    (s.catalog.addOverride method target).map fun (c, isNew) =>
      ({ s with catalog := c }, .isNew isNew)
  | .setProcessed method value =>
    (s.catalog.setProcessed method value).map fun c => ({ s with catalog := c }, .done)
  | .setSkipped method value =>
    (s.catalog.setSkipped method value).map fun c => ({ s with catalog := c }, .done)

/-- The session after a call; a call that fails changes nothing. -/
def step (s : Session) (call : Call) : Session :=
  match s.perform call with
  | .ok (t, _) => t
  | .error _ => s

def after (calls : List Call) : Session :=
  calls.foldl step start

/-- The session that call number `i` of a run finds. -/
def before (calls : List Call) (i : Nat) : Session :=
  after (calls.take i)

/-- Call number `i` of a run is this one, and it succeeds with this answer. -/
def Answers (calls : List Call) (i : Nat) (call : Call) (answer : Answer) : Prop :=
  calls[i]? = some call ∧ ∃ t, (before calls i).perform call = .ok (t, answer)

/-! ## What a call does -/

/-- The call leads from the session to that one, with that answer. -/
inductive Performed (s : Session) : Call → Answer → Session → Prop where
  | addType {nameSpace name : String} {genericParams : Nat} {corlib valueType : Bool}
      {m : Metadata} {id : TypeDefId} :
      s.metadata.addType nameSpace name genericParams corlib valueType = .ok (m, id) →
      Performed s (.addType nameSpace name genericParams corlib valueType) (.defined id)
        { s with metadata := m }
  | addMethod {type : TypeDefId} {name : String} {sig : MethodSig} {attributes : MethodAttributes}
      {body : Option MethodBody} {m : Metadata} {id : MethodDefId} :
      s.metadata.addMethod type name sig attributes body = .ok (m, id) →
      Performed s (.addMethod type name sig attributes body) (.defined id)
        { s with metadata := m }
  | addField {type : TypeDefId} {field : FieldDef} {m : Metadata} :
      s.metadata.addField type field = .ok m →
      Performed s (.addField type field) .done { s with metadata := m }
  | type {type : TypeDefId} {args : List Sig} {i : TypeInstance} {key : String}
      {r : Registry String TypeInstance} {id : TypeInstanceId} :
      s.metadata.freshType type args = .ok i → i.isConcrete = .ok true → i.key = .ok key →
      Entered s.catalog.types key i r id →
      Performed s (.resolveType type args) (.published id)
        { s with catalog := { s.catalog with types := r } }
  | openType {type : TypeDefId} {args : List Sig} {i : TypeInstance} :
      s.metadata.freshType type args = .ok i → i.isConcrete = .ok false →
      Performed s (.resolveType type args) .unpublished s
  | method {owner : TypeInstanceId} {method : MethodDefId} {args : List Sig} {i : MethodInstance}
      {key : String} {r : Registry (TypeInstanceId × String) MethodInstance}
      {id : MethodInstanceId} :
      Sig.anyHasParam args = false → s.catalog.freshMethod s.metadata owner method args = .ok i →
      i.concretizedKey = .ok key → Entered s.catalog.methods (owner, key) i r id →
      Performed s (.resolveMethod owner method args) (.published id)
        { s with catalog := { s.catalog with methods := r } }
  | openMethod {owner : TypeInstanceId} {method : MethodDefId} {args : List Sig} :
      Sig.anyHasParam args = true →
      Performed s (.resolveMethod owner method args) .unpublished s
  | field {owner : TypeInstanceId} {index : Nat} {i : FieldInstance}
      {r : Registry (TypeInstanceId × String) FieldInstance} {id : FieldInstanceId} :
      s.catalog.freshField s.metadata owner index = .ok i →
      Entered s.catalog.fields (owner, i.key) i r id →
      Performed s (.resolveField owner index) (.published id)
        { s with catalog := { s.catalog with fields := r } }
  | override {method target : MethodInstanceId} {i : MethodInstance} :
      s.catalog.methodInstance method = .ok i →
      Performed s (.addOverride method target) (.isNew (i.addOverride target).2)
        { s with catalog := s.catalog.modifyMethod method fun _ => (i.addOverride target).1 }
  | processed {method : MethodInstanceId} {value : Bool} {i : MethodInstance} :
      s.catalog.methodInstance method = .ok i →
      Performed s (.setProcessed method value) .done
        { s with catalog := s.catalog.modifyMethod method ({ · with processed := value }) }
  | skipped {method : MethodInstanceId} {value : Bool} {i : MethodInstance} :
      s.catalog.methodInstance method = .ok i →
      Performed s (.setSkipped method value) .done
        { s with catalog := s.catalog.modifyMethod method ({ · with skipped := value }) }

theorem performed_of_ok {s t : Session} {call : Call} {answer : Answer}
    (h : s.perform call = .ok (t, answer)) : Performed s call answer t := by
  cases call with
  | addType nameSpace name genericParams corlib valueType =>
    obtain ⟨⟨m, id⟩, hm, h⟩ := exists_of_map_ok h
    cases h
    exact .addType hm
  | addMethod type name sig attributes body =>
    obtain ⟨⟨m, id⟩, hm, h⟩ := exists_of_map_ok h
    cases h
    exact .addMethod hm
  | addField type field =>
    obtain ⟨m, hm, h⟩ := exists_of_map_ok h
    cases h
    exact .addField hm
  | resolveType type args =>
    obtain ⟨⟨c, id⟩, hc, h⟩ := exists_of_map_ok h
    cases h
    obtain ⟨i, hi, ⟨hb, rfl, rfl⟩ | ⟨hb, key, r, id, hk, he, rfl, rfl⟩⟩ :=
      Catalog.resolveType_ok hc
    · exact .openType hi hb
    · exact .type hi hb hk he
  | resolveMethod owner method args =>
    obtain ⟨⟨c, id⟩, hc, h⟩ := exists_of_map_ok h
    cases h
    obtain ⟨hp, rfl, rfl⟩ | ⟨hp, i, key, r, id, hi, hk, he, rfl, rfl⟩ :=
      Catalog.resolveMethod_ok hc
    · exact .openMethod hp
    · exact .method hp hi hk he
  | resolveField owner index =>
    obtain ⟨⟨c, id⟩, hc, h⟩ := exists_of_map_ok h
    cases h
    obtain ⟨i, r, hi, he, rfl⟩ := Catalog.resolveField_ok hc
    exact .field hi he
  | addOverride method target =>
    obtain ⟨⟨c, isNew⟩, hc, h⟩ := exists_of_map_ok h
    cases h
    obtain ⟨i, hi, hc⟩ := exists_of_bind_ok hc
    cases hc
    exact .override hi
  | setProcessed method value =>
    obtain ⟨c, hc, h⟩ := exists_of_map_ok h
    cases h
    obtain ⟨i, hi, hc⟩ := exists_of_bind_ok hc
    cases hc
    exact .processed hi
  | setSkipped method value =>
    obtain ⟨c, hc, h⟩ := exists_of_map_ok h
    cases h
    obtain ⟨i, hi, hc⟩ := exists_of_bind_ok hc
    cases hc
    exact .skipped hi

/-! ## Runs -/

theorem after_concat (calls : List Call) (call : Call) :
    after (calls ++ [call]) = (after calls).step call := by
  rw [after, List.foldl_append]
  rfl

/-- A property of the start that every call keeps holds after every run. -/
theorem after_induct {P : Session → Prop} (hs : P start)
    (hp : ∀ {s t : Session} {call : Call} {answer : Answer}, P s → Performed s call answer t → P t)
    (calls : List Call) : P (after calls) := by
  induction calls using List.reverseRecOn with
  | nil => exact hs
  | append_singleton calls call ih =>
    rw [after_concat, step]
    split
    · rename_i h
      exact hp ih (performed_of_ok h)
    · exact ih

/-- Every definition and every record of the first session is in the second one too. -/
structure Grows (s t : Session) : Prop where
  metadata : s.metadata.Grows t.metadata
  catalog : s.catalog.Grows t.catalog

theorem Grows.refl (s : Session) : s.Grows s :=
  ⟨.refl _, .refl _⟩

theorem Grows.trans {s t u : Session} (h : s.Grows t) (k : t.Grows u) : s.Grows u :=
  ⟨h.metadata.trans k.metadata, h.catalog.trans k.catalog⟩

theorem Performed.grows {s t : Session} {call : Call} {answer : Answer}
    (h : Performed s call answer t) : s.Grows t := by
  cases h with
  | addType h => exact ⟨Metadata.grows_addType h, .refl _⟩
  | addMethod h => exact ⟨Metadata.grows_addMethod h, .refl _⟩
  | addField h => exact ⟨Metadata.grows_addField h, .refl _⟩
  | type _ _ _ he => exact ⟨.refl _, Catalog.grows_types he⟩
  | openType _ _ => exact .refl s
  | method _ _ _ he => exact ⟨.refl _, Catalog.grows_methods he⟩
  | openMethod _ => exact .refl s
  | field _ he => exact ⟨.refl _, Catalog.grows_fields he⟩
  | override hi => exact ⟨.refl _, Catalog.grows_modifyMethod (Catalog.pristine_override hi)⟩
  | processed _ => exact ⟨.refl _, Catalog.grows_modifyMethod fun _ _ => rfl⟩
  | skipped _ => exact ⟨.refl _, Catalog.grows_modifyMethod fun _ _ => rfl⟩

theorem Performed.indexed {s t : Session} {call : Call} {answer : Answer}
    (h : Performed s call answer t) (hm : s.metadata.Indexed) : t.metadata.Indexed := by
  cases h with
  | addType h => exact Metadata.indexed_addType hm h
  | addMethod h => exact Metadata.indexed_addMethod hm h
  | addField h => exact Metadata.indexed_addField hm h
  | _ => exact hm

theorem grows_step (s : Session) (call : Call) : s.Grows (s.step call) := by
  rw [step]
  split
  · rename_i h
    exact (performed_of_ok h).grows
  · exact .refl s

theorem grows_after (calls more : List Call) : (after calls).Grows (after (calls ++ more)) := by
  induction more using List.reverseRecOn with
  | nil =>
    rw [List.append_nil]
    exact .refl _
  | append_singleton more call ih =>
    rw [← List.append_assoc, after_concat]
    exact ih.trans (grows_step _ call)

theorem grows_before (calls : List Call) (i : Nat) : (before calls i).Grows (after calls) := by
  have h := grows_after (calls.take i) (calls.drop i)
  rw [List.take_append_drop] at h
  exact h

theorem before_append {calls : List Call} {i : Nat} (h : i ≤ calls.length) (more : List Call) :
    before (calls ++ more) i = before calls i := by
  rw [before, before, List.take_append_of_le_length h]

theorem before_length (calls more : List Call) :
    before (calls ++ more) calls.length = after calls := by
  rw [before_append (Nat.le_refl _), before, List.take_length]

theorem Answers.lt_length {calls : List Call} {i : Nat} {call : Call} {answer : Answer}
    (h : Answers calls i call answer) : i < calls.length :=
  (List.getElem?_eq_some_iff.1 h.1).1

theorem answers_append_iff {calls : List Call} {i : Nat} (h : i < calls.length) (more : List Call)
    {call : Call} {answer : Answer} :
    Answers (calls ++ more) i call answer ↔ Answers calls i call answer := by
  rw [Answers, Answers, before_append (Nat.le_of_lt h), List.getElem?_append_left h]

/-- What a call of a run does, and what becomes of it. -/
theorem Answers.performed {calls : List Call} {i : Nat} {call : Call} {answer : Answer}
    (h : Answers calls i call answer) :
    ∃ t, Performed (before calls i) call answer t ∧ t.Grows (after calls) := by
  obtain ⟨hc, t, ht⟩ := h
  refine ⟨t, performed_of_ok ht, ?_⟩
  have hb : before calls (i + 1) = t := by
    rw [before, List.take_add_one, hc]
    show after (calls.take i ++ [call]) = t
    rw [after_concat, step]
    show (match (before calls i).perform call with
      | .ok (t, _) => t
      | .error _ => before calls i) = t
    rw [ht]
  rw [← hb]
  exact grows_before calls (i + 1)

end Session
end Monomorph
