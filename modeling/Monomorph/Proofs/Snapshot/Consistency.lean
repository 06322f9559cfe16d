import Monomorph.Proofs.Instance.Failures
import Monomorph.Proofs.Instance.Key
import Monomorph.Proofs.Session.Identity
import Monomorph.Proofs.Snapshot.Build

/-!
# Monomorph.Proofs.Snapshot.Consistency

The requests of a snapshot get records of what they name.

A request names a method that is the only one of its name in its type, or the first field of its
name. The catalog finds a record by its key, and a key tells the name; so a record that is found
there was made for the same definition, whatever request made it (`Catalog.Named`).

* `Catalog.Named.resolveMethod`, `Catalog.Named.resolveField`: a request gets the record of its own
  definition, and the invariant is kept.
* `Progress.failsOnly_resolve`: what can still go wrong is the fault of a request or of a
  definition; nothing is missing, and no record is used in a wrong state.
* `Snapshot.resolves_consistently`: both hold for every request of every snapshot that builds.
-/

namespace Monomorph

open Session (Coherent)

/-! ## Arguments of requests -/

namespace Sig

theorem exists_areConcrete {ss : List Sig} (h : ∀ s ∈ ss, ∃ b, s.isConcrete = .ok b) :
    ∃ b, areConcrete ss = .ok b := by
  induction ss with
  | nil => exact ⟨true, rfl⟩
  | cons s rest ih =>
    rw [List.forall_mem_cons] at h
    obtain ⟨b, hb⟩ := h.1
    rw [areConcrete, hb]
    cases b with
    | false => exact ⟨false, rfl⟩
    | true => exact ih h.2

/-- Outside of methods no parameter of a method is met. -/
theorem Grounded.exists_isConcrete {m : Metadata} {s : Sig} (h : s.Grounded m none) :
    ∃ b, s.isConcrete = .ok b := by
  induction h with
  | primitive _ => exact ⟨true, rfl⟩
  | @type t _ =>
    rw [TypeDef.sig]
    split
    · exact ⟨true, rfl⟩
    · exact ⟨true, rfl⟩
  | ptr _ ih | byRef _ ih | pinned _ ih | szArray _ ih => exact ih
  | array _ _ _ _ ih => exact ih
  | modReqd _ _ ih | modOpt _ _ ih => exact ih
  | genericInst _ _ ih => exact exists_areConcrete ih
  | typeParam _ _ => exact ⟨false, rfl⟩
  | methodParam _ h => cases h
  | unsupported _ => exact ⟨true, rfl⟩

end Sig

/-! ## Definitions of one name -/

theorem TypeDef.OnlyMethod.eq {m : Metadata} {t : TypeDef} {x y : MethodDef}
    (hx : t.OnlyMethod m x) (hy : t.OnlyMethod m y) (h : x.name = y.name) : x = y :=
  hy.only x hx.found hx.mem h

theorem TypeDef.FirstField.eq {t : TypeDef} {i j : Nat} {f g : FieldDef} (hf : t.FirstField i f)
    (hg : t.FirstField j g) (h : f.name = g.name) : f = g := by
  have hle {i j : Nat} {f g : FieldDef} (hf : t.FirstField i f) (hg : t.FirstField j g)
      (h : f.name = g.name) : i ≤ j := by
    by_contra hlt
    refine hf.first g (List.mem_of_getElem? (i := j) ?_) h.symm
    rw [List.getElem?_take_of_lt (by omega)]
    exact hg.found
  have hij : i = j := Nat.le_antisymm (hle hf hg h) (hle hg hf h.symm)
  have hfound := hf.found
  rw [hij, hg.found] at hfound
  exact (Option.some.inj hfound).symm

theorem Metadata.Has.eq {m : Metadata} {t u : TypeDef} (ht : m.Has t) (hu : m.Has u)
    (h : t.id = u.id) : t = u := by
  rw [Has, h, hu] at ht
  exact (Except.ok.inj ht).symm

/-! ## Records and what they were made for -/

theorem FieldInstance.make_ok {o : TypeInstance} {f : FieldDef} {i : FieldInstance}
    (h : make o f = .ok i) :
    i.owner = o ∧ i.name = f.name ∧ Key.ofField f.name i.type = .ok i.key := by
  obtain ⟨type, _, h⟩ := exists_of_bind_ok h
  obtain ⟨key, hkey, h⟩ := exists_of_bind_ok h
  cases h
  exact ⟨rfl, rfl, hkey⟩

/-- The invariant of runs holds, and every record of a method or a field was made for the
definition that its name tells. -/
structure Catalog.Named (m : Metadata) (c : Catalog) : Prop where
  coherent : Coherent ⟨m, c⟩
  methods : ∀ {id : MethodInstanceId} {owner : TypeInstanceId} {key : String} {i : MethodInstance},
    c.methods.entries[id]? = some ((owner, key), i) →
      ∃ t, m.Has t ∧ t.id = i.owner.type.id ∧ t.OnlyMethod m i.definition
  fields : ∀ {id : FieldInstanceId} {owner : TypeInstanceId} {key : String} {i : FieldInstance},
    c.fields.entries[id]? = some ((owner, key), i) →
      ∃ t index f, m.Has t ∧ t.id = i.owner.type.id ∧ t.FirstField index f ∧
        FieldInstance.make i.owner f = .ok i

namespace Catalog

variable {m : Metadata} {c d : Catalog} {owner : TypeInstanceId} {o : TypeInstance} {t : TypeDef}

theorem named_empty (h : Coherent ⟨m, ∅⟩) : Named m ∅ := by
  refine ⟨h, ?_, ?_⟩
  · intro id owner key i h
    cases h
  · intro id owner key i h
    cases h

/-- The record of a type belongs to the definition that the request is for. -/
theorem typeInstance_of_resolveType (hc : Coherent ⟨m, c⟩) (ht : m.Has t) {args : List Sig}
    (h : c.resolveType m t.id args = .ok (d, some owner)) :
    ∃ i, d.typeInstance owner = .ok i ∧ i.type = t.toRef := by
  have hd := coherent_resolveType hc h
  obtain ⟨j, hj, ⟨_, _, ha⟩ | ⟨_, key, r, id, hkey, he, rfl, ha⟩⟩ := resolveType_ok h
  · cases ha
  · cases ha
    obtain ⟨i, hi⟩ := Registry.exists_entry_of_key he.getElem?_keys
    have hx := hd.typeEntry hi
    have hid := Session.type_of_freshType hc.indexed hx.fresh hj hx.key hkey
    obtain ⟨u, hu, hiu⟩ := Metadata.freshType_ok hx.fresh
    rw [hid, ht] at hu
    cases hu
    exact ⟨i, typeInstance_eq_ok_iff.2 (Registry.get?_of_entry hi),
      congrArg TypeInstance.type hiu⟩

theorem Named.resolveType (hn : c.Named m) {type : TypeDefId} {args : List Sig}
    {answer : Option TypeInstanceId} (h : c.resolveType m type args = .ok (d, answer)) :
    d.Named m := by
  have hd := coherent_resolveType hn.coherent h
  obtain ⟨j, _, ⟨_, rfl, _⟩ | ⟨_, key, r, id, _, _, rfl, _⟩⟩ := resolveType_ok h
  · exact hn
  · exact ⟨hd, hn.methods, hn.fields⟩

/-- A request for the only method of a name gets a record of that method. -/
theorem Named.resolveMethod (hn : c.Named m) (ho : c.typeInstance owner = .ok o) (ht : m.Has t)
    (hid : t.id = o.type.id) {x : MethodDef} (hx : t.OnlyMethod m x) {args : List Sig}
    {answer : Option MethodInstanceId} (h : c.resolveMethod m owner x.id args = .ok (d, answer)) :
    d.Named m ∧ ∀ id, answer = some id →
      ∃ i, d.methodInstance id = .ok i ∧ i.owner = o ∧ i.definition = x := by
  have hd := coherent_resolveMethod hn.coherent h
  obtain ⟨_, rfl, rfl⟩ | ⟨_, j, key, r, id, hj, hkey, he, rfl, rfl⟩ := resolveMethod_ok h
  · refine ⟨hn, ?_⟩
    intro id h
    cases h
  · obtain ⟨o', x', s, ho', hx', rfl⟩ := freshMethod_ok hj
    rw [ho] at ho'
    cases ho'
    rw [hx.found] at hx'
    cases hx'
    have hnamed : Named m { c with methods := r } := by
      refine ⟨hd, ?_, hn.fields⟩
      intro id' owner' key' i hi
      rcases he.entry hi with hi | ⟨_, hi, _⟩
      · exact hn.methods hi
      · cases hi
        exact ⟨t, ht, hid, hx⟩
    refine ⟨hnamed, ?_⟩
    intro id' h'
    cases h'
    obtain ⟨i, hi⟩ := Registry.exists_entry_of_key he.getElem?_keys
    have hentry := hd.methodEntry hi
    have howner : i.owner = o := by
      have h : c.typeInstance owner = .ok i.owner := hentry.owner
      rw [ho] at h
      exact (Except.ok.inj h).symm
    obtain ⟨u, hu, huid, hui⟩ := hnamed.methods hi
    rw [howner, ← hid] at huid
    obtain rfl := hu.eq ht huid
    refine ⟨i, methodInstance_eq_ok_iff.2 (Registry.get?_of_entry hi), howner, ?_⟩
    exact hui.eq hx (MethodInstance.name_of_concretizedKey hentry.key hkey)

theorem make_of_freshField (ho : c.typeInstance owner = .ok o) (ht : m.Has t)
    (hid : t.id = o.type.id) {index : Nat} {f : FieldDef} (hf : t.fields[index]? = some f)
    {i : FieldInstance} (h : c.freshField m owner index = .ok i) :
    FieldInstance.make o f = .ok i := by
  obtain ⟨o', ho', h⟩ := exists_of_bind_ok h
  rw [ho] at ho'
  cases ho'
  obtain ⟨t', ht', h⟩ := exists_of_bind_ok h
  rw [← hid, ht] at ht'
  cases ht'
  rw [hf] at h
  exact h

/-- A request for the first field of a name gets a record of that field. -/
theorem Named.resolveField (hn : c.Named m) (ho : c.typeInstance owner = .ok o) (ht : m.Has t)
    (hid : t.id = o.type.id) {index : Nat} {f : FieldDef} (hf : t.FirstField index f)
    {id : FieldInstanceId} (h : c.resolveField m owner index = .ok (d, id)) :
    d.Named m ∧ ∃ i, d.fieldInstance id = .ok i ∧ FieldInstance.make o f = .ok i := by
  have hd := coherent_resolveField hn.coherent h
  obtain ⟨j, r, hj, he, rfl⟩ := resolveField_ok h
  have hmake := make_of_freshField ho ht hid hf.found hj
  obtain ⟨hjo, hjn, hjk⟩ := FieldInstance.make_ok hmake
  have hnamed : Named m { c with fields := r } := by
    refine ⟨hd, hn.methods, ?_⟩
    intro id' owner' key' i hi
    rcases he.entry hi with hi | ⟨_, hi, _⟩
    · exact hn.fields hi
    · cases hi
      refine ⟨t, index, f, ht, ?_, hf, ?_⟩
      · rw [hjo]
        exact hid
      · rw [hjo]
        exact hmake
  refine ⟨hnamed, ?_⟩
  obtain ⟨i, hi⟩ := Registry.exists_entry_of_key he.getElem?_keys
  have hentry := hd.fieldEntry hi
  have howner : i.owner = o := by
    obtain ⟨k, hk⟩ := hentry.fresh
    have h : c.typeInstance owner = .ok i.owner := (freshField_ok hk).1
    rw [ho] at h
    exact (Except.ok.inj h).symm
  obtain ⟨u, k, g, hu, huid, hg, hmakei⟩ := hnamed.fields hi
  obtain ⟨_, _, hik⟩ := FieldInstance.make_ok hmakei
  rw [howner] at huid hmakei
  rw [← hid] at huid
  obtain rfl := hu.eq ht huid
  rw [hentry.key] at hik
  obtain rfl := hg.eq hf (Key.name_of_ofField hik hjk)
  exact ⟨i, fieldInstance_eq_ok_iff.2 (Registry.get?_of_entry hi), hmakei⟩

/-! ### Failures -/

theorem failsOnly_resolveType (c : Catalog) (ht : m.Has t) {args : List Sig}
    (ha : ∀ a ∈ args, a.Grounded m none) :
    FailsOnly Error.OfRequest (c.resolveType m t.id args) := by
  refine (failsOnly_of_ok ht).bind fun u hu => ?_
  rw [ht] at hu
  cases hu
  refine (TypeInstance.failsOnly_make t args).bind fun i hi => ?_
  obtain rfl := TypeInstance.make_ok hi
  obtain ⟨b, hb⟩ := Sig.exists_areConcrete fun a hm => (ha a hm).exists_isConcrete
  refine (failsOnly_of_ok hb).bind fun b _ => ?_
  cases b with
  | false => exact failsOnly_ok _
  | true =>
    exact ((Key.failsOnly_ofType _ args).imp fun _ => .signature).bind fun _ _ => failsOnly_ok _

theorem failsOnly_resolveMethod (ho : c.typeInstance owner = .ok o) {method : MethodDefId}
    {x : MethodDef} (hx : m.methodDef method = .ok x) (hd : x.declaringType = o.type.id)
    (args : List Sig) : FailsOnly Error.OfRequest (c.resolveMethod m owner method args) := by
  refine (failsOnly_of_ok ho).bind fun o' ho' => ?_
  rw [ho] at ho'
  cases ho'
  refine (failsOnly_of_ok hx).bind fun x' hx' => ?_
  rw [hx] at hx'
  cases hx'
  split
  · exact failsOnly_ok _
  · refine (MethodInstance.failsOnly_make args hd).bind fun i hi => ?_
    have hnone : i.concrete = none := congrArg MethodInstance.concrete (MethodInstance.make_ok hi)
    refine ((MethodInstance.failsOnly_concretize hnone).imp fun _ => .signature).bind fun j hj => ?_
    obtain ⟨k, hk⟩ := MethodInstance.concretize_ok hj
    have hsome : j.concrete = some k := congrArg MethodInstance.concrete hk
    refine ((MethodInstance.failsOnly_concretizedKey hsome).imp fun _ => .signature).bind
      fun key _ => ?_
    have hpublish : FailsOnly Error.OfRequest (c.publishMethod owner key j) := by
      rw [publishMethod]
      split
      · exact failsOnly_ok _
      · exact (j.failsOnly_declaredKey.imp fun _ => .signature).map _
    exact hpublish.bind fun _ _ => failsOnly_ok _

theorem failsOnly_resolveField (ho : c.typeInstance owner = .ok o) (ht : m.Has t)
    (hid : t.id = o.type.id) {index : Nat} {f : FieldDef} (hf : t.fields[index]? = some f) :
    FailsOnly Error.OfRequest (c.resolveField m owner index) := by
  refine (failsOnly_of_ok ho).bind fun o' ho' => ?_
  rw [ho] at ho'
  cases ho'
  have ht' : m.typeDef o.type.id = .ok t := by
    rw [← hid]
    exact ht
  refine (failsOnly_of_ok ht').bind fun u hu => ?_
  rw [ht'] at hu
  cases hu
  rw [hf]
  exact ((FieldInstance.failsOnly_make o f).imp fun _ => .signature).bind
    fun _ _ => failsOnly_ok _

end Catalog

/-! ## Requests -/

namespace RequestDecl.Asks

variable {m : Metadata} {d : RequestDecl} {r : Request}

theorem exists_type (h : d.Asks m r) :
    ∃ t, m.Has t ∧ t.id = r.type ∧ ∀ a ∈ r.typeArgs, a.Grounded m none := by
  obtain ⟨ht, _, ha, _⟩ := h
  exact ⟨_, ht, rfl, NamedSig.Means.grounded_of_forall₂ ha⟩

theorem exists_method (h : d.Asks m r) {id : MethodDefId} {args : List Sig}
    (htarget : r.target = .method id args) :
    ∃ t x, m.Has t ∧ t.id = r.type ∧ t.OnlyMethod m x ∧ x.id = id := by
  obtain ⟨ht, _, _, haims⟩ := h
  cases haims with
  | method _ hx _ =>
    cases htarget
    exact ⟨_, _, ht, rfl, hx, rfl⟩
  | type _ _ | field _ _ _ => cases htarget

theorem exists_field (h : d.Asks m r) {index : Nat} (htarget : r.target = .field index) :
    ∃ t f, m.Has t ∧ t.id = r.type ∧ t.FirstField index f := by
  obtain ⟨ht, _, _, haims⟩ := h
  cases haims with
  | field _ _ hf =>
    cases htarget
    exact ⟨_, _, ht, rfl, hf⟩
  | type _ _ | method _ _ _ => cases htarget

end RequestDecl.Asks

/-- Every record that the request gets belongs to the definition that it is for. -/
structure Request.GetsOwn (m : Metadata) (c : Catalog) (r : Request) : Prop where
  type : ∀ {d : Catalog} {owner : TypeInstanceId},
    c.resolveType m r.type r.typeArgs = .ok (d, some owner) →
      ∃ t o, m.typeDef r.type = .ok t ∧ d.typeInstance owner = .ok o ∧ o.type = t.toRef
  method : ∀ {d e : Catalog} {owner : TypeInstanceId} {id : MethodDefId} {args : List Sig}
    {number : MethodInstanceId}, c.resolveType m r.type r.typeArgs = .ok (d, some owner) →
      r.target = .method id args → d.resolveMethod m owner id args = .ok (e, some number) →
        ∃ o x i, d.typeInstance owner = .ok o ∧ m.methodDef id = .ok x ∧
          e.methodInstance number = .ok i ∧ i.owner = o ∧ i.definition = x
  field : ∀ {d e : Catalog} {owner : TypeInstanceId} {index : Nat} {number : FieldInstanceId},
    c.resolveType m r.type r.typeArgs = .ok (d, some owner) → r.target = .field index →
      d.resolveField m owner index = .ok (e, number) →
        ∃ o t f i, d.typeInstance owner = .ok o ∧ m.typeDef r.type = .ok t ∧
          t.fields[index]? = some f ∧ e.fieldInstance number = .ok i ∧
          FieldInstance.make o f = .ok i

/-- The failure of a request whose fault it is, or that of a definition. -/
inductive Failure.OfRequest : Failure → Prop where
  | library {e : Error} : e.OfRequest → OfRequest (.library e)
  | method {e : Error} (type : String) : e.OfRequest → OfRequest (.method type e)
  | field {e : Error} (type : String) : e.OfRequest → OfRequest (.field type e)

section Requests

variable {m : Metadata} {ds : List TypeDecl} {c c' : Catalog} {p : Progress} {r : Request}
  {d : RequestDecl}

/-- The record of the type, where the rest of a request starts from. -/
theorem Catalog.Named.exists_owner (hn : c.Named m) (hd : d.Asks m r) {owner : TypeInstanceId}
    (h : c.resolveType m r.type r.typeArgs = .ok (c', some owner)) :
    ∃ t o, m.Has t ∧ t.id = r.type ∧ c'.typeInstance owner = .ok o ∧ o.type = t.toRef := by
  obtain ⟨t, ht, hid, _⟩ := hd.exists_type
  rw [← hid] at h
  obtain ⟨o, ho, hot⟩ := typeInstance_of_resolveType hn.coherent ht h
  exact ⟨t, o, ht, hid, ho, hot⟩

/-- What a request for a method of the type asks for, from the record of the type. -/
theorem Catalog.Named.exists_method (hn : c.Named m) (hd : d.Asks m r) {owner : TypeInstanceId}
    (h : c.resolveType m r.type r.typeArgs = .ok (c', some owner)) {id : MethodDefId}
    {args : List Sig} (htarget : r.target = .method id args) :
    ∃ t o x, m.Has t ∧ c'.typeInstance owner = .ok o ∧ t.id = o.type.id ∧ t.OnlyMethod m x ∧
      x.id = id := by
  obtain ⟨t, o, ht, hid, ho, hot⟩ := hn.exists_owner hd h
  obtain ⟨u, x, hu, huid, hx, hxid⟩ := hd.exists_method htarget
  obtain rfl := hu.eq ht (huid.trans hid.symm)
  exact ⟨u, o, x, ht, ho, by rw [hot, TypeDef.toRef_id], hx, hxid⟩

theorem Catalog.Named.exists_field (hn : c.Named m) (hd : d.Asks m r) {owner : TypeInstanceId}
    (h : c.resolveType m r.type r.typeArgs = .ok (c', some owner)) {index : Nat}
    (htarget : r.target = .field index) :
    ∃ t o f, m.Has t ∧ t.id = r.type ∧ c'.typeInstance owner = .ok o ∧ t.id = o.type.id ∧
      t.FirstField index f := by
  obtain ⟨t, o, ht, hid, ho, hot⟩ := hn.exists_owner hd h
  obtain ⟨u, f, hu, huid, hf⟩ := hd.exists_field htarget
  obtain rfl := hu.eq ht (huid.trans hid.symm)
  exact ⟨u, o, f, ht, hid, ho, by rw [hot, TypeDef.toRef_id], hf⟩

theorem Catalog.Named.getsOwn (hn : c.Named m) (hd : d.Asks m r) : r.GetsOwn m c := by
  refine ⟨?_, ?_, ?_⟩
  · intro c₁ owner h
    obtain ⟨t, o, ht, hid, ho, hot⟩ := hn.exists_owner hd h
    rw [← hid]
    exact ⟨t, o, ht, ho, hot⟩
  · intro c₁ c₂ owner id args number h htarget h'
    obtain ⟨t, o, x, ht, ho, hto, hx, rfl⟩ := hn.exists_method hd h htarget
    obtain ⟨_, hi⟩ := (hn.resolveType h).resolveMethod ho ht hto hx h'
    obtain ⟨i, hi, hio, hix⟩ := hi number rfl
    exact ⟨o, x, i, ho, hx.found, hi, hio, hix⟩
  · intro c₁ c₂ owner index number h htarget h'
    obtain ⟨t, o, f, ht, hid, ho, hto, hf⟩ := hn.exists_field hd h htarget
    obtain ⟨_, i, hi, hmake⟩ := (hn.resolveType h).resolveField ho ht hto hf h'
    rw [← hid]
    exact ⟨o, t, f, i, ho, ht, hf.found, hi, hmake⟩

theorem Catalog.Named.resolved (hn : c.Named m) (hd : d.Asks m r) (h : Resolved m c r c') :
    c'.Named m := by
  cases h with
  | openType h => exact hn.resolveType h
  | type h _ => exact hn.resolveType h
  | method h htarget h' =>
    obtain ⟨t, o, x, ht, ho, hto, hx, rfl⟩ := hn.exists_method hd h htarget
    exact ((hn.resolveType h).resolveMethod ho ht hto hx h').1
  | field h htarget h' =>
    obtain ⟨t, o, f, ht, _, ho, hto, hf⟩ := hn.exists_field hd h htarget
    exact ((hn.resolveType h).resolveField ho ht hto hf h').1

/-- The rest of a request, from the record of the type. -/
theorem Progress.failsOnly_resolveTarget (hm : m.Holds ds) (hn : c.Named m) (hd : d.Asks m r)
    {owner : TypeInstanceId} (h : c.resolveType m r.type r.typeArgs = .ok (c', some owner))
    (hp : p.catalog = c') (name : String) :
    FailsOnly Failure.OfRequest (p.resolveTarget m name owner r.target) := by
  subst hp
  cases htarget : r.target with
  | type => exact failsOnly_ok _
  | method id args =>
    obtain ⟨t, o, x, ht, ho, hto, hx, rfl⟩ := hn.exists_method hd h htarget
    have hdecl : x.declaringType = o.type.id := by
      obtain ⟨e, ⟨_, _, _, _⟩⟩ := hm.exists_declares
        (List.mem_of_getElem? (Metadata.typeDef_eq_ok_iff.1 ht)) hx.found hx.mem
      exact hto
    rw [resolveTarget]
    split
    · rename_i e he
      exact failsOnly_error (.method name
        (Catalog.failsOnly_resolveMethod ho hx.found hdecl args e he))
    · exact failsOnly_ok _
    · rw [hx.found]
      exact failsOnly_ok _
  | field index =>
    obtain ⟨t, o, f, ht, _, ho, hto, hf⟩ := hn.exists_field hd h htarget
    rw [resolveTarget]
    split
    · rename_i e he
      exact failsOnly_error (.field name (Catalog.failsOnly_resolveField ho ht hto hf.found e he))
    · exact failsOnly_ok _

theorem Progress.failsOnly_resolve (hm : m.Holds ds) (hn : p.catalog.Named m) (hd : d.Asks m r) :
    FailsOnly Failure.OfRequest (p.resolve m r) := by
  obtain ⟨t, ht, hid, hargs⟩ := hd.exists_type
  have htype : m.typeDef r.type = .ok t := by
    rw [← hid]
    exact ht
  rw [resolve, htype]
  dsimp only
  split
  · rename_i e he
    rw [← hid] at he
    exact failsOnly_error (.library (Catalog.failsOnly_resolveType _ ht hargs e he))
  · exact failsOnly_ok _
  · rename_i h
    exact failsOnly_resolveTarget hm hn hd h rfl t.fullName

/-- One request after the other, the invariant is kept and no other failure occurs. -/
theorem Progress.failsOnly_resolveAll (hm : m.Holds ds) {rs : List Request}
    (hr : ∀ r ∈ rs, ∃ d : RequestDecl, d.Asks m r) (hn : p.catalog.Named m) :
    FailsOnly Failure.OfRequest (rs.foldlM (Progress.resolve m) p) := by
  induction rs generalizing p with
  | nil => exact failsOnly_ok p
  | cons r rs ih =>
    rw [List.forall_mem_cons] at hr
    obtain ⟨d, hd⟩ := hr.1
    rw [List.foldlM_cons]
    exact (failsOnly_resolve hm hn hd).bind fun q hq =>
      ih hr.2 (hn.resolved hd (resolved_of_ok hq))

theorem Catalog.Named.resolvedAll {rs : List Request} (h : ResolvedAll m c rs c')
    (hr : ∀ r ∈ rs, ∃ d : RequestDecl, d.Asks m r) (hn : c.Named m) : c'.Named m := by
  induction h with
  | nil => exact hn
  | cons h₁ _ ih =>
    rw [List.forall_mem_cons] at hr
    obtain ⟨d, hd⟩ := hr.1
    exact ih hr.2 (hn.resolved hd h₁)

end Requests

namespace Snapshot

variable {s : Snapshot} {l : Loaded}

/-- The requests of a snapshot that builds get records of what they name, and what can go wrong is
the fault of a request or of a definition. -/
theorem resolves_consistently (h : s.build = .ok l) :
    List.Forall₂ (RequestDecl.Asks l.metadata) s.requests l.requests ∧
    (∀ (done rest : List Request) (r : Request) (p : Progress), l.requests = done ++ r :: rest →
      done.foldlM (Progress.resolve l.metadata) .start = .ok p →
        r.GetsOwn l.metadata p.catalog ∧
        FailsOnly Failure.OfRequest (p.resolve l.metadata r)) ∧
    FailsOnly Failure.OfRequest l.resolveAll := by
  have hd := describes_of_build h
  have hempty : Catalog.Named l.metadata ∅ :=
    Catalog.named_empty ((reaches_build h).coherent Session.coherent_start)
  have hasks (r : Request) (hr : r ∈ l.requests) : ∃ d : RequestDecl, d.Asks l.metadata r := by
    obtain ⟨d, _, hd⟩ := exists_left_of_forall₂ hd.requests hr
    exact ⟨d, hd⟩
  refine ⟨hd.requests, ?_, Progress.failsOnly_resolveAll hd.definitions hasks hempty⟩
  intro done rest r p hsplit hp
  have hdone : ∀ r ∈ done, ∃ d : RequestDecl, d.Asks l.metadata r := by
    intro r hr
    refine hasks r ?_
    rw [hsplit]
    exact List.mem_append_left _ hr
  obtain ⟨d, hr⟩ := hasks r (by simp [hsplit])
  have hn : p.catalog.Named l.metadata :=
    hempty.resolvedAll (foldlM_resolve_ok_iff.1 ⟨p, hp, rfl⟩) hdone
  exact ⟨hn.getsOwn hr, Progress.failsOnly_resolve hd.definitions hn hr⟩

/-- A type with two fields of one name, and a method with a parameter of its own. The last of the
requests gives that parameter no argument. -/
def fieldsSnapshot : Snapshot where
  types := [⟨"Demo", "Box", false, false, 1,
    [⟨"value", .typeParam 0 none, false⟩, ⟨"value", .primitive .string, true⟩],
    [⟨"Map", ⟨0x20⟩, ⟨6⟩, 1, .methodParam 0, [], none, none⟩]⟩]
  requests := [⟨"Demo.Box", [.primitive .string], none, [], some "value"⟩,
    ⟨"Demo.Box", [.primitive .string], some "Map", [], none⟩]

/-- The field is the first one, although the second has the same key. The missing argument is the
only failure. -/
theorem resolves_consistently_fields : ∃ l p o i, fieldsSnapshot.build = .ok l ∧
    (l.requests.take 1).foldlM (Progress.resolve l.metadata) .start = .ok p ∧
    p.catalog.fieldInstance 0 = .ok i ∧
    FieldInstance.make o ⟨"value", .typeParam 0 ⟨0, "Demo", "Box", false⟩, false⟩ = .ok i ∧
    i.owner.args = [.primitive .string] ∧ l.resolveAll =
      .error (.method "Demo.Box" (.argCountMismatch "Map" 1 0)) ∧
    Failure.OfRequest (.method "Demo.Box" (.argCountMismatch "Map" 1 0)) := by
  obtain ⟨_, hrequests, hfails⟩ := resolves_consistently (s := fieldsSnapshot) rfl
  obtain ⟨hgets, _⟩ := hrequests [] _ _ .start rfl rfl
  obtain ⟨o, t, f, i, ho, ht, hf, hi, hmake⟩ := hgets.field rfl rfl rfl
  cases ho
  cases ht
  cases hf
  cases hi
  exact ⟨_, _, _, _, rfl, rfl, rfl, hmake, rfl, rfl, hfails _ rfl⟩

end Snapshot
end Monomorph
