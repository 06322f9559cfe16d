import Monomorph.Proofs.Metadata.Lookup
import Monomorph.Proofs.Snapshot.Build

/-!
# Monomorph.Proofs.Snapshot.Acceptance

Which snapshots build.

What is accepted is said of the declarations alone: `NamedSig.nodes` lists a signature and all that
is inside it, and `Snapshot.Acceptable` what has to hold of the names and parameters among them.

* `Metadata.exists_sigOf_iff`: a signature is found iff each of its nodes fits the scope.
* `exists_foldlM_ok_iff`: steps succeed one after the other iff each of them can.
* `Metadata.exists_addContents_iff`: a type gets its contents iff they are sound.
* `Metadata.Holds.exists_requestOf_iff`: a request is found iff the declarations answer it.
* `Snapshot.build_ok_iff`: a snapshot builds iff it is acceptable.
-/

namespace Monomorph

/-! ## What is accepted -/

namespace NamedSig

mutual

/-- The signature, and everything inside it. -/
def nodes : NamedSig → List NamedSig
  | .primitive p => [.primitive p]
  | .type name => [.type name]
  | .ptr next => .ptr next :: next.nodes
  | .byRef next => .byRef next :: next.nodes
  | .pinned next => .pinned next :: next.nodes
  | .szArray next => .szArray next :: next.nodes
  | .array element rank sizes lowerBounds =>
    .array element rank sizes lowerBounds :: element.nodes
  | .modReqd modifier next => .modReqd modifier next :: next.nodes
  | .modOpt modifier next => .modOpt modifier next :: next.nodes
  | .genericInst generic args => .genericInst generic args :: nodesOfList args
  | .typeParam number owner => [.typeParam number owner]
  | .methodParam number => [.methodParam number]
  | .unsupported e => [.unsupported e]

def nodesOfList : List NamedSig → List NamedSig
  | [] => []
  | d :: rest => d.nodes ++ nodesOfList rest

end

/-- The full name that a node mentions, of a type, a modifier, a generic type or an owner. -/
def name? : NamedSig → Option String
  | .type name => some name
  | .modReqd modifier _ => some modifier
  | .modOpt modifier _ => some modifier
  | .genericInst generic _ => some generic
  | .typeParam _ owner => owner
  | _ => none

/-- Every type that the signature mentions has one of the names. -/
def Defined (names : List String) (d : NamedSig) : Prop :=
  ∀ x ∈ d.nodes, ∀ name ∈ x.name?, name ∈ names

/-- No parameter of a method occurs. -/
def NoMethodParam (d : NamedSig) : Prop :=
  ∀ number, .methodParam number ∉ d.nodes

/-- No type parameter occurs without its owner. -/
def NoBareParam (d : NamedSig) : Prop :=
  ∀ number, .typeParam number none ∉ d.nodes

/-- What the node mentions has one of the names, and what it leaves to the scope is there. -/
@[mk_iff]
structure Fits (names : List String) (scope : Scope) (x : NamedSig) : Prop where
  defined : ∀ name ∈ x.name?, name ∈ names
  methodParam : scope.method = none → ∀ number, x ≠ .methodParam number
  typeParam : scope.type = none → ∀ number, x ≠ .typeParam number none

/-- The signature may stand outside of types and methods. -/
structure Standalone (names : List String) (d : NamedSig) : Prop where
  defined : d.Defined names
  noMethodParam : d.NoMethodParam
  noBareParam : d.NoBareParam

end NamedSig

/-- The signatures of a method: return type, parameters, those behind the sentinel, locals and
types of caught exceptions. -/
def MethodDecl.signatures (d : MethodDecl) : List NamedSig :=
  d.ret :: (d.params ++ d.sentinel.getD [] ++
    (d.body.map fun b => b.locals ++ b.handlers.filterMap HandlerDecl.catchType).getD [])

def TypeDecl.signatures (d : TypeDecl) : List NamedSig :=
  d.fields.map FieldDecl.type ++ d.methods.flatMap MethodDecl.signatures

/-- What a type declares mentions no other names, and its fields mention no parameters of methods. -/
structure TypeDecl.Sound (names : List String) (d : TypeDecl) : Prop where
  defined : ∀ x ∈ d.signatures, x.Defined names
  fields : ∀ f ∈ d.fields, f.type.NoMethodParam

/-- The type has what the request is for: a method that is the only one of its name, or else a
field. -/
def RequestDecl.AimsAt (names : List String) (r : RequestDecl) (d : TypeDecl) : Prop :=
  match r.method, r.field with
  | some name, _ =>
    (d.methods.map MethodDecl.name).count name = 1 ∧ ∀ a ∈ r.methodArgs, a.Standalone names
  | none, some name => name ∈ d.fields.map FieldDecl.name
  | none, none => True

/-- The request is for a declared type, for what the type has, and with arguments that may stand
alone. -/
def RequestDecl.Answerable (ds : List TypeDecl) (r : RequestDecl) : Prop :=
  ∃ d ∈ ds, d.fullName = r.type ∧
    (∀ a ∈ r.typeArgs, a.Standalone (ds.map TypeDecl.fullName)) ∧
    r.AimsAt (ds.map TypeDecl.fullName) d

/-- The types have different full names, are sound, and answer every request. -/
structure Snapshot.Acceptable (s : Snapshot) : Prop where
  fullNames : (s.types.map TypeDecl.fullName).Nodup
  types : ∀ d ∈ s.types, d.Sound (s.types.map TypeDecl.fullName)
  requests : ∀ r ∈ s.requests, r.Answerable s.types

namespace NamedSig

variable {names : List String} {scope : Scope} {d : NamedSig}

theorem forall_fits_iff :
    (∀ x ∈ d.nodes, x.Fits names scope) ↔
      d.Defined names ∧ (scope.method = none → d.NoMethodParam) ∧
        (scope.type = none → d.NoBareParam) := by
  constructor
  · intro h
    exact ⟨fun x hx => (h x hx).defined, fun hs number hx => (h _ hx).methodParam hs number rfl,
      fun hs number hx => (h _ hx).typeParam hs number rfl⟩
  · rintro ⟨hd, hm, ht⟩ x hx
    refine ⟨hd x hx, ?_, ?_⟩
    · rintro hs number rfl
      exact hm hs number hx
    · rintro hs number rfl
      exact ht hs number hx

end NamedSig

theorem TypeDecl.sound_iff {names : List String} {d : TypeDecl} :
    d.Sound names ↔ (∀ f ∈ d.fields, f.type.Defined names ∧ f.type.NoMethodParam) ∧
      ∀ x ∈ d.methods, ∀ e ∈ x.signatures, e.Defined names := by
  have hsignatures : (∀ x ∈ d.signatures, x.Defined names) ↔
      (∀ f ∈ d.fields, f.type.Defined names) ∧
        ∀ x ∈ d.methods, ∀ e ∈ x.signatures, e.Defined names := by
    rw [signatures, List.forall_mem_append, List.forall_mem_map, List.forall_mem_flatMap]
  constructor
  · rintro ⟨hdefined, hfields⟩
    obtain ⟨hf, hx⟩ := hsignatures.1 hdefined
    exact ⟨fun f hm => ⟨hf f hm, hfields f hm⟩, hx⟩
  · rintro ⟨hf, hx⟩
    exact ⟨hsignatures.2 ⟨fun f hm => (hf f hm).1, hx⟩, fun f hm => (hf f hm).2⟩

theorem TypeDecl.Declares.fullName {m : Metadata} {d : TypeDecl} {t : TypeDef}
    (h : d.Declares m t) : t.fullName = d.fullName := by
  cases h
  rfl

/-! ## Results -/

theorem exists_bind_const_iff {ε α β : Type} {r : Except ε α} {f : α → Except ε β} {p : Prop}
    (h : ∀ a, r = .ok a → ((∃ b, f a = .ok b) ↔ p)) :
    (∃ b, (r >>= f) = .ok b) ↔ (∃ a, r = .ok a) ∧ p := by
  rw [exists_bind_ok_iff]
  constructor
  · rintro ⟨a, ha, hb⟩
    exact ⟨⟨a, ha⟩, (h a ha).1 hb⟩
  · rintro ⟨⟨a, ha⟩, hp⟩
    exact ⟨a, ha, (h a ha).2 hp⟩

theorem exists_bind_pure_iff {ε α β : Type} {r : Except ε α} {f : α → β} :
    (∃ b, (r >>= fun a => pure (f a)) = .ok b) ↔ ∃ a, r = .ok a := by
  rw [exists_bind_ok_iff]
  exact ⟨fun ⟨a, ha, _⟩ => ⟨a, ha⟩, fun ⟨a, ha⟩ => ⟨a, ha, _, rfl⟩⟩

theorem map_eq_map_of_forall₂ {α β γ : Type} {f : α → γ} {g : β → γ} {xs : List α} {ys : List β}
    (h : List.Forall₂ (fun x y => f x = g y) xs ys) : xs.map f = ys.map g := by
  rwa [← List.forall₂_eq_eq_eq, List.forall₂_map_left_iff, List.forall₂_map_right_iff]

section Steps

variable {ε σ δ τ : Type} {step : σ → δ → Except ε σ} (g : σ → τ)

theorem foldlM_keeps (hkeep : ∀ m d n, step m d = .ok n → g n = g m) {ds : List δ} {m n : σ}
    (h : ds.foldlM step m = .ok n) : g n = g m := by
  induction ds generalizing m with
  | nil =>
    cases h
    rfl
  | cons d ds ih =>
    rw [List.foldlM_cons] at h
    obtain ⟨m₁, h₁, h⟩ := exists_of_bind_ok h
    rw [ih h, hkeep m d m₁ h₁]

/-- Steps succeed one after the other iff each of them can, if what decides about it is left as it
is by all of them. -/
theorem exists_foldlM_ok_iff {t : τ} {P : δ → Prop} (ds : List δ)
    (hstep : ∀ m, ∀ d ∈ ds, g m = t → ((∃ n, step m d = .ok n) ↔ P d))
    (hkeep : ∀ m d n, step m d = .ok n → g n = g m) {m : σ} (hm : g m = t) :
    (∃ n, ds.foldlM step m = .ok n) ↔ ∀ d ∈ ds, P d := by
  induction ds generalizing m with
  | nil => simp [pure, Except.pure]
  | cons d ds ih =>
    rw [List.foldlM_cons, List.forall_mem_cons, ← hstep m d List.mem_cons_self hm]
    refine exists_bind_const_iff fun n hn => ?_
    exact ih (fun m e he => hstep m e (List.mem_cons_of_mem _ he)) ((hkeep m d n hn).trans hm)

end Steps

namespace Metadata

variable {m n : Metadata} {names : List String} {scope : Scope} {type : TypeDefId}

/-! ## Names -/

/-- The full names of the types, in order. -/
def fullNames (m : Metadata) : List String :=
  m.types.map TypeDef.fullName

theorem exists_findType_iff {name : String} :
    (∃ id, m.findType name = .ok id) ↔ name ∈ m.fullNames := by
  rw [findType, fullNames]
  cases h : m.findType? name with
  | none => simpa using findType?_eq_none_iff.1 h
  | some id =>
    refine iff_of_true ⟨id, rfl⟩ ?_
    by_contra hn
    rw [findType?_eq_none_iff.2 hn] at h
    cases h

theorem exists_typeDef_of_findType {name : String} {id : TypeDefId} (h : m.findType name = .ok id) :
    ∃ t, m.typeDef id = .ok t := by
  rw [findType] at h
  split at h
  · rename_i hf
    cases h
    obtain ⟨t, ht, _⟩ := exists_of_findType?_some hf
    exact ⟨t, ht⟩
  · cases h

theorem exists_refNamed_iff {name : String} :
    (∃ r, m.refNamed name = .ok r) ↔ name ∈ m.fullNames := by
  rw [refNamed, exists_bind_const_iff (p := True), and_true, exists_findType_iff]
  intro id hid
  obtain ⟨t, ht⟩ := exists_typeDef_of_findType hid
  rw [ht]
  exact iff_of_true ⟨_, rfl⟩ trivial

theorem exists_sigNamed_iff {name : String} :
    (∃ s, m.sigNamed name = .ok s) ↔ name ∈ m.fullNames := by
  rw [sigNamed, exists_bind_const_iff (p := True), and_true, exists_findType_iff]
  intro id hid
  obtain ⟨t, ht⟩ := exists_typeDef_of_findType hid
  rw [ht]
  exact iff_of_true ⟨_, rfl⟩ trivial

/-! ## Signatures -/

theorem exists_paramOwner_iff (hs : ∀ id ∈ scope.type, ∃ t, m.typeDef id = .ok t) (number : Nat)
    (owner : Option String) :
    (∃ r, m.paramOwner scope number owner = .ok r) ↔
      (NamedSig.typeParam number owner).Fits m.fullNames scope := by
  cases owner with
  | some name =>
    rw [paramOwner, exists_refNamed_iff]
    simp [NamedSig.fits_iff, NamedSig.name?]
  | none =>
    cases h : scope.type with
    | none => simp [paramOwner, NamedSig.fits_iff, h]
    | some id =>
      obtain ⟨t, ht⟩ := hs id h
      simp [paramOwner, NamedSig.fits_iff, NamedSig.name?, h, ht, Except.map]

/-! What is mentioned is found first, and what is inside comes after it. -/

theorem sigOf_modReqd (modifier : String) (d : NamedSig) :
    m.sigOf scope (.modReqd modifier d) =
      (m.refNamed modifier >>= fun ref => (m.sigOf scope d).map (.modReqd ref)) := by
  rw [sigOf]
  cases m.refNamed modifier <;> rfl

theorem sigOf_modOpt (modifier : String) (d : NamedSig) :
    m.sigOf scope (.modOpt modifier d) =
      (m.refNamed modifier >>= fun ref => (m.sigOf scope d).map (.modOpt ref)) := by
  rw [sigOf]
  cases m.refNamed modifier <;> rfl

theorem sigOf_genericInst (generic : String) (ds : List NamedSig) :
    m.sigOf scope (.genericInst generic ds) =
      (m.sigNamed generic >>= fun s => (m.sigsOf scope ds).map (.genericInst s)) := by
  rw [sigOf]
  cases m.sigNamed generic <;> rfl

theorem sigsOf_cons (d : NamedSig) (ds : List NamedSig) :
    m.sigsOf scope (d :: ds) =
      (m.sigOf scope d >>= fun s => (m.sigsOf scope ds).map (s :: ·)) := by
  rw [sigsOf]
  cases m.sigOf scope d <;> rfl

/-- A signature is found iff each of its nodes fits. -/
theorem exists_sigOf_iff (hs : ∀ id ∈ scope.type, ∃ t, m.typeDef id = .ok t) (d : NamedSig) :
    (∃ s, m.sigOf scope d = .ok s) ↔ ∀ x ∈ d.nodes, x.Fits m.fullNames scope := by
  induction d using NamedSig.rec
    (motive_2 := fun ds => (∃ ss, m.sigsOf scope ds = .ok ss) ↔
      ∀ x ∈ NamedSig.nodesOfList ds, x.Fits m.fullNames scope) with
  | primitive p => simp [sigOf, NamedSig.nodes, NamedSig.fits_iff, NamedSig.name?]
  | type name =>
    rw [sigOf, exists_sigNamed_iff]
    simp [NamedSig.nodes, NamedSig.fits_iff, NamedSig.name?]
  | ptr next ih | byRef next ih | pinned next ih | szArray next ih | array next _ _ _ ih =>
    rw [sigOf, exists_map_ok_iff, ih, NamedSig.nodes, List.forall_mem_cons]
    simp [NamedSig.fits_iff, NamedSig.name?]
  | modReqd modifier next ih =>
    rw [sigOf_modReqd, exists_bind_const_iff fun _ _ => exists_map_ok_iff, ih,
      exists_refNamed_iff, NamedSig.nodes, List.forall_mem_cons]
    simp [NamedSig.fits_iff, NamedSig.name?]
  | modOpt modifier next ih =>
    rw [sigOf_modOpt, exists_bind_const_iff fun _ _ => exists_map_ok_iff, ih,
      exists_refNamed_iff, NamedSig.nodes, List.forall_mem_cons]
    simp [NamedSig.fits_iff, NamedSig.name?]
  | genericInst generic args ih =>
    rw [sigOf_genericInst, exists_bind_const_iff fun _ _ => exists_map_ok_iff, ih,
      exists_sigNamed_iff, NamedSig.nodes, List.forall_mem_cons]
    simp [NamedSig.fits_iff, NamedSig.name?]
  | typeParam number owner =>
    rw [sigOf, exists_map_ok_iff, exists_paramOwner_iff hs, NamedSig.nodes]
    simp
  | methodParam number =>
    cases h : scope.method with
    | none => simp [sigOf, NamedSig.nodes, NamedSig.fits_iff, h]
    | some id => simp [sigOf, NamedSig.nodes, NamedSig.fits_iff, NamedSig.name?, h]
  | unsupported e => simp [sigOf, NamedSig.nodes, NamedSig.fits_iff, NamedSig.name?]
  | nil => simp [sigsOf, NamedSig.nodesOfList]
  | cons d ds ihd ihds =>
    rw [sigsOf_cons, exists_bind_const_iff fun _ _ => exists_map_ok_iff, ihd, ihds,
      NamedSig.nodesOfList, List.forall_mem_append]

theorem exists_typeDef_iff : (∃ t, m.typeDef type = .ok t) ↔ type < m.fullNames.length := by
  simp only [typeDef_eq_ok_iff, fullNames, List.length_map]
  rw [← Option.isSome_iff_exists, isSome_getElem?]

theorem exists_sigOf_inMethod_iff (h : type < m.fullNames.length) (method : MethodDefId)
    (d : NamedSig) :
    (∃ s, m.sigOf (.inMethod type method) d = .ok s) ↔ d.Defined m.fullNames := by
  rw [exists_sigOf_iff, NamedSig.forall_fits_iff]
  · simp [Scope.inMethod]
  · rintro _ ⟨⟩
    exact exists_typeDef_iff.2 h

theorem exists_sigOf_inType_iff (h : type < m.fullNames.length) (d : NamedSig) :
    (∃ s, m.sigOf (.inType type) d = .ok s) ↔ d.Defined m.fullNames ∧ d.NoMethodParam := by
  rw [exists_sigOf_iff, NamedSig.forall_fits_iff]
  · simp [Scope.inType]
  · rintro _ ⟨⟩
    exact exists_typeDef_iff.2 h

theorem exists_sigOf_outside_iff (d : NamedSig) :
    (∃ s, m.sigOf .outside d = .ok s) ↔ d.Standalone m.fullNames := by
  have hs : ∀ id ∈ Scope.outside.type, ∃ t, m.typeDef id = .ok t := by
    rintro _ ⟨⟩
  rw [exists_sigOf_iff hs, NamedSig.forall_fits_iff]
  simp only [Scope.outside, forall_const]
  exact ⟨fun ⟨hd, hm, hb⟩ => ⟨hd, hm, hb⟩, fun ⟨hd, hm, hb⟩ => ⟨hd, hm, hb⟩⟩

/-! ## Declarations -/

section Declarations

variable {P : NamedSig → Prop} (h : ∀ d, (∃ s, m.sigOf scope d = .ok s) ↔ P d)

include h

theorem exists_sigsOf_iff (ds : List NamedSig) :
    (∃ ss, m.sigsOf scope ds = .ok ss) ↔ ∀ d ∈ ds, P d := by
  rw [sigsOf_eq_mapM, exists_mapM_ok_iff]
  simp only [h]

theorem exists_handlerOf_iff (d : HandlerDecl) :
    (∃ x, m.handlerOf scope d = .ok x) ↔ ∀ e ∈ d.catchType, P e := by
  have hopt : (∃ x, m.sigOf? scope d.catchType = .ok x) ↔ ∀ e ∈ d.catchType, P e := by
    cases d.catchType with
    | none => simp [sigOf?]
    | some e =>
      rw [sigOf?, exists_map_ok_iff, h]
      simp
  rw [handlerOf, exists_bind_pure_iff, hopt]

theorem exists_bodyOf_iff (d : BodyDecl) :
    (∃ x, m.bodyOf scope d = .ok x) ↔
      ∀ e ∈ d.locals ++ d.handlers.filterMap HandlerDecl.catchType, P e := by
  have hhandlers : (∀ x ∈ d.handlers, ∀ e ∈ x.catchType, P e) ↔
      ∀ e ∈ d.handlers.filterMap HandlerDecl.catchType, P e := by
    simp only [List.mem_filterMap]
    exact ⟨fun hx e ⟨x, hm, he⟩ => hx x hm e he, fun he x hm e hx => he e ⟨x, hm, hx⟩⟩
  rw [bodyOf, exists_bind_const_iff fun _ _ => exists_bind_pure_iff, exists_sigsOf_iff h,
    exists_mapM_ok_iff, List.forall_mem_append, ← hhandlers]
  simp only [exists_handlerOf_iff h]

theorem exists_bodyOf?_iff (d : Option BodyDecl) :
    (∃ x, m.bodyOf? scope d = .ok x) ↔
      ∀ e ∈ (d.map fun b => b.locals ++ b.handlers.filterMap HandlerDecl.catchType).getD [],
        P e := by
  cases d with
  | none => simp [bodyOf?]
  | some b =>
    rw [bodyOf?, exists_map_ok_iff, exists_bodyOf_iff h]
    rfl

theorem exists_methodSigOf_iff (d : MethodDecl) :
    (∃ x, m.methodSigOf scope d = .ok x) ↔
      P d.ret ∧ (∀ e ∈ d.params, P e) ∧ ∀ e ∈ d.sentinel.getD [], P e := by
  have hopt : (∃ x, m.sigsOf? scope d.sentinel = .ok x) ↔ ∀ e ∈ d.sentinel.getD [], P e := by
    cases d.sentinel with
    | none => simp [sigsOf?]
    | some ds =>
      rw [sigsOf?, exists_map_ok_iff, exists_sigsOf_iff h]
      rfl
  rw [methodSigOf, exists_bind_const_iff fun _ _ => exists_bind_const_iff fun _ _ =>
    exists_bind_pure_iff, hopt, h, exists_sigsOf_iff h]

end Declarations

/-! ## Contents -/

theorem fullNames_withType (type : TypeDefId) {f : TypeDef → TypeDef}
    (hf : ∀ t, (f t).fullName = t.fullName) : (m.withType type f).fullNames = m.fullNames :=
  map_withType m type hf

section Contents

variable (hm : m.fullNames = names) (h : type < names.length)

include hm h

theorem exists_addFieldDecl_iff (d : FieldDecl) :
    (∃ n, addFieldDecl type m d = .ok n) ↔ d.type.Defined names ∧ d.type.NoMethodParam := by
  subst hm
  rw [← exists_sigOf_inType_iff h, addFieldDecl, exists_bind_const_iff (p := True), and_true]
  intro s _
  rw [addField, exists_bind_pure_iff, exists_typeDef_iff]
  exact iff_of_true h trivial

theorem exists_addMethodDecl_iff (d : MethodDecl) :
    (∃ n, addMethodDecl type m d = .ok n) ↔ ∀ e ∈ d.signatures, e.Defined names := by
  subst hm
  have hsig := exists_sigOf_inMethod_iff h m.nextMethodId
  have hadd (sig : MethodSig) (body : Option MethodBody) :
      (∃ r, m.addMethod type d.name sig d.attributes body = .ok r) ↔ True := by
    rw [addMethod, exists_bind_pure_iff, exists_typeDef_iff]
    exact iff_of_true h trivial
  rw [addMethodDecl, exists_bind_const_iff fun sig _ => exists_bind_const_iff fun body _ =>
      (exists_bind_pure_iff (f := Prod.fst)).trans (hadd sig body),
    exists_methodSigOf_iff hsig, exists_bodyOf?_iff hsig, MethodDecl.signatures,
    List.forall_mem_cons, List.forall_mem_append, List.forall_mem_append]
  simp only [and_true, and_assoc]

end Contents

theorem fullNames_addFieldDecl {d : FieldDecl} (h : addFieldDecl type m d = .ok n) :
    n.fullNames = m.fullNames := by
  obtain ⟨s, _, h⟩ := exists_of_bind_ok h
  rw [addField_ok h]
  exact fullNames_withType type fun _ => rfl

theorem fullNames_addMethodDecl {d : MethodDecl} (h : addMethodDecl type m d = .ok n) :
    n.fullNames = m.fullNames := by
  obtain ⟨sig, _, h⟩ := exists_of_bind_ok h
  obtain ⟨body, _, h⟩ := exists_of_bind_ok h
  obtain ⟨⟨n', id⟩, hn, h⟩ := exists_of_bind_ok h
  cases h
  obtain ⟨_, rfl⟩ := addMethod_ok hn
  exact fullNames_withType type fun _ => rfl

theorem fullNames_addContents {d : TypeDecl} (h : m.addContents (d, type) = .ok n) :
    n.fullNames = m.fullNames := by
  obtain ⟨m₁, h₁, h₂⟩ := exists_of_bind_ok h
  rw [foldlM_keeps fullNames (fun _ _ _ => fullNames_addMethodDecl) h₂,
    foldlM_keeps fullNames (fun _ _ _ => fullNames_addFieldDecl) h₁]

/-- The contents of a type are added iff they are sound. -/
theorem exists_addContents_iff (hm : m.fullNames = names) (h : type < names.length)
    (d : TypeDecl) : (∃ n, m.addContents (d, type) = .ok n) ↔ d.Sound names := by
  have hfields := exists_foldlM_ok_iff fullNames d.fields
    (fun m f _ hm => exists_addFieldDecl_iff hm h f) (fun _ _ _ => fullNames_addFieldDecl) hm
  have hmethods {n : Metadata} (hn : n.fullNames = names) :=
    exists_foldlM_ok_iff fullNames d.methods
      (fun m f _ hm => exists_addMethodDecl_iff hm h f) (fun _ _ _ => fullNames_addMethodDecl) hn
  rw [addContents, exists_bind_const_iff fun n hn => hmethods
    ((foldlM_keeps fullNames (fun _ _ _ => fullNames_addFieldDecl) hn).trans hm), hfields,
    TypeDecl.sound_iff]

/-! ## Types -/

theorem exists_addTypeDecl_iff {d : TypeDecl} :
    (∃ n, m.addTypeDecl d = .ok n) ↔ d.fullName ∉ m.fullNames := by
  rw [addTypeDecl, exists_map_ok_iff, addType, fullNames, ← findType?_eq_none_iff,
    TypeDecl.fullName]
  cases m.findType? (qualifiedName d.nameSpace d.name) with
  | none => simp
  | some id => simp

theorem fullNames_addTypeDecl {d : TypeDecl} (h : m.addTypeDecl d = .ok n) :
    n.fullNames = m.fullNames ++ [d.fullName] := by
  obtain ⟨⟨_, id⟩, hadd, rfl⟩ := exists_of_map_ok h
  obtain ⟨_, _, rfl⟩ := addType_ok hadd
  exact List.map_append

/-- All types are added iff their full names are new and different from each other. -/
theorem exists_addTypeDecls_iff {ds : List TypeDecl} (hm : m.fullNames.Nodup) :
    (∃ n, ds.foldlM addTypeDecl m = .ok n) ↔
      (m.fullNames ++ ds.map TypeDecl.fullName).Nodup := by
  induction ds generalizing m with
  | nil => simp [pure, Except.pure, hm]
  | cons d ds ih =>
    rw [List.foldlM_cons, List.map_cons, exists_bind_const_iff, exists_addTypeDecl_iff,
      and_iff_right_of_imp]
    · intro hnodup hd
      exact List.disjoint_of_nodup_append hnodup hd List.mem_cons_self
    · intro n hn
      have hnew := exists_addTypeDecl_iff.1 ⟨n, hn⟩
      have hnames := fullNames_addTypeDecl hn
      rw [ih (by rw [hnames]; exact nodup_concat hm hnew), hnames, List.append_assoc]
      rfl

/-! ## Requests -/

variable {ds : List TypeDecl} {d : TypeDecl} {t : TypeDef}

theorem Holds.fullNames (h : m.Holds ds) : m.fullNames = ds.map TypeDecl.fullName :=
  (map_eq_map_of_forall₂ (h.types.imp fun _ _ hd => hd.fullName.symm)).symm

section Targets

variable (hd : d.Declares m t) (ht : m.Has t)

include hd ht

theorem exists_findMethod_iff (name : String) :
    (∃ id, m.findMethod t.id name = .ok id) ↔ (d.methods.map MethodDecl.name).count name = 1 := by
  have hcount : (t.methods.filter (m.isMethodNamed name)).length =
      (d.methods.map MethodDecl.name).count name := by
    obtain ⟨_, hmethods, hfound⟩ := hd
    rename_i methods _
    have hnames : d.methods.map MethodDecl.name = methods.map MethodDef.name :=
      map_eq_map_of_forall₂ (hmethods.imp fun e x hx => by cases hx; rfl)
    rw [hnames, List.count, List.countP_map, List.countP_eq_length_filter, List.filter_map,
      List.length_map]
    refine congrArg List.length (List.filter_congr fun x hx => ?_)
    show m.isMethodNamed name x.id = (x.name == name)
    rw [isMethodNamed, methodDef_eq_ok_iff.1 (hfound x hx)]
  rw [findMethod_eq ht, ← hcount]
  rcases t.methods.filter (m.isMethodNamed name) with _ | ⟨a, _ | ⟨b, rest⟩⟩
  · simp
  · simp
  · simp

theorem exists_findField_iff (name : String) :
    (∃ k, m.findField t.id name = .ok k) ↔ name ∈ d.fields.map FieldDecl.name := by
  have hnames : d.fields.map FieldDecl.name = t.fields.map FieldDef.name := by
    obtain ⟨hfields, _, _⟩ := hd
    exact map_eq_map_of_forall₂ (hfields.imp fun e x hx => by cases hx; rfl)
  have hfind : (t.fields.findIdx? (·.name == name)).isSome ↔ name ∈ t.fields.map FieldDef.name := by
    simp
  rw [hnames, ← hfind, findField, ht]
  cases h : t.fields.findIdx? (·.name == name) with
  | none => simp [bind, Except.bind, h]
  | some k => simp [bind, Except.bind, h]

theorem exists_targetOf_iff (r : RequestDecl) :
    (∃ x, m.targetOf t.id r = .ok x) ↔ r.AimsAt m.fullNames d := by
  rw [targetOf, RequestDecl.AimsAt]
  cases r.method with
  | some name =>
    simp only
    rw [exists_bind_const_iff fun _ _ => exists_bind_pure_iff, exists_findMethod_iff hd ht,
      exists_sigsOf_iff exists_sigOf_outside_iff]
  | none =>
    cases r.field with
    | some name =>
      simp only
      rw [exists_map_ok_iff, exists_findField_iff hd ht]
    | none => simp

theorem exists_rest_iff (r : RequestDecl) :
    (∃ x, (do
      let typeArgs ← m.sigsOf .outside r.typeArgs
      let target ← m.targetOf t.id r
      return (⟨t.id, typeArgs, target⟩ : Request)) = .ok x) ↔
      (∀ a ∈ r.typeArgs, a.Standalone m.fullNames) ∧ r.AimsAt m.fullNames d := by
  rw [exists_bind_const_iff fun _ _ => exists_bind_pure_iff,
    exists_sigsOf_iff exists_sigOf_outside_iff, exists_targetOf_iff hd ht]

end Targets

theorem Indexed.has_of_mem (hm : m.Indexed) (h : t ∈ m.types) : m.Has t := by
  obtain ⟨k, hk⟩ := List.mem_iff_getElem?.1 h
  exact (hm.has (typeDef_eq_ok_iff.2 hk)).1

/-- A full name leads to the type that is declared with it. -/
theorem Holds.findType_eq_ok_iff (h : m.Holds ds) {name : String} {id : TypeDefId} :
    m.findType name = .ok id ↔
      ∃ d ∈ ds, d.fullName = name ∧ ∃ t, d.Declares m t ∧ m.Has t ∧ t.id = id := by
  rw [Metadata.findType_eq_ok_iff h.indexed]
  constructor
  · rintro ⟨t, ht, rfl⟩
    obtain ⟨d, hmem, hd⟩ := h.exists_declared (List.mem_of_getElem? (typeDef_eq_ok_iff.1 ht))
    exact ⟨d, hmem, hd.fullName.symm, t, hd, h.indexed.has ht⟩
  · rintro ⟨d, _, rfl, t, hd, ht, rfl⟩
    exact ⟨t, ht, hd.fullName⟩

/-- A request is found iff the declarations answer it. -/
theorem Holds.exists_requestOf_iff (h : m.Holds ds) (r : RequestDecl) :
    (∃ x, m.requestOf r = .ok x) ↔ r.Answerable ds := by
  rw [requestOf, exists_bind_ok_iff, RequestDecl.Answerable, ← h.fullNames]
  constructor
  · rintro ⟨id, hid, hx⟩
    obtain ⟨d, hmem, hname, t, hd, ht, rfl⟩ := h.findType_eq_ok_iff.1 hid
    exact ⟨d, hmem, hname, (exists_rest_iff hd ht r).1 hx⟩
  · rintro ⟨d, hmem, hname, hx⟩
    obtain ⟨t, htm, hd⟩ := exists_right_of_forall₂ h.types hmem
    have ht := h.indexed.has_of_mem htm
    exact ⟨t.id, h.findType_eq_ok_iff.2 ⟨d, hmem, hname, t, hd, ht, rfl⟩,
      (exists_rest_iff hd ht r).2 hx⟩

end Metadata

namespace Snapshot

variable {s : Snapshot} {m : Metadata}

theorem exists_addContents_iff (h : s.types.foldlM Metadata.addTypeDecl ∅ = .ok m) :
    (∃ n, s.types.zipIdx.foldlM Metadata.addContents m = .ok n) ↔
      ∀ d ∈ s.types, d.Sound (s.types.map TypeDecl.fullName) := by
  have hnames : m.fullNames = s.types.map TypeDecl.fullName := by
    rw [(Metadata.holds_headings h).fullNames, List.map_map]
    rfl
  have hlt {d : TypeDecl × TypeDefId} (hd : d ∈ s.types.zipIdx) :
      d.2 < (s.types.map TypeDecl.fullName).length := by
    rw [List.length_map]
    exact (List.mem_zipIdx' hd).1
  rw [exists_foldlM_ok_iff Metadata.fullNames s.types.zipIdx
    (P := fun d => d.1.Sound (s.types.map TypeDecl.fullName))
    (fun _ d hd hm => Metadata.exists_addContents_iff hm (hlt hd) d.1)
    (fun _ _ _ => Metadata.fullNames_addContents) hnames]
  refine (List.forall_mem_map (f := Prod.fst)).symm.trans ?_
  rw [List.zipIdx_map_fst]

/-- A snapshot builds iff it is acceptable. -/
theorem build_ok_iff (s : Snapshot) : (∃ l, s.build = .ok l) ↔ s.Acceptable := by
  rw [build, exists_bind_const_iff (p := ∀ r ∈ s.requests, r.Answerable s.types), metadata,
    exists_bind_const_iff fun m hm => exists_addContents_iff hm,
    Metadata.exists_addTypeDecls_iff (m := ∅) List.nodup_nil]
  · constructor
    · rintro ⟨⟨hnodup, htypes⟩, hrequests⟩
      exact ⟨hnodup, htypes, hrequests⟩
    · rintro ⟨hnodup, htypes, hrequests⟩
      exact ⟨⟨hnodup, htypes⟩, hrequests⟩
  · intro m hm
    rw [exists_bind_pure_iff, exists_mapM_ok_iff]
    simp only [(holds_of_metadata hm).exists_requestOf_iff]

end Snapshot
end Monomorph
