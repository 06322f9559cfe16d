import Monomorph.Proofs.Metadata.Lookup

/-!
# Monomorph.Proofs.Metadata.InPlace

Definitions in tables that are changed in place: one of types, one of methods, and an index that
leads from full names to types. An addition writes to several of them one after the other, and a
failure stops it where it is and takes nothing back.

* `Tables.add_follows`: in place an addition does what it does as a function from one metadata to
  the next, and one that fails has written nothing.
* `Reached`: the metadata and the tables after any run of additions.
* `Reached.tables_consistent`: they agree, every look-up answers by what the definitions say, and no
  addition changes a definition that is there.
-/

namespace Monomorph

inductive Addition where
  | type (nameSpace name : String) (genericParams : Nat) (corlib valueType : Bool)
  | method (type : TypeDefId) (name : String) (sig : MethodSig) (attributes : MethodAttributes)
    (body : Option MethodBody)
  | field (type : TypeDefId) (field : FieldDef)

namespace Addition

/-- The type that is added to. -/
def type? : Addition → Option TypeDefId
  | .type .. => none
  | .method id .. => some id
  | .field id _ => some id

/-- The full name of the type that is added. -/
def fullName? : Addition → Option String
  | .type nameSpace name _ _ _ => some (qualifiedName nameSpace name)
  | _ => none

/-- The type that is added to is there. -/
def Fits (a : Addition) (m : Metadata) : Prop :=
  ∀ id ∈ a.type?, id < m.types.length

instance (a : Addition) (m : Metadata) : Decidable (a.Fits m) :=
  inferInstanceAs (Decidable (∀ id ∈ a.type?, id < m.types.length))

end Addition

namespace Metadata

/-- The metadata after an addition, with the number of what was added. -/
def add (m : Metadata) : Addition → Except Error (Metadata × Option Nat)
  | .type nameSpace name genericParams corlib valueType =>
    (m.addType nameSpace name genericParams corlib valueType).map fun (n, id) => (n, some id)
  | .method type name sig attributes body =>
    (m.addMethod type name sig attributes body).map fun (n, id) => (n, some id)
  | .field type field => (m.addField type field).map fun n => (n, none)

/-- The metadata after an addition, whether or not it succeeds. -/
def after (m : Metadata) (a : Addition) : Metadata :=
  match m.add a with
  | .ok (n, _) => n
  | .error _ => m

end Metadata

/-- The tables of types and methods, and the index of full names. -/
structure Tables where
  types : List TypeDef
  methods : List MethodDef
  names : Std.HashMap String TypeDefId

namespace Tables

/-! ## Additions in place -/

/-- A computation on tables that are changed in place, also by a computation that fails. -/
abbrev Program := EStateM Error Tables

def empty : Tables :=
  ⟨[], [], ∅⟩

/-- Enters a type under its full name, and then in its table. -/
def addType (nameSpace name : String) (genericParams : Nat) (corlib valueType : Bool) :
    Program TypeDefId := do
  let s ← get
  let id := s.types.length
  let fullName := qualifiedName nameSpace name
  if s.names.contains fullName then
    throw (.duplicateType fullName)
  else
    modify fun s => { s with names := s.names.insert fullName id }
    modify fun s => { s with
      types := s.types ++ [⟨id, nameSpace, name, corlib, valueType, genericParams, [], []⟩] }
    return id

def changeType (type : TypeDefId) (f : TypeDef → TypeDef) : Program Unit := do
  let s ← get
  if type < s.types.length then
    set { s with types := s.types.modify type f }
  else
    throw .outsideTable

/-- Enters a method in its table, and then in the list of its type. -/
def addMethod (type : TypeDefId) (name : String) (sig : MethodSig)
    (attributes : MethodAttributes) (body : Option MethodBody) : Program MethodDefId := do
  let s ← get
  let id := s.methods.length
  modify fun s => { s with methods := s.methods ++ [⟨id, type, name, sig, attributes, body⟩] }
  changeType type fun t => { t with methods := t.methods ++ [id] }
  return id

def addField (type : TypeDefId) (field : FieldDef) : Program Unit :=
  changeType type fun t => { t with fields := t.fields ++ [field] }

def add : Addition → Program (Option Nat)
  | .type nameSpace name genericParams corlib valueType => do
    return some (← addType nameSpace name genericParams corlib valueType)
  | .method type name sig attributes body => do
    return some (← addMethod type name sig attributes body)
  | .field type field => do
    addField type field
    return none

/-- The tables that an addition leaves behind, whether or not it succeeds. -/
def after (s : Tables) (a : Addition) : Tables :=
  match (add a).run s with
  | .ok _ t => t
  | .error _ t => t

/-! ## The same as a function -/

/-- The tables hold the metadata, and the index answers as a search does. -/
structure Agrees (s : Tables) (m : Metadata) : Prop where
  types : s.types = m.types
  methods : s.methods = m.methods
  names : ∀ fullName, s.names[fullName]? = m.findType? fullName

/-- In place the result is the same, in tables that agree; a failure leaves the tables it found. -/
inductive Follows (s : Tables) :
    Except Error (Metadata × Option Nat) → EStateM.Result Error Tables (Option Nat) → Prop where
  | ok {n : Metadata} {t : Tables} {answer : Option Nat} : t.Agrees n →
      Follows s (.ok (n, answer)) (.ok answer t)
  | error (e : Error) : Follows s (.error e) (.error e s)

theorem empty_agrees : empty.Agrees ∅ :=
  ⟨rfl, rfl, fun _ => Std.HashMap.getElem?_empty⟩

variable {s t : Tables} {m : Metadata}

theorem agrees_withType (h : s.Agrees m) (type : TypeDefId) (f : TypeDef → TypeDef)
    (hf : ∀ u : TypeDef, (f u).fullName = u.fullName) (methods : List MethodDef) :
    Agrees ⟨s.types.modify type f, methods, s.names⟩ { m.withType type f with methods := methods }
    := by
  refine ⟨by rw [h.types]; rfl, rfl, fun fullName => ?_⟩
  rw [h.names]
  -- a search by full name sees the full names alone
  have hsearch (n : Metadata) : n.findType? fullName =
      (n.types.map TypeDef.fullName).findIdx? (· == fullName) := by
    rw [List.findIdx?_map]
    rfl
  rw [hsearch m, hsearch { m.withType type f with methods := methods }]
  exact congrArg _ (Metadata.map_withType m type hf).symm

/-! ### What a program does -/

theorem run_bind_ok {α β : Type} {x : Program α} {f : α → Program β} {a : α}
    (h : x.run s = .ok a t) : (x >>= f).run s = (f a).run t := by
  rw [EStateM.run_bind, h]

theorem run_bind_error {α β : Type} {x : Program α} {f : α → Program β} {e : Error}
    (h : x.run s = .error e t) : (x >>= f).run s = .error e t := by
  rw [EStateM.run_bind, h]

theorem addType_run (s : Tables) (nameSpace name : String) (genericParams : Nat)
    (corlib valueType : Bool) :
    (addType nameSpace name genericParams corlib valueType).run s =
      if s.names.contains (qualifiedName nameSpace name) = true then
        .error (.duplicateType (qualifiedName nameSpace name)) s
      else .ok s.types.length ⟨s.types ++
        [⟨s.types.length, nameSpace, name, corlib, valueType, genericParams, [], []⟩], s.methods,
        s.names.insert (qualifiedName nameSpace name) s.types.length⟩ := by
  refine (run_bind_ok (s := s) (t := s) rfl).trans ?_
  show (if _ then _ else _ : Program TypeDefId) s = _
  split <;> rfl

theorem changeType_run {type : TypeDefId} (f : TypeDef → TypeDef) (h : type < s.types.length) :
    (changeType type f).run s = .ok () { s with types := s.types.modify type f } := by
  refine (run_bind_ok (s := s) (t := s) rfl).trans ?_
  rw [if_pos h]
  rfl

theorem addMethod_run {type : TypeDefId} (h : type < s.types.length) (name : String)
    (sig : MethodSig) (attributes : MethodAttributes) (body : Option MethodBody) :
    (addMethod type name sig attributes body).run s = .ok s.methods.length
      ⟨s.types.modify type fun t => { t with methods := t.methods ++ [s.methods.length] },
        s.methods ++ [⟨s.methods.length, type, name, sig, attributes, body⟩], s.names⟩ := by
  refine (run_bind_ok (s := s) (t := s) rfl).trans ?_
  refine (run_bind_ok rfl).trans ?_
  have hc := changeType_run (s := ⟨s.types,
    s.methods ++ [⟨s.methods.length, type, name, sig, attributes, body⟩], s.names⟩)
    (fun t => { t with methods := t.methods ++ [s.methods.length] }) h
  exact (run_bind_ok hc).trans rfl

/-! ### Step by step -/

theorem names_concat (h : s.Agrees m) (u : TypeDef)
    (hnew : m.findType? u.fullName = none) (fullName : String) :
    (s.names.insert u.fullName m.types.length)[fullName]? =
      Metadata.findType? ⟨m.types ++ [u], m.methods⟩ fullName := by
  rw [Metadata.findType?, List.findIdx?_append, Std.HashMap.getElem?_insert, h.names]
  show _ = (m.findType? fullName).or _
  rw [List.findIdx?_singleton]
  split
  · rename_i he
    rw [← eq_of_beq he, hnew]
    simp
  · simp

theorem add_follows (h : s.Agrees m) {a : Addition} (hf : a.Fits m) :
    Follows s (m.add a) ((add a).run s) := by
  cases a with
  | type nameSpace name genericParams corlib valueType =>
    have hrun := addType_run s nameSpace name genericParams corlib valueType
    rw [Std.HashMap.contains_eq_isSome_getElem?, h.names, h.types] at hrun
    rw [Metadata.add, Metadata.addType]
    cases hfind : m.findType? (qualifiedName nameSpace name) with
    | some id =>
      rw [hfind] at hrun
      rw [add, run_bind_error hrun]
      exact .error _
    | none =>
      rw [hfind] at hrun
      rw [add, run_bind_ok hrun]
      refine .ok ⟨rfl, h.methods, ?_⟩
      exact names_concat h
        ⟨m.types.length, nameSpace, name, corlib, valueType, genericParams, [], []⟩ hfind
  | method type name sig attributes body =>
    have hlt : type < m.types.length := hf type (Option.mem_some_self _)
    have htype := Metadata.typeDef_eq_ok_iff.2 (List.getElem?_eq_getElem hlt)
    rw [← h.types] at hlt
    rw [add, run_bind_ok (addMethod_run hlt name sig attributes body), Metadata.add,
      Metadata.addMethod, htype, h.methods]
    exact .ok (agrees_withType h type
      (fun t => { t with methods := t.methods ++ [m.methods.length] }) (fun _ => rfl) _)
  | field type field =>
    have hlt : type < m.types.length := hf type (Option.mem_some_self _)
    have htype := Metadata.typeDef_eq_ok_iff.2 (List.getElem?_eq_getElem hlt)
    rw [← h.types] at hlt
    rw [add, addField, run_bind_ok (changeType_run _ hlt), h.methods, Metadata.add,
      Metadata.addField, htype]
    exact .ok (agrees_withType h type
      (fun t => { t with fields := t.fields ++ [field] }) (fun _ => rfl) _)

/-- Whether or not an addition succeeds, what it leaves behind agrees. -/
theorem after_agrees (h : s.Agrees m) {a : Addition} (hf : a.Fits m) :
    (s.after a).Agrees (m.after a) := by
  have hfollows := add_follows h hf
  rw [after, Metadata.after]
  generalize m.add a = r at hfollows ⊢
  generalize (add a).run s = q at hfollows ⊢
  cases hfollows with
  | ok ht => exact ht
  | error e => exact h

end Tables

/-! ## Runs -/

/-- The metadata and the tables after a run of additions, each to a type that is there. -/
inductive Reached : Metadata → Tables → Prop where
  | empty : Reached ∅ .empty
  | add {m : Metadata} {s : Tables} (a : Addition) : Reached m s → a.Fits m →
      Reached (m.after a) (s.after a)

namespace Metadata

variable {m n : Metadata} {a : Addition}

theorem indexed_add (hm : m.Indexed) {answer : Option Nat} (h : m.add a = .ok (n, answer)) :
    n.Indexed := by
  cases a with
  | type nameSpace name genericParams corlib valueType =>
    obtain ⟨⟨n, id⟩, hn, h⟩ := exists_of_map_ok h
    cases h
    exact indexed_addType hm hn
  | method type name sig attributes body =>
    obtain ⟨⟨n, id⟩, hn, h⟩ := exists_of_map_ok h
    cases h
    exact indexed_addMethod hm hn
  | field type field =>
    obtain ⟨n, hn, h⟩ := exists_of_map_ok h
    cases h
    exact indexed_addField hm hn

theorem listed_add (hi : m.Indexed) (hm : m.Listed) {answer : Option Nat}
    (h : m.add a = .ok (n, answer)) : n.Listed := by
  cases a with
  | type nameSpace name genericParams corlib valueType =>
    obtain ⟨⟨n, id⟩, hn, h⟩ := exists_of_map_ok h
    cases h
    exact listed_addType hm hn
  | method type name sig attributes body =>
    obtain ⟨⟨n, id⟩, hn, h⟩ := exists_of_map_ok h
    cases h
    exact listed_addMethod hi hm hn
  | field type field =>
    obtain ⟨n, hn, h⟩ := exists_of_map_ok h
    cases h
    exact listed_addField hi hm hn

theorem grows_add {answer : Option Nat} (h : m.add a = .ok (n, answer)) : m.Grows n := by
  cases a with
  | type nameSpace name genericParams corlib valueType =>
    obtain ⟨⟨n, id⟩, hn, h⟩ := exists_of_map_ok h
    cases h
    exact grows_addType hn
  | method type name sig attributes body =>
    obtain ⟨⟨n, id⟩, hn, h⟩ := exists_of_map_ok h
    cases h
    exact grows_addMethod hn
  | field type field =>
    obtain ⟨n, hn, h⟩ := exists_of_map_ok h
    cases h
    exact grows_addField hn

theorem grows_after (m : Metadata) (a : Addition) : m.Grows (m.after a) := by
  rw [after]
  split
  · rename_i h
    exact grows_add h
  · exact .refl m

/-- An addition to a type that is there fails only if it adds a second type of a full name. -/
theorem add_eq_error_iff (hf : a.Fits m) {e : Error} :
    m.add a = .error e ↔
      ∃ fullName ∈ a.fullName?, (m.findType? fullName).isSome ∧ e = .duplicateType fullName := by
  cases a with
  | type nameSpace name genericParams corlib valueType =>
    rw [add, addType, Addition.fullName?]
    simp only [Option.mem_some_iff, exists_eq_left']
    cases m.findType? (qualifiedName nameSpace name) with
    | none => simp [Except.map]
    | some id => simp [Except.map, eq_comm]
  | method type name sig attributes body =>
    have hlt : type < m.types.length := hf type (Option.mem_some_self _)
    rw [add, addMethod, typeDef_eq_ok_iff.2 (List.getElem?_eq_getElem hlt)]
    simp [Except.map, bind, Except.bind, pure, Except.pure, Addition.fullName?]
  | field type field =>
    have hlt : type < m.types.length := hf type (Option.mem_some_self _)
    rw [add, addField, typeDef_eq_ok_iff.2 (List.getElem?_eq_getElem hlt)]
    simp [Except.map, bind, Except.bind, pure, Except.pure, Addition.fullName?]

/-- Numbers, names and lists say the same of every definition. -/
structure Consistent (m : Metadata) : Prop where
  typeId : ∀ (k : Nat) (t : TypeDef), m.types[k]? = some t → t.id = k
  methodId : ∀ (k : Nat) (d : MethodDef), m.methods[k]? = some d → d.id = k
  fullNames : (m.types.map TypeDef.fullName).Nodup
  findType : ∀ fullName id,
    m.findType? fullName = some id ↔ ∃ t, m.typeDef id = .ok t ∧ t.fullName = fullName
  increasing : ∀ t ∈ m.types, t.methods.Pairwise (· < ·)
  methods : ∀ t ∈ m.types, ∀ id,
    id ∈ t.methods ↔ ∃ d, m.methodDef id = .ok d ∧ d.declaringType = t.id
  findMethod : ∀ t ∈ m.types, ∀ name id,
    m.findMethod t.id name = .ok id ↔ ∀ k, m.HasMethod t.id name k ↔ k = id
  ambiguous : ∀ t ∈ m.types, ∀ name,
    m.findMethod t.id name = .error (.ambiguousMethod t.fullName name) ↔
      ∃ j k, j ≠ k ∧ m.HasMethod t.id name j ∧ m.HasMethod t.id name k
  unknown : ∀ t ∈ m.types, ∀ name,
    m.findMethod t.id name = .error (.unknownMethod t.fullName name) ↔
      ∀ k, ¬ m.HasMethod t.id name k

theorem consistent_of_listed (hi : m.Indexed) (hm : m.Listed) : m.Consistent := by
  have hdef {t : TypeDef} (ht : t ∈ m.types) : m.typeDef t.id = .ok t := by
    obtain ⟨k, hk⟩ := List.mem_iff_getElem?.1 ht
    rw [hi.typeId hk]
    exact typeDef_eq_ok_iff.2 hk
  exact {
    typeId := fun _ _ => hi.typeId
    methodId := fun _ _ => hi.methodId
    fullNames := hi.fullNames
    findType := fun _ _ => findType?_eq_some_iff hi
    increasing := fun _ => hm.increasing hi
    methods := fun _ ht _ => hm.mem_methods_iff hi ht
    findMethod := fun _ ht _ _ => findMethod_eq_ok_iff hi hm (hdef ht)
    ambiguous := fun _ ht _ => findMethod_ambiguous_iff hi hm (hdef ht)
    unknown := fun _ ht _ => findMethod_unknown_iff hi hm (hdef ht) }

end Metadata

namespace Reached

variable {m : Metadata} {s : Tables}

theorem listed (h : Reached m s) : m.Indexed ∧ m.Listed := by
  induction h with
  | empty => exact ⟨Metadata.indexed_empty, Metadata.listed_empty⟩
  | add a _ _ ih =>
    rw [Metadata.after]
    split
    · rename_i h
      exact ⟨Metadata.indexed_add ih.1 h, Metadata.listed_add ih.1 ih.2 h⟩
    · exact ih

theorem agrees (h : Reached m s) : s.Agrees m := by
  induction h with
  | empty => exact Tables.empty_agrees
  | add a _ hf ih => exact Tables.after_agrees ih hf

/-- After any run of additions the tables hold consistent metadata. One more addition does in place
what it does as a function; a second type of a full name changes nothing, what is there stays, and
a method gets the number that was announced. -/
theorem tables_consistent (h : Reached m s) : m.Consistent ∧ s.Agrees m ∧
    ∀ a : Addition, a.Fits m →
      Tables.Follows s (m.add a) ((Tables.add a).run s) ∧
      (∀ e, m.add a = .error e ↔
        ∃ fullName ∈ a.fullName?, (m.findType? fullName).isSome ∧ e = .duplicateType fullName) ∧
      m.Grows (m.after a) ∧
      ∀ type name sig attributes body, a = .method type name sig attributes body →
        ∃ n, m.add a = .ok (n, some m.nextMethodId) := by
  obtain ⟨hi, hm⟩ := h.listed
  refine ⟨Metadata.consistent_of_listed hi hm, h.agrees, ?_⟩
  intro a hf
  refine ⟨Tables.add_follows h.agrees hf, fun e => Metadata.add_eq_error_iff hf, m.grows_after a, ?_⟩
  rintro type name sig attributes body rfl
  have hlt : type < m.types.length := hf type (Option.mem_some_self _)
  rw [Metadata.add, Metadata.addMethod, Metadata.typeDef_eq_ok_iff.2 (List.getElem?_eq_getElem hlt)]
  exact ⟨_, rfl⟩

end Reached

/-- A name that two methods share is refused, and so is a full name that is there already, divided
in another way; that leaves the tables as they are. -/
theorem Reached.tables_consistent_jar : ∃ m s, Reached m s ∧
    m.findType? "Demo.Tall.Jar" = some 0 ∧ m.findMethod 1 "Take" = .ok 1 ∧
    m.findMethod 0 "Put" = .error (.ambiguousMethod "Demo.Tall.Jar" "Put") ∧
    (Tables.add (.type "Demo" "Tall.Jar" 2 true false)).run s =
      .error (.duplicateType "Demo.Tall.Jar") s := by
  let put (params : List Sig) : Addition :=
    .method 0 "Put" (.plain ⟨0⟩ (.primitive .void) params) ⟨6⟩ none
  have h : Reached _ _ :=
    .add (put [.primitive .int32])
      (.add (.method 1 "Take" (.plain ⟨0⟩ (.primitive .void) []) ⟨6⟩ none)
        (.add (put [])
          (.add (.type "Demo" "Cup" 1 true true)
            (.add (.type "Demo.Tall" "Jar" 0 false false) .empty (by decide)) (by decide))
          (by decide))
        (by decide))
      (by decide)
  obtain ⟨hc, _, hadd⟩ := h.tables_consistent
  refine ⟨_, _, h, (hc.findType _ 0).2 ⟨_, rfl, rfl⟩, rfl, ?_, ?_⟩
  · exact (hc.ambiguous _ (List.mem_of_getElem? (i := 0) rfl) "Put").2
      ⟨0, 2, by decide, ⟨_, rfl, rfl, rfl⟩, ⟨_, rfl, rfl, rfl⟩⟩
  · obtain ⟨hfollows, herror, _⟩ := hadd (.type "Demo" "Tall.Jar" 2 true false) (by decide)
    rw [(herror (.duplicateType "Demo.Tall.Jar")).2 ⟨_, rfl, rfl, rfl⟩] at hfollows
    generalize (Tables.add _).run _ = result at hfollows ⊢
    cases hfollows
    rfl

end Monomorph
