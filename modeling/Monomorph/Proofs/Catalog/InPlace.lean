import Monomorph.Proofs.Catalog.Requests

/-!
# Monomorph.Proofs.Catalog.InPlace

Requests as programs that change the catalog in place. A failure stops such a program where it is
and takes nothing back, so what had been entered before would stay.

* `resolveType_eq`, `resolveMethod_eq`, `resolveField_eq`: in place a request does what it does as
  a function from one catalog to the next. Everything that can fail comes before the entry, so a
  failure leaves the catalog that it found.
* `resolveType_publishes`, `resolveMethod_publishes`, `resolveField_publishes`: a request changes
  nothing, or it enters one record at the end of its own registry and answers its number.
-/

namespace Monomorph

/-- A computation on a catalog that is changed in place, also by a computation that fails. -/
abbrev InPlace := EStateM Error Catalog

namespace InPlace

variable {α : Type}

def ofResult : Except Error α → InPlace α
  | .ok a => pure a
  | .error e => throw e

/-- The computation that replaces the catalog if all goes well, and else leaves it. -/
def ofStep (f : Catalog → Except Error (Catalog × α)) : InPlace α := fun c =>
  match f c with
  | .ok (c', a) => .ok a c'
  | .error e => .error e c

/-- Finds a key among the types, or enters the record under it. -/
def enterType (key : String) (i : TypeInstance) : InPlace TypeInstanceId := do
  let c ← get
  match c.types.find? key with
  | some id => return id
  | none =>
    set { c with types := c.types.push key i }
    return c.types.size

/-- Finds a key among the methods, or enters the record under it, if its declared key can be
written. -/
def enterMethod (owner : TypeInstanceId) (key : String) (i : MethodInstance) :
    InPlace MethodInstanceId := do
  let c ← get
  match c.methods.find? (owner, key) with
  | some id => return id
  | none =>
    let _ ← ofResult i.declaredKey
    set { c with methods := c.methods.push (owner, key) i }
    return c.methods.size

/-- Finds the key of a field among the fields, or enters the record under it. -/
def enterField (owner : TypeInstanceId) (i : FieldInstance) : InPlace FieldInstanceId := do
  let c ← get
  match c.fields.find? (owner, i.key) with
  | some id => return id
  | none =>
    set { c with fields := c.fields.push (owner, i.key) i }
    return c.fields.size

def resolveType (m : Metadata) (type : TypeDefId) (args : List Sig) :
    InPlace (Option TypeInstanceId) := do
  let d ← ofResult (m.typeDef type)
  let i ← ofResult (TypeInstance.make d args)
  if ← ofResult i.isConcrete then
    let key ← ofResult i.key
    return some (← enterType key i)
  else
    return none

def resolveMethod (m : Metadata) (owner : TypeInstanceId) (method : MethodDefId)
    (args : List Sig) : InPlace (Option MethodInstanceId) := do
  let c ← get
  let type ← ofResult (c.typeInstance owner)
  let d ← ofResult (m.methodDef method)
  if Sig.anyHasParam args then
    return none
  else
    let i ← ofResult (MethodInstance.make type d args)
    let i ← ofResult i.concretize
    let key ← ofResult i.concretizedKey
    return some (← enterMethod owner key i)

def fieldOf (d : TypeDef) (index : Nat) : Except Error FieldDef :=
  match d.fields[index]? with
  | some field => .ok field
  | none => .error (.unknownField d.fullName ("#" ++ Numeral.decimal index))

def resolveField (m : Metadata) (owner : TypeInstanceId) (index : Nat) :
    InPlace FieldInstanceId := do
  let c ← get
  let type ← ofResult (c.typeInstance owner)
  let d ← ofResult (m.typeDef type.type.id)
  let field ← ofResult (fieldOf d index)
  let i ← ofResult (FieldInstance.make type field)
  enterField owner i

/-! ## The same as a function -/

section Steps

variable {β : Type}

theorem ofResult_bind (r : Except Error α) (f : α → Catalog → Except Error (Catalog × β)) :
    (ofResult r >>= fun a => ofStep (f a)) = ofStep fun c => r >>= fun a => f a c := by
  cases r with
  | error e => rfl
  | ok a => rfl

theorem get_bind (f : Catalog → Catalog → Except Error (Catalog × β)) :
    ((get : InPlace Catalog) >>= fun c => ofStep (f c)) = ofStep fun c => f c c := rfl

/-- What follows an entry cannot fail. -/
theorem ofStep_bind_pure (f : Catalog → Except Error (Catalog × α)) (g : α → β) :
    (ofStep f >>= fun a => pure (g a)) = ofStep fun c => (f c).map fun p => (p.1, g p.2) := by
  funext c
  show EStateM.bind (ofStep f) _ c = _
  rw [EStateM.bind, ofStep, ofStep]
  cases f c with
  | error e => rfl
  | ok p => rfl

theorem pure_eq (a : α) : (pure a : InPlace α) = ofStep fun c => .ok (c, a) := rfl

theorem ite_eq (b : Bool) (f g : Catalog → Except Error (Catalog × α)) :
    (if b = true then ofStep f else ofStep g) = ofStep fun c => if b = true then f c else g c := by
  cases b with
  | false => rfl
  | true => rfl

end Steps

theorem enterType_eq (key : String) (i : TypeInstance) :
    enterType key i = ofStep fun c => .ok (c.publishType key i) := by
  funext c
  show (match c.types.find? key with
    | some id => (pure id : InPlace TypeInstanceId)
    | none => _) c = _
  rw [ofStep, Catalog.publishType]
  cases c.types.find? key with
  | some id => rfl
  | none => rfl

theorem enterMethod_eq (owner : TypeInstanceId) (key : String) (i : MethodInstance) :
    enterMethod owner key i = ofStep fun c => c.publishMethod owner key i := by
  funext c
  show (match c.methods.find? (owner, key) with
    | some id => (pure id : InPlace MethodInstanceId)
    | none => _) c = _
  rw [ofStep, Catalog.publishMethod]
  cases c.methods.find? (owner, key) with
  | some id => rfl
  | none =>
    show (ofResult i.declaredKey >>= _) c = _
    cases i.declaredKey with
    | error e => rfl
    | ok text => rfl

theorem enterField_eq (owner : TypeInstanceId) (i : FieldInstance) :
    enterField owner i = ofStep fun c => .ok (c.publishField owner i) := by
  funext c
  show (match c.fields.find? (owner, i.key) with
    | some id => (pure id : InPlace FieldInstanceId)
    | none => _) c = _
  rw [ofStep, Catalog.publishField]
  cases c.fields.find? (owner, i.key) with
  | some id => rfl
  | none => rfl

theorem resolveType_eq (m : Metadata) (type : TypeDefId) (args : List Sig) :
    resolveType m type args = ofStep fun c => c.resolveType m type args := by
  simp only [resolveType, enterType_eq, ofStep_bind_pure]
  simp only [pure_eq, ofResult_bind, ite_eq]
  rfl

theorem resolveMethod_eq (m : Metadata) (owner : TypeInstanceId) (method : MethodDefId)
    (args : List Sig) :
    resolveMethod m owner method args = ofStep fun c => c.resolveMethod m owner method args := by
  simp only [resolveMethod, enterMethod_eq, ofStep_bind_pure]
  simp only [pure_eq, ofResult_bind, ite_eq, get_bind]
  rfl

theorem resolveField_eq (m : Metadata) (owner : TypeInstanceId) (index : Nat) :
    resolveField m owner index = ofStep fun c => c.resolveField m owner index := by
  simp only [resolveField, enterField_eq, ofResult_bind, get_bind]
  refine congrArg ofStep (funext fun c => ?_)
  rw [Catalog.resolveField]
  refine bind_congr fun type => bind_congr fun d => ?_
  rw [fieldOf]
  cases d.fields[index]? with
  | none => rfl
  | some field => rfl

/-! ## What is left of a request -/

/-- What a request leaves behind and answers. With `own` the registry of its kind in the catalog,
and `put` to exchange that registry, nothing changes unless a record is entered under a new key. -/
inductive Publishes {κ α : Type} [BEq κ] (c : Catalog) (own : Registry κ α)
    (put : Registry κ α → Catalog) (key : Except Error κ) (record : Except Error α) :
    EStateM.Result Error Catalog (Option Nat) → Prop where
  | failed (e : Error) : Publishes c own put key record (.error e c)
  | unanswered : Publishes c own put key record (.ok none c)
  | found {k : κ} {id : Nat} : key = .ok k → own.find? k = some id →
      Publishes c own put key record (.ok (some id) c)
  | added {k : κ} {i : α} : key = .ok k → record = .ok i → own.find? k = none →
      Publishes c own put key record (.ok (some own.size) (put (own.push k i)))

section Publishing

variable {κ : Type} [BEq κ] {c : Catalog} {own : Registry κ α} {put : Registry κ α → Catalog}
  {key : Except Error κ} {record : Except Error α}

theorem publishes_of_entered (put : Registry κ α → Catalog) (hput : put own = c) {k : κ} {i : α}
    {r : Registry κ α} {id : Nat} (hk : key = .ok k) (hi : record = .ok i)
    (h : Registry.Entered own k i r id) :
    Publishes c own put key record (.ok (some id) (put r)) := by
  cases h with
  | found hf =>
    rw [hput]
    exact .found hk hf
  | added hf => exact .added hk hi hf

theorem publishes_of_ok {f : Catalog → Except Error (Catalog × Option Nat)}
    (h : ∀ c' answer, f c = .ok (c', answer) →
      Publishes c own put key record (.ok answer c')) :
    Publishes c own put key record ((ofStep f).run c) := by
  show Publishes c own put key record (ofStep f c)
  rw [ofStep]
  cases hf : f c with
  | error e => exact .failed e
  | ok p => exact h p.1 p.2 hf

end Publishing

theorem resolveType_publishes (c : Catalog) (m : Metadata) (type : TypeDefId) (args : List Sig) :
    Publishes c c.types (fun r => { c with types := r }) (m.typeKey type args)
      (m.freshType type args) ((resolveType m type args).run c) := by
  rw [resolveType_eq]
  apply publishes_of_ok
  intro c' answer h
  obtain ⟨i, hi, ⟨_, rfl, rfl⟩ | ⟨_, key, r, id, hk, he, rfl, rfl⟩⟩ := Catalog.resolveType_ok h
  · exact .unanswered
  · rw [← Metadata.typeKey_of_freshType hi] at hk
    exact publishes_of_entered (fun r => { c with types := r }) rfl hk hi he

theorem resolveMethod_publishes (c : Catalog) (m : Metadata) (owner : TypeInstanceId)
    (method : MethodDefId) (args : List Sig) :
    Publishes c c.methods (fun r => { c with methods := r })
      ((c.methodKey m owner method args).map fun key => (owner, key))
      (c.freshMethod m owner method args) ((resolveMethod m owner method args).run c) := by
  rw [resolveMethod_eq]
  apply publishes_of_ok
  intro c' answer h
  obtain ⟨_, rfl, rfl⟩ | ⟨_, i, key, r, id, hi, hk, he, rfl, rfl⟩ := Catalog.resolveMethod_ok h
  · exact .unanswered
  · refine publishes_of_entered (fun r => { c with methods := r }) rfl ?_ hi he
    rw [Catalog.methodKey_of_freshMethod hi, hk]
    rfl

theorem resolveField_publishes (c : Catalog) (m : Metadata) (owner : TypeInstanceId)
    (index : Nat) :
    Publishes c c.fields (fun r => { c with fields := r })
      ((c.fieldKey m owner index).map fun key => (owner, key)) (c.freshField m owner index)
      ((some <$> resolveField m owner index).run c) := by
  rw [resolveField_eq, map_eq_pure_bind, ofStep_bind_pure]
  apply publishes_of_ok
  intro c' answer h
  obtain ⟨p, hp, h⟩ := exists_of_map_ok h
  cases h
  obtain ⟨i, r, hi, he, hc⟩ := Catalog.resolveField_ok hp
  rw [hc]
  refine publishes_of_entered (fun r => { c with fields := r }) rfl ?_ hi he
  rw [Catalog.fieldKey_of_freshField hi]
  rfl

end InPlace
end Monomorph
