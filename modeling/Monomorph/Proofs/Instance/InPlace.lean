import Monomorph.Proofs.Catalog.Requests

/-!
# Monomorph.Proofs.Instance.InPlace

The record of a method that is changed in place. Its concrete signature is spread over five fields
and a mark, which are written one after the other, and its declared key is kept once it is computed.

* `MethodInstance.perform`: what can be asked of a record, as a function from one to the next.
* `MethodRecord.perform`: the same as programs that write field by field.
* `MethodRecord.perform_follows`: in place an operation does what it does as a function, and one that
  fails has written nothing.
-/

namespace Monomorph

namespace MethodInstance

/-- What can be asked of a record once it is made. -/
inductive Operation where
  | concretize
  | declaredKey
  | concretizedKey
  | addOverride (target : MethodInstanceId)
  deriving DecidableEq

inductive Reply where
  | done
  | key (text : String)
  | isNew (new : Bool)
  deriving DecidableEq

/-- The record after an operation, with the reply. -/
def perform (i : MethodInstance) : Operation → Except Error (MethodInstance × Reply)
  | .concretize => i.concretize.map fun j => (j, .done)
  | .declaredKey => i.declaredKey.map fun key => (i, .key key)
  | .concretizedKey => i.concretizedKey.map fun key => (i, .key key)
  | .addOverride target => .ok ((i.addOverride target).1, .isNew (i.addOverride target).2)

/-- The record after an operation, whether or not it succeeds. -/
def step (i : MethodInstance) (op : Operation) : MethodInstance :=
  match i.perform op with
  | .ok (j, _) => j
  | .error _ => i

def after (i : MethodInstance) (ops : List Operation) : MethodInstance :=
  ops.foldl step i

end MethodInstance

/-! ## The record in place -/

/-- The record of a method with its fields as they are stored. -/
structure MethodRecord where
  owner : TypeInstance
  definition : MethodDef
  args : List Sig
  /-- The declared key, once it has been asked for. -/
  declared : Option String
  receiver : Option Sig
  ret : Option Sig
  params : Option (List Sig)
  sentinel : Option (List Sig)
  locals : Option (List Sig)
  concretized : Bool
  /-- Missing until the first override is added. -/
  overrides : Option (List MethodInstanceId)
  processed : Bool
  skipped : Bool

namespace MethodRecord

open MethodInstance (Operation Reply)

/-- A computation on a record that is changed in place, also by a computation that fails. -/
abbrev Program := EStateM Error MethodRecord

def fresh (i : MethodInstance) : MethodRecord :=
  ⟨i.owner, i.definition, i.args, none, none, none, none, none, none, false, none, false, false⟩

def make (owner : TypeInstance) (d : MethodDef) (args : List Sig) : Except Error MethodRecord :=
  (MethodInstance.make owner d args).map fresh

/-- What the record was made of. -/
def base (r : MethodRecord) : MethodInstance :=
  ⟨r.owner, r.definition, r.args, none, [], false, false⟩

/-- Substitutes every declared type, and then writes field by field. -/
def concretize : Program Unit := do
  let r ← get
  if r.concretized then
    throw (.alreadyConcretized r.base.name)
  else
    let b := some r.base.binding
    let ret ← ofExcept (Sig.substitute? b r.definition.sig.ret)
    let params ← ofExcept (Sig.substituteList? b (some r.definition.sig.params))
    let sentinel ← ofExcept (Sig.substituteList? b r.definition.sig.sentinel)
    let locals ← ofExcept (Sig.substituteList? b r.base.declaredLocals)
    modify fun r => { r with receiver := if r.base.hasThis then some r.owner.receiver else none }
    modify fun r => { r with ret := some ret }
    modify fun r => { r with params := params }
    modify fun r => { r with sentinel := sentinel }
    modify fun r => { r with locals := locals }
    modify fun r => { r with concretized := true }

/-- Answers the key that is kept, or computes it and keeps it. -/
def declaredKey : Program String := do
  let r ← get
  match r.declared with
  | some key => return key
  | none =>
    let key ← ofExcept (r.base.keyFor r.definition.sig.ret r.definition.sig.params)
    modify fun r => { r with declared := some key }
    return key

/-- Computes the key from the two fields, if both are there. -/
def concretizedKey : Program String := do
  let r ← get
  match r.ret, r.params with
  | some ret, some params => ofExcept (r.base.keyFor ret params)
  | _, _ => throw (.notConcretized r.base.name)

def addOverride (target : MethodInstanceId) : Program Bool := do
  let r ← get
  let known := r.overrides.getD []
  if known.contains target then
    modify fun r => { r with overrides := some known }
    return false
  else
    modify fun r => { r with overrides := some (known ++ [target]) }
    return true

def perform : Operation → Program Reply
  | .concretize => do
    concretize
    return .done
  | .declaredKey => return .key (← declaredKey)
  | .concretizedKey => return .key (← concretizedKey)
  | .addOverride target => return .isNew (← addOverride target)

/-- The record that an operation leaves behind, whether or not it succeeds. -/
def step (r : MethodRecord) (op : Operation) : MethodRecord :=
  match (perform op).run r with
  | .ok _ s => s
  | .error _ s => s

def after (r : MethodRecord) (ops : List Operation) : MethodRecord :=
  ops.foldl step r

def answer (r : MethodRecord) (op : Operation) : Except Error Reply :=
  match (perform op).run r with
  | .ok reply _ => .ok reply
  | .error e _ => .error e

/-! ## The same as a function -/

/-- The fields of the record together say what the other record says. -/
structure Holds (r : MethodRecord) (i : MethodInstance) : Prop where
  owner : r.owner = i.owner
  definition : r.definition = i.definition
  args : r.args = i.args
  declared : ∀ key ∈ r.declared, i.declaredKey = .ok key
  concretized : r.concretized = i.concrete.isSome
  receiver : r.receiver = i.concrete.bind ConcreteSig.receiver
  ret : r.ret = i.concrete.map ConcreteSig.ret
  params : r.params = i.concrete.map ConcreteSig.params
  sentinel : r.sentinel = i.concrete.bind ConcreteSig.sentinel
  locals : r.locals = i.concrete.bind ConcreteSig.locals
  overrides : r.overrides.getD [] = i.overrides
  processed : r.processed = i.processed
  skipped : r.skipped = i.skipped

/-- In place the reply is the same, in a record that says the same; a failure leaves the record as
it was. -/
inductive Follows (r : MethodRecord) :
    Except Error (MethodInstance × Reply) → EStateM.Result Error MethodRecord Reply → Prop where
  | ok {j : MethodInstance} {s : MethodRecord} {reply : Reply} : s.Holds j →
      Follows r (.ok (j, reply)) (.ok reply s)
  | error (e : Error) : Follows r (.error e) (.error e r)

variable {r : MethodRecord} {i : MethodInstance} {α β : Type}

theorem run_ofExcept_bind (x : Except Error α) (f : α → Program β) (r : MethodRecord) :
    (ofExcept x >>= f).run r =
      match x with
      | .ok a => (f a).run r
      | .error e => .error e r := by
  cases x with
  | ok a => rfl
  | error e => rfl

theorem base_definition (r : MethodRecord) : r.base.definition = r.definition := rfl

/-- The record with a concrete signature. -/
def fill (r : MethodRecord) (c : ConcreteSig) : MethodRecord :=
  { r with
    receiver := c.receiver, ret := some c.ret, params := some c.params, sentinel := c.sentinel,
    locals := c.locals, concretized := true }

theorem run_concretize (r : MethodRecord) : concretize.run r =
    if r.concretized = true then .error (.alreadyConcretized r.base.name) r
    else
      match r.base.concreteSig with
      | .ok c => .ok () (r.fill c)
      | .error e => .error e r := by
  rw [concretize, EStateM.run_bind, EStateM.run_get]
  simp only
  split
  · rfl
  · have hparams (b : Option Binding) (ss : List Sig) :
        Sig.substituteList? b (some ss) = (Sig.substituteAll? b ss).map some := rfl
    simp only [run_ofExcept_bind, MethodInstance.concreteSig, hparams, base_definition]
    -- each of the four results stops the computation, or is one field of the signature
    cases Sig.substitute? (some r.base.binding) r.definition.sig.ret with
    | error e => rfl
    | ok ret =>
      cases Sig.substituteAll? (some r.base.binding) r.definition.sig.params with
      | error e => rfl
      | ok params =>
        cases Sig.substituteList? (some r.base.binding) r.definition.sig.sentinel with
        | error e => rfl
        | ok sentinel =>
          cases Sig.substituteList? (some r.base.binding) r.base.declaredLocals with
          | error e => rfl
          | ok locals => rfl

theorem run_declaredKey (r : MethodRecord) : declaredKey.run r =
    match r.declared with
    | some key => .ok key r
    | none =>
      match r.base.declaredKey with
      | .ok key => .ok key { r with declared := some key }
      | .error e => .error e r := by
  rw [declaredKey, EStateM.run_bind, EStateM.run_get]
  simp only
  cases r.declared with
  | some key => rfl
  | none =>
    refine (run_ofExcept_bind r.base.declaredKey _ r).trans ?_
    cases r.base.declaredKey with
    | ok key => rfl
    | error e => rfl

theorem run_concretizedKey (r : MethodRecord) : concretizedKey.run r =
    match r.ret, r.params with
    | some ret, some params =>
      match r.base.keyFor ret params with
      | .ok key => .ok key r
      | .error e => .error e r
    | _, _ => .error (.notConcretized r.base.name) r := by
  rw [concretizedKey, EStateM.run_bind, EStateM.run_get]
  simp only
  split
  · rename_i ret params _ _
    cases r.base.keyFor ret params with
    | ok key => rfl
    | error e => rfl
  · rfl

theorem run_addOverride (target : MethodInstanceId) (r : MethodRecord) :
    (addOverride target).run r =
      if (r.overrides.getD []).contains target = true then
        .ok false { r with overrides := some (r.overrides.getD []) }
      else .ok true { r with overrides := some (r.overrides.getD [] ++ [target]) } := by
  rw [addOverride, EStateM.run_bind, EStateM.run_get]
  simp only
  split
  · rfl
  · rfl

namespace Holds

theorem base_eq (h : r.Holds i) : r.base =
    { i with concrete := none, overrides := [], processed := false, skipped := false } := by
  rw [base, h.owner, h.definition, h.args]

theorem name_base (h : r.Holds i) : r.base.name = i.name := by
  rw [h.base_eq]
  rfl

theorem concreteSig_base (h : r.Holds i) : r.base.concreteSig = i.concreteSig := by
  rw [h.base_eq]
  rfl

theorem keyFor_base (h : r.Holds i) (ret : Sig) (params : List Sig) :
    r.base.keyFor ret params = i.keyFor ret params := by
  rw [h.base_eq]
  rfl

theorem declaredKey_base (h : r.Holds i) : r.base.declaredKey = i.declaredKey := by
  rw [h.base_eq]
  rfl

theorem concretize_follows (h : r.Holds i) :
    Follows r (i.perform .concretize) ((perform .concretize).run r) := by
  rw [perform, EStateM.run_bind, run_concretize, h.concretized, h.name_base, h.concreteSig_base,
    MethodInstance.perform, MethodInstance.concretize]
  cases hc : i.concrete with
  | some c => exact .error _
  | none =>
    cases i.concreteSig with
    | error e => exact .error e
    | ok c =>
      exact .ok { h with
        concretized := rfl, receiver := rfl, ret := rfl, params := rfl, sentinel := rfl,
        locals := rfl }

theorem declaredKey_follows (h : r.Holds i) :
    Follows r (i.perform .declaredKey) ((perform .declaredKey).run r) := by
  rw [perform, EStateM.run_bind, run_declaredKey, h.declaredKey_base, MethodInstance.perform]
  cases hd : r.declared with
  | some key =>
    rw [h.declared key hd]
    exact .ok h
  | none =>
    cases hk : i.declaredKey with
    | error e => exact .error e
    | ok key =>
      refine .ok { h with declared := ?_ }
      rintro _ ⟨⟩
      exact hk

theorem concretizedKey_follows (h : r.Holds i) :
    Follows r (i.perform .concretizedKey) ((perform .concretizedKey).run r) := by
  rw [perform, EStateM.run_bind, run_concretizedKey, h.name_base, h.ret, h.params,
    MethodInstance.perform, MethodInstance.concretizedKey]
  cases hc : i.concrete with
  | none => exact .error _
  | some c =>
    simp only [Option.map_some, h.keyFor_base]
    cases i.keyFor c.ret c.params with
    | error e => exact .error e
    | ok key => exact .ok h

theorem addOverride_follows (h : r.Holds i) (target : MethodInstanceId) :
    Follows r (i.perform (.addOverride target)) ((perform (.addOverride target)).run r) := by
  rw [perform, EStateM.run_bind, run_addOverride, h.overrides, MethodInstance.perform,
    MethodInstance.addOverride]
  by_cases hk : i.overrides.contains target = true
  · rw [if_pos hk, if_pos hk]
    exact .ok { h with overrides := rfl }
  · rw [if_neg hk, if_neg hk]
    exact .ok { h with overrides := rfl }

end Holds

/-- In place an operation does what it does as a function. -/
theorem perform_follows (h : r.Holds i) (op : Operation) :
    Follows r (i.perform op) ((perform op).run r) := by
  cases op with
  | concretize => exact h.concretize_follows
  | declaredKey => exact h.declaredKey_follows
  | concretizedKey => exact h.concretizedKey_follows
  | addOverride target => exact h.addOverride_follows target

theorem answer_eq (h : r.Holds i) (op : Operation) :
    r.answer op = (i.perform op).map Prod.snd := by
  have hfollows := perform_follows h op
  rw [answer]
  generalize i.perform op = x at hfollows ⊢
  generalize (perform op).run r = y at hfollows ⊢
  cases hfollows with
  | ok => rfl
  | error e => rfl

theorem step_holds (h : r.Holds i) (op : Operation) : (r.step op).Holds (i.step op) := by
  have hfollows := perform_follows h op
  rw [step, MethodInstance.step]
  generalize i.perform op = x at hfollows ⊢
  generalize (perform op).run r = y at hfollows ⊢
  cases hfollows with
  | ok hs => exact hs
  | error e => exact h

theorem after_holds (h : r.Holds i) (ops : List Operation) : (r.after ops).Holds (i.after ops) := by
  induction ops generalizing r i with
  | nil => exact h
  | cons op ops ih => exact ih (step_holds h op)

theorem fresh_holds {owner : TypeInstance} {d : MethodDef} {args : List Sig}
    (h : MethodInstance.make owner d args = .ok i) : (fresh i).Holds i := by
  rw [MethodInstance.make_ok h]
  exact ⟨rfl, rfl, rfl, fun key hk => absurd hk (Option.not_mem_none key), rfl, rfl, rfl, rfl, rfl,
    rfl, rfl, rfl, rfl⟩

end MethodRecord
end Monomorph
