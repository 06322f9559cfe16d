import Mathlib.Data.List.ReduceOption
import Monomorph.Proofs.Instance.Owner
import Monomorph.Proofs.Session.Arguments

/-!
# Monomorph.Proofs.Snapshot.Summary

The requests of a snapshot, reported without a catalog.

A request by itself reports at most one key of each kind, or that it is skipped (`Request.report`).
All requests together report what each of them does, every record where it comes first
(`KeyReport.dedup`). There is no catalog in that, only the list of the types that are asked for: a
type goes by its key, so among those with one key the first is the owner of all methods and fields.

* `Request.report_of_open`, `Request.report_of_concrete`: what a request reports.
* `Loaded.summary_own`: where names are plain, the other requests do not matter for that.
-/

namespace Monomorph

/-! ## Reports of requests -/

namespace TypeInstance

def hasKey (key : String) (i : TypeInstance) : Bool :=
  match i.key with
  | .ok k => key == k
  | .error _ => false

theorem key_of_hasKey {key : String} {i : TypeInstance} (h : i.hasKey key = true) :
    i.key = .ok key := by
  rw [hasKey] at h
  split at h
  · rename_i hk
    rw [hk, eq_of_beq h]
  · cases h

end TypeInstance

/-- The reports are about one record: owner and concrete key are the same. -/
def MethodReport.sameRecord (r s : MethodReport) : Bool :=
  r.owner == s.owner && r.concretizedKey == s.concretizedKey

namespace KeyReport

def empty : KeyReport :=
  ⟨[], [], [], []⟩

def ofType (key : String) : KeyReport :=
  ⟨[key], [], [], []⟩

def ofMethod (report : MethodReport) : KeyReport :=
  ⟨[], [report], [], []⟩

def ofField (report : FieldReport) : KeyReport :=
  ⟨[], [], [report], []⟩

def ofSkipped (name : String) : KeyReport :=
  ⟨[], [], [], [name]⟩

def append (r s : KeyReport) : KeyReport :=
  ⟨r.types ++ s.types, r.methods ++ s.methods, r.fields ++ s.fields, r.skipped ++ s.skipped⟩

def concat (rs : List KeyReport) : KeyReport :=
  ⟨rs.flatMap types, rs.flatMap methods, rs.flatMap fields, rs.flatMap skipped⟩

/-- The report with every record once, where it comes first. -/
def dedup (r : KeyReport) : KeyReport :=
  ⟨r.types.eraseDups, r.methods.eraseDupsBy MethodReport.sameRecord, r.fields.eraseDups, r.skipped⟩

end KeyReport

/-- What is reported for the target of a request in an instance of its type. -/
def Target.report (m : Metadata) (typeName : String) (owner : TypeInstance) :
    Target → Except Error KeyReport
  | .type => .ok .empty
  | .method id args =>
    if Sig.anyHasParam args then
      (m.methodDef id).map fun d => .ofSkipped (typeName ++ "::" ++ d.name)
    else do
      let i ← owner.methodInstance m id args
      let report ← i.report m
      return .ofMethod report
  | .field index => do
    let i ← owner.fieldInstance m index
    let report ← i.report
    return .ofField report

namespace Request

/-- The instance that a request asks for, if its arguments are concrete. -/
def typeInstance (m : Metadata) (r : Request) : Except Error (Option TypeInstance) := do
  let i ← m.freshType r.type r.typeArgs
  let concrete ← i.isConcrete
  return if concrete then some i else none

/-- What a request reports. The owner of its target is the first of the types that has the key of
the instance it asks for, or that instance itself if none has. -/
def report (m : Metadata) (types : List TypeInstance) (r : Request) : Except Error KeyReport := do
  let d ← m.typeDef r.type
  match ← r.typeInstance m with
  | none => return .ofSkipped d.fullName
  | some i =>
    let key ← i.key
    let rest ← r.target.report m d.fullName ((types.find? (·.hasKey key)).getD i)
    return (KeyReport.ofType key).append rest

end Request

namespace Loaded

/-- The types that the requests ask for, in their order. -/
def types (l : Loaded) : Except Error (List TypeInstance) :=
  (l.requests.mapM (Request.typeInstance l.metadata)).map List.reduceOption

/-- The reports of all requests, every record once, with owners from the list of types. -/
def summary (l : Loaded) (types : List TypeInstance) : Except Error KeyReport :=
  (l.requests.mapM (Request.report l.metadata types)).map fun rs => (KeyReport.concat rs).dedup

end Loaded

/-! ## Parts of a report -/

namespace KeyReport

theorem append_empty (r : KeyReport) : r.append empty = r := by
  simp [append, empty]

theorem append_assoc (r s t : KeyReport) : (r.append s).append t = r.append (s.append t) := by
  simp [append]

theorem dedup_append_ofType (r : KeyReport) (key : String) :
    (r.append (ofType key)).dedup = { r.dedup with types := (r.types ++ [key]).eraseDups } := by
  simp [append, ofType, dedup]

theorem dedup_append_ofMethod (r : KeyReport) (report : MethodReport) :
    (r.append (ofMethod report)).dedup =
      { r.dedup with
        methods := (r.methods ++ [report]).eraseDupsBy MethodReport.sameRecord } := by
  simp [append, ofMethod, dedup]

theorem dedup_append_ofField (r : KeyReport) (report : FieldReport) :
    (r.append (ofField report)).dedup =
      { r.dedup with fields := (r.fields ++ [report]).eraseDups } := by
  simp [append, ofField, dedup]

theorem dedup_append_ofSkipped (r : KeyReport) (name : String) :
    (r.append (ofSkipped name)).dedup = { r.dedup with skipped := r.skipped ++ [name] } := by
  simp [append, ofSkipped, dedup]

theorem concat_nil : concat [] = empty := rfl

theorem concat_cons (r : KeyReport) (rs : List KeyReport) :
    concat (r :: rs) = r.append (concat rs) := rfl

end KeyReport

namespace Request

variable {m : Metadata} {r : Request} {types : List TypeInstance} {d : TypeDef} {i o : TypeInstance}

theorem typeInstance_of_isConcrete {concrete : Bool} (hi : m.freshType r.type r.typeArgs = .ok i)
    (hb : i.isConcrete = .ok concrete) :
    r.typeInstance m = .ok (if concrete then some i else none) := by
  rw [typeInstance, hi]
  show (i.isConcrete >>= _) = _
  rw [hb]
  rfl

theorem report_of_open (hd : m.typeDef r.type = .ok d) (hi : r.typeInstance m = .ok none) :
    r.report m types = .ok (.ofSkipped d.fullName) := by
  rw [report, hd, hi]
  rfl

theorem report_of_concrete (hd : m.typeDef r.type = .ok d) (hi : r.typeInstance m = .ok (some i))
    {key : String} (hkey : i.key = .ok key) (ho : types.find? (·.hasKey key) = some o)
    {rest : KeyReport} (hrest : r.target.report m d.fullName o = .ok rest) :
    r.report m types = .ok ((KeyReport.ofType key).append rest) := by
  rw [report, hd, hi]
  show (i.key >>= _) = _
  rw [hkey]
  show (r.target.report m d.fullName ((types.find? (·.hasKey key)).getD i) >>= _) = _
  rw [ho, Option.getD_some, hrest]
  rfl

end Request

/-! ## Plain names -/

theorem TypeInstance.Alike.targetReport {m : Metadata} {o i : TypeInstance} (h : o.Alike i)
    {name : String} {target : Target} {report : KeyReport}
    (hr : target.report m name o = .ok report) : target.report m name i = .ok report := by
  cases target with
  | type => exact hr
  | method id args =>
    rw [Target.report] at hr ⊢
    split at hr
    · rename_i hp
      rw [if_pos hp]
      exact hr
    · rename_i hp
      rw [if_neg hp]
      obtain ⟨j, hj, hr⟩ := exists_of_bind_ok hr
      obtain ⟨j', hj', hsame⟩ := h.methodReport hj
      rw [hj']
      show (j'.report m >>= _) = _
      rw [hsame]
      exact hr
  | field index =>
    rw [Target.report] at hr ⊢
    obtain ⟨j, hj, hr⟩ := exists_of_bind_ok hr
    obtain ⟨j', hj', hsame⟩ := h.fieldReport hj
    rw [hj']
    show (j'.report >>= _) = _
    rw [hsame]
    exact hr

namespace Request

variable {m : Metadata} {r : Request}

theorem freshType_of_typeInstance {i : TypeInstance} (h : r.typeInstance m = .ok (some i)) :
    m.freshType r.type r.typeArgs = .ok i := by
  obtain ⟨j, hj, h⟩ := exists_of_bind_ok h
  obtain ⟨concrete, _, h⟩ := exists_of_bind_ok h
  cases concrete with
  | false => cases h
  | true =>
    cases h
    exact hj

/-- With plain names, instances that requests ask for are alike if they have one key. -/
theorem alike_of_key (hm : m.Indexed) {q : Request} {o i : TypeInstance} {key : String}
    (ho : q.typeInstance m = .ok (some o)) (hi : r.typeInstance m = .ok (some i))
    (hok : o.key = .ok key) (hik : i.key = .ok key) (hq : Sig.allPlainNames q.typeArgs = true)
    (hr : Sig.allPlainNames r.typeArgs = true) : o.Alike i := by
  have hfo := freshType_of_typeInstance ho
  have hfi := freshType_of_typeInstance hi
  have htype := Session.type_of_freshType hm hfo hfi hok hik
  rw [htype] at hfo
  obtain ⟨t, ht, hfo⟩ := exists_of_bind_ok hfo
  obtain ⟨u, hu, hfi⟩ := exists_of_bind_ok hfi
  rw [ht] at hu
  cases hu
  have hlen := (TypeInstance.length_of_make hfo).trans (TypeInstance.length_of_make hfi).symm
  obtain rfl := TypeInstance.make_ok hfo
  obtain rfl := TypeInstance.make_ok hfi
  exact TypeInstance.alike_of_key rfl hok hik hlen hq hr

/-- With plain names, a request reports the same when its own instance is the owner. -/
theorem report_own (hm : m.Indexed) {types : List TypeInstance}
    (htypes : ∀ o ∈ types, ∃ q : Request, q.typeInstance m = .ok (some o) ∧
      Sig.allPlainNames q.typeArgs = true)
    (hr : Sig.allPlainNames r.typeArgs = true) {report : KeyReport}
    (h : r.report m types = .ok report) : r.report m [] = .ok report := by
  obtain ⟨d, hd, h⟩ := exists_of_bind_ok h
  obtain ⟨i?, hi, h⟩ := exists_of_bind_ok h
  rw [Request.report, hd]
  show (r.typeInstance m >>= _) = _
  rw [hi]
  cases i? with
  | none => exact h
  | some i =>
    obtain ⟨key, hkey, h⟩ := exists_of_bind_ok h
    obtain ⟨rest, hrest, h⟩ := exists_of_bind_ok h
    have hown : r.target.report m d.fullName i = .ok rest := by
      cases ho : types.find? (·.hasKey key) with
      | none =>
        rw [ho] at hrest
        exact hrest
      | some o =>
        rw [ho] at hrest
        obtain ⟨q, hqo, hq⟩ := htypes o (List.mem_of_find?_eq_some ho)
        have hok := TypeInstance.key_of_hasKey (List.find?_some ho)
        exact (alike_of_key hm hqo hi hok hkey hq hr).targetReport hrest
    show (i.key >>= _) = _
    rw [hkey]
    show (r.target.report m d.fullName i >>= _) = _
    rw [hown]
    exact h

end Request

theorem Loaded.summary_own {l : Loaded} (hm : l.metadata.Indexed)
    (hplain : ∀ r ∈ l.requests, Sig.allPlainNames r.typeArgs = true) {types : List TypeInstance}
    {report : KeyReport} (ht : l.types = .ok types) (h : l.summary types = .ok report) :
    l.summary [] = .ok report := by
  obtain ⟨is?, his, rfl⟩ := exists_of_map_ok ht
  obtain ⟨reports, hreports, rfl⟩ := exists_of_map_ok h
  have htypes : ∀ o ∈ is?.reduceOption, ∃ q : Request, q.typeInstance l.metadata = .ok (some o) ∧
      Sig.allPlainNames q.typeArgs = true := by
    intro o ho
    obtain ⟨q, hq, hqo⟩ := exists_of_mem_mapM_ok his (List.reduceOption_mem_iff.1 ho)
    exact ⟨q, hqo, hplain q hq⟩
  have hown := mapM_ok_of_imp (g := Request.report l.metadata [])
    (fun r hr _ h => r.report_own hm htypes (hplain r hr) h) hreports
  rw [summary, hown]
  rfl

end Monomorph
