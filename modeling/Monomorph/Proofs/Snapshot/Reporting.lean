import Monomorph.Proofs.Report
import Monomorph.Proofs.Session.Loading
import Monomorph.Proofs.Snapshot.Summary

/-!
# Monomorph.Proofs.Snapshot.Reporting

The report of a run is the summary of its requests.

While the requests are resolved, the records of the catalog report what the requests so far do,
each record once and in the order of the first requests for it (`Progress.Reports`).

* `Progress.Reports.resolve`: a request adds its own report.
* `Catalog.reportMethods_ok`: the methods are reported as they are, and nothing but them is marked.
* `Snapshot.report_eq_summary`: so the report at the end is the summary, and no method waits then.
-/

namespace Monomorph

open Registry (Entered)
open Session (Coherent)

theorem MethodInstance.report_ok {m : Metadata} {i : MethodInstance} {r : MethodReport}
    (h : i.report m = .ok r) :
    i.owner.key = .ok r.owner ∧ i.concretizedKey = .ok r.concretizedKey := by
  obtain ⟨owner, ho, h⟩ := exists_of_bind_ok h
  obtain ⟨d, _, h⟩ := exists_of_bind_ok h
  obtain ⟨signature, _, h⟩ := exists_of_bind_ok h
  obtain ⟨declared, _, h⟩ := exists_of_bind_ok h
  obtain ⟨concretized, hc, h⟩ := exists_of_bind_ok h
  cases h
  exact ⟨ho, hc⟩

theorem FieldInstance.report_ok {i : FieldInstance} {r : FieldReport} (h : i.report = .ok r) :
    i.owner.key = .ok r.owner ∧ i.key = r.key := by
  obtain ⟨owner, ho, h⟩ := exists_of_bind_ok h
  cases h
  exact ⟨ho, rfl⟩

theorem MethodReport.sameRecord_iff {r s : MethodReport} :
    r.sameRecord s = true ↔ r.owner = s.owner ∧ r.concretizedKey = s.concretizedKey := by
  simp [sameRecord]

/-! ## The catalog holds the reports -/

section Records

variable {m : Metadata} {c : Catalog}

theorem Session.Coherent.typeKey (hc : Coherent ⟨m, c⟩) {id : TypeInstanceId} {i : TypeInstance}
    {key : String} (hi : c.typeInstance id = .ok i) (hk : i.key = .ok key) :
    c.types.keys[id]? = some key := by
  obtain ⟨k, he⟩ := Registry.exists_entry_of_get? (Catalog.typeInstance_eq_ok_iff.1 hi)
  have hk' := (hc.typeEntry he).key
  rw [hk] at hk'
  cases hk'
  exact Registry.key_of_entry he

/-- Reports of methods are about one record iff the methods stand under one key. -/
theorem Session.MethodEntry.sameRecord_iff (hc : Coherent ⟨m, c⟩) {o o' : TypeInstanceId}
    {key key' : String} {i j : MethodInstance} {r s : MethodReport}
    (hi : MethodEntry ⟨m, c⟩ o key i) (hj : MethodEntry ⟨m, c⟩ o' key' j)
    (hr : i.report m = .ok r) (hs : j.report m = .ok s) :
    r.sameRecord s = true ↔ (o', key') = (o, key) := by
  obtain ⟨hro, hrk⟩ := MethodInstance.report_ok hr
  obtain ⟨hso, hsk⟩ := MethodInstance.report_ok hs
  rw [hi.key, Except.ok.injEq] at hrk
  rw [hj.key, Except.ok.injEq] at hsk
  have ho := position_inj hc.typeKeys (hc.typeKey hj.owner hso) (hc.typeKey hi.owner hro)
  rw [MethodReport.sameRecord_iff, Prod.mk.injEq, ho, hrk, hsk, eq_comm (a := r.owner),
    eq_comm (a := r.concretizedKey)]

theorem Session.FieldEntry.same_iff (hc : Coherent ⟨m, c⟩) {o o' : TypeInstanceId}
    {key key' : String} {i j : FieldInstance} {r s : FieldReport}
    (hi : FieldEntry ⟨m, c⟩ o key i) (hj : FieldEntry ⟨m, c⟩ o' key' j)
    (hr : i.report = .ok r) (hs : j.report = .ok s) :
    (r == s) = true ↔ (o', key') = (o, key) := by
  obtain ⟨hro, hrk⟩ := FieldInstance.report_ok hr
  obtain ⟨hso, hsk⟩ := FieldInstance.report_ok hs
  obtain ⟨_, hi'⟩ := hi.fresh
  obtain ⟨_, hj'⟩ := hj.fresh
  rw [hi.key] at hrk
  rw [hj.key] at hsk
  have ho := position_inj hc.typeKeys (hc.typeKey (Catalog.freshField_ok hj').1 hso)
    (hc.typeKey (Catalog.freshField_ok hi').1 hro)
  rw [beq_iff_eq, Prod.mk.injEq, ho, hrk, hsk]
  cases r
  cases s
  simp [eq_comm]

end Records

/-- The report is what the records of the catalog report, and those of the types were asked for. -/
structure Progress.Reports (m : Metadata) (p : Progress) (types : List TypeInstance)
    (report : KeyReport) : Prop where
  coherent : Coherent ⟨m, p.catalog⟩
  /-- The record under a key is the first type that has it. -/
  first : ∀ key, types.find? (·.hasKey key) = p.catalog.types.entries.lookup key
  types : p.catalog.types.values.mapM TypeInstance.key = .ok report.types
  methods : p.catalog.methods.values.mapM (MethodInstance.report m) = .ok report.methods
  fields : p.catalog.fields.values.mapM FieldInstance.report = .ok report.fields
  skipped : p.skipped = report.skipped
  waiting : ∀ i ∈ p.catalog.methods.values, i.processed = false ∧ i.skipped = false

namespace Progress.Reports

variable {m : Metadata} {p q : Progress} {types : List TypeInstance} {log : KeyReport}

theorem start (h : Coherent ⟨m, ∅⟩) : Progress.start.Reports m [] KeyReport.empty.dedup := by
  refine ⟨h, ?_, rfl, rfl, rfl, rfl, ?_⟩
  · intro key
    rfl
  · intro i hi
    cases hi

theorem skip (h : p.Reports m types log.dedup) (name : String) :
    (p.skip name).Reports m types (log.append (.ofSkipped name)).dedup := by
  rw [KeyReport.dedup_append_ofSkipped]
  refine ⟨h.coherent, h.first, h.types, h.methods, h.fields, ?_, h.waiting⟩
  rw [Progress.skip, h.skipped]
  rfl

theorem withType (h : p.Reports m types log.dedup) {i : TypeInstance} {key : String}
    {r : Registry String TypeInstance} {id : TypeInstanceId} (hkey : i.key = .ok key)
    (he : Entered p.catalog.types key i r id)
    (hc : Coherent ⟨m, { p.catalog with types := r }⟩) :
    { p with catalog := { p.catalog with types := r } }.Reports m (types ++ [i])
      (log.append (.ofType key)).dedup := by
  rw [KeyReport.dedup_append_ofType]
  refine ⟨hc, ?_, ?_, h.methods, h.fields, h.skipped, h.waiting⟩
  · intro k
    rw [List.find?_append, h.first, he.lookup, List.find?_singleton, TypeInstance.hasKey, hkey]
  · refine he.mapM_values h.types hkey ?_
    intro j k v z hv hz
    have hk := (h.coherent.typeEntry hv).key
    rw [hz, Except.ok.injEq] at hk
    rw [beq_iff_eq, hk, eq_comm]

theorem withMethod (h : p.Reports m types log.dedup) {owner : TypeInstanceId} {id : MethodDefId}
    {args : List Sig} {i : MethodInstance} {key : String}
    {r : Registry (TypeInstanceId × String) MethodInstance} {number : MethodInstanceId}
    (hp : Sig.anyHasParam args = false) (hi : p.catalog.freshMethod m owner id args = .ok i)
    (hkey : i.concretizedKey = .ok key) (he : Entered p.catalog.methods (owner, key) i r number)
    (hc : Coherent ⟨m, { p.catalog with methods := r }⟩) :
    ∃ report, i.report m = .ok report ∧
      { p with catalog := { p.catalog with methods := r } }.Reports m types
        (log.append (.ofMethod report)).dedup := by
  have hx := Session.methodEntry_of_fresh h.coherent.indexed hi hp hkey
  obtain ⟨report, hreport⟩ := hx.exists_report h.coherent
  refine ⟨report, hreport, ?_⟩
  rw [KeyReport.dedup_append_ofMethod]
  refine ⟨hc, h.first, h.types, ?_, h.fields, h.skipped, ?_⟩
  · refine he.mapM_values h.methods hreport ?_
    rintro j ⟨o, k⟩ v z hv hz
    exact hx.sameRecord_iff h.coherent (h.coherent.methodEntry hv) hreport hz
  · intro j hj
    rcases he.mem_values hj with hj | rfl
    · exact h.waiting j hj
    · obtain ⟨_, _, _, _, _, rfl⟩ := Catalog.freshMethod_ok hi
      exact ⟨rfl, rfl⟩

theorem withField (h : p.Reports m types log.dedup) {owner : TypeInstanceId} {index : Nat}
    {i : FieldInstance} {r : Registry (TypeInstanceId × String) FieldInstance}
    {number : FieldInstanceId} (hi : p.catalog.freshField m owner index = .ok i)
    (he : Entered p.catalog.fields (owner, i.key) i r number)
    (hc : Coherent ⟨m, { p.catalog with fields := r }⟩) :
    ∃ report, i.report = .ok report ∧
      { p with catalog := { p.catalog with fields := r } }.Reports m types
        (log.append (.ofField report)).dedup := by
  have hx : Session.FieldEntry ⟨m, p.catalog⟩ owner i.key i := ⟨⟨index, hi⟩, rfl⟩
  obtain ⟨report, hreport⟩ := hx.exists_report h.coherent
  refine ⟨report, hreport, ?_⟩
  rw [KeyReport.dedup_append_ofField]
  refine ⟨hc, h.first, h.types, h.methods, ?_, h.skipped, h.waiting⟩
  refine he.mapM_values h.fields hreport ?_
  rintro j ⟨o, k⟩ v z hv hz
  exact hx.same_iff h.coherent (h.coherent.fieldEntry hv) hreport hz

/-! ### Requests -/

/-- The target of a request adds its own report, with the record of the type as the owner. -/
theorem resolveTarget (h : p.Reports m types log.dedup) {owner : TypeInstanceId}
    {o : TypeInstance} (ho : p.catalog.typeInstance owner = .ok o) {name : String}
    {target : Target} (hq : p.resolveTarget m name owner target = .ok q) :
    ∃ report, target.report m name o = .ok report ∧
      q.Reports m types (log.append report).dedup := by
  cases target with
  | type =>
    cases hq
    refine ⟨.empty, rfl, ?_⟩
    rw [KeyReport.append_empty]
    exact h
  | method id args =>
    rw [Progress.resolveTarget] at hq
    split at hq
    · cases hq
    · rename_i c number hm
      cases hq
      have hc := Catalog.coherent_resolveMethod h.coherent hm
      obtain ⟨_, _, ha⟩ | ⟨hp, i, key, r, n, hi, hkey, he, rfl, _⟩ := Catalog.resolveMethod_ok hm
      · cases ha
      · obtain ⟨report, hreport, hr⟩ := h.withMethod hp hi hkey he hc
        refine ⟨_, ?_, hr⟩
        rw [Catalog.freshMethod, ho] at hi
        have hi : o.methodInstance m id args = .ok i := hi
        rw [Target.report, hp, hi]
        simp [hreport, bind, Except.bind, pure, Except.pure]
    · rename_i hm
      obtain ⟨hp, _, _⟩ | ⟨_, i, key, r, n, _, _, _, _, ha⟩ := Catalog.resolveMethod_ok hm
      · split at hq
        · cases hq
        · rename_i d hd
          cases hq
          refine ⟨_, ?_, h.skip _⟩
          rw [Target.report, hp, hd]
          rfl
      · cases ha
  | field index =>
    rw [Progress.resolveTarget] at hq
    split at hq
    · cases hq
    · rename_i c number hf
      cases hq
      have hc := Catalog.coherent_resolveField h.coherent hf
      obtain ⟨i, r, hi, he, rfl⟩ := Catalog.resolveField_ok hf
      obtain ⟨report, hreport, hr⟩ := h.withField hi he hc
      refine ⟨_, ?_, hr⟩
      rw [Catalog.freshField, ho] at hi
      have hi : o.fieldInstance m index = .ok i := hi
      rw [Target.report, hi]
      simp [hreport, bind, Except.bind, pure, Except.pure]

/-- A request adds its own report; the types that are asked for later do not matter for it. -/
theorem resolve (h : p.Reports m types log.dedup) {r : Request} (hq : p.resolve m r = .ok q) :
    ∃ i? report, r.typeInstance m = .ok i? ∧
      (∀ more, r.report m (types ++ i?.toList ++ more) = .ok report) ∧
      q.Reports m (types ++ i?.toList) (log.append report).dedup := by
  rw [Progress.resolve] at hq
  split at hq
  · cases hq
  · rename_i d hd
    split at hq
    · cases hq
    · rename_i ht
      cases hq
      obtain ⟨i, hi, ⟨hb, _, _⟩ | ⟨_, _, _, _, _, _, _, ha⟩⟩ := Catalog.resolveType_ok ht
      · have hnone := Request.typeInstance_of_isConcrete hi hb
        refine ⟨none, .ofSkipped d.fullName, hnone, fun _ => Request.report_of_open hd hnone, ?_⟩
        rw [Option.toList_none, List.append_nil]
        exact h.skip d.fullName
      · cases ha
    · rename_i c owner ht
      have hc := Catalog.coherent_resolveType h.coherent ht
      obtain ⟨i, hi, ⟨_, _, ha⟩ | ⟨hb, key, reg, id, hkey, he, rfl, ha⟩⟩ :=
        Catalog.resolveType_ok ht
      · cases ha
      · cases ha
        have hsome := Request.typeInstance_of_isConcrete hi hb
        have htype := h.withType hkey he hc
        obtain ⟨o, ho⟩ := Registry.exists_entry_of_key he.getElem?_keys
        obtain ⟨rest, hrest, hr⟩ := htype.resolveTarget
          (Catalog.typeInstance_eq_ok_iff.2 (Registry.get?_of_entry ho)) hq
        refine ⟨some i, (KeyReport.ofType key).append rest, hsome, ?_, ?_⟩
        · intro more
          refine Request.report_of_concrete hd hsome hkey ?_ hrest
          rw [List.find?_append, Option.toList_some, htype.first,
            Registry.lookup_of_entry hc.typeKeys ho]
          rfl
        · rw [← KeyReport.append_assoc]
          exact hr

/-- One request after the other, the catalog holds the reports of all of them. -/
theorem resolveAll {rs : List Request} (h : p.Reports m types log.dedup)
    (hq : rs.foldlM (Progress.resolve m) p = .ok q) :
    ∃ is? reports, rs.mapM (Request.typeInstance m) = .ok is? ∧
      (∀ more, rs.mapM (Request.report m (types ++ is?.reduceOption ++ more)) = .ok reports) ∧
      q.Reports m (types ++ is?.reduceOption) (log.append (.concat reports)).dedup := by
  induction rs generalizing p types log with
  | nil =>
    cases hq
    refine ⟨[], [], rfl, fun _ => rfl, ?_⟩
    rw [List.reduceOption_nil, List.append_nil, KeyReport.concat_nil, KeyReport.append_empty]
    exact h
  | cons r rs ih =>
    rw [List.foldlM_cons] at hq
    obtain ⟨p₁, h₁, hq⟩ := exists_of_bind_ok hq
    obtain ⟨i?, report, hi, hreport, hr⟩ := h.resolve h₁
    obtain ⟨is?, reports, his, hreports, hrs⟩ := ih hr hq
    have hcons : (i? :: is?).reduceOption = i?.toList ++ is?.reduceOption := by
      rw [← List.reduceOption_singleton, ← List.reduceOption_append, List.singleton_append]
    refine ⟨i? :: is?, report :: reports, ?_, ?_, ?_⟩
    · rw [List.mapM_cons, hi, his]
      rfl
    · intro more
      rw [hcons, List.mapM_cons, ← List.append_assoc, hreports, List.append_assoc _ _ more, hreport]
      rfl
    · rw [hcons, ← List.append_assoc, KeyReport.concat_cons, ← KeyReport.append_assoc]
      exact hrs

end Progress.Reports

/-! ## Marking -/

namespace Catalog

variable {m : Metadata} {c d : Catalog}

/-- The report of the method with a number. -/
def methodReport (m : Metadata) (c : Catalog) (id : MethodInstanceId) :
    Except Error MethodReport := do
  let i ← c.methodInstance id
  i.report m

/-- The catalog with a method marked as processed. -/
def mark (c : Catalog) (id : MethodInstanceId) : Catalog :=
  c.modifyMethod id ({ · with processed := true })

theorem get?_mark (c : Catalog) (id other : MethodInstanceId) :
    (c.mark id).methods.get? other =
      (c.methods.get? other).map fun i =>
        if id = other then { i with processed := true } else i := by
  rw [Registry.get?_eq, Registry.get?_eq, mark, modifyMethod, Registry.getElem?_entries_modify]
  cases c.methods.entries[other]? with
  | none => rfl
  | some e =>
    simp only [Option.map_some]
    split <;> rfl

theorem methodReport_mark (id other : MethodInstanceId) :
    (c.mark id).methodReport m other = c.methodReport m other := by
  rw [methodReport, methodReport, methodInstance, methodInstance, get?_mark]
  cases c.methods.get? other with
  | none => rfl
  | some i =>
    by_cases he : id = other
    · rw [Option.map_some, if_pos he]
      rfl
    · rw [Option.map_some, if_neg he]

theorem isPending_mark (id other : MethodInstanceId) :
    (c.mark id).isPending other = (c.isPending other && other != id) := by
  rw [isPending, isPending, get?_mark]
  cases c.methods.get? other with
  | none => rfl
  | some i =>
    by_cases he : id = other
    · simp [he]
    · simp [he, Ne.symm he]

theorem reportMethod_ok {id : MethodInstanceId} {r : MethodReport}
    (h : c.reportMethod m id = .ok (r, d)) : c.methodReport m id = .ok r ∧ d = c.mark id := by
  obtain ⟨i, hi, h⟩ := exists_of_bind_ok h
  obtain ⟨report, hreport, h⟩ := exists_of_bind_ok h
  obtain ⟨c', hc, h⟩ := exists_of_bind_ok h
  cases h
  obtain ⟨_, _, hc⟩ := exists_of_bind_ok hc
  cases hc
  refine ⟨?_, rfl⟩
  rw [methodReport, hi]
  exact hreport

/-- Every method is reported as it is; those that are reported are marked, and nothing else
changes. -/
theorem reportMethods_ok {ids : List MethodInstanceId} {rs : List MethodReport}
    (h : c.reportMethods m ids = .ok (rs, d)) :
    ids.mapM (c.methodReport m) = .ok rs ∧ d.fields = c.fields ∧
      d.methods.size = c.methods.size ∧
      ∀ id, d.isPending id = (c.isPending id && !ids.contains id) := by
  induction ids generalizing c rs with
  | nil =>
    cases h
    refine ⟨rfl, rfl, rfl, ?_⟩
    intro id
    simp
  | cons id rest ih =>
    obtain ⟨⟨report, c₁⟩, h₁, h⟩ := exists_of_bind_ok h
    obtain ⟨⟨reports, c₂⟩, h₂, h⟩ := exists_of_bind_ok h
    cases h
    obtain ⟨hreport, rfl⟩ := reportMethod_ok h₁
    obtain ⟨hreports, hfields, hsize, hpending⟩ := ih h₂
    refine ⟨?_, hfields, hsize.trans (Registry.size_modify _ _ _), ?_⟩
    · have hsame : (c.mark id).methodReport m = c.methodReport m := funext (methodReport_mark id)
      rw [hsame] at hreports
      rw [List.mapM_cons, hreport, hreports]
      rfl
    · intro other
      rw [hpending, isPending_mark, List.contains_cons, Bool.not_or, ← Bool.and_assoc]
      rfl

/-- When all methods that wait are reported, none waits. -/
theorem pending_reportMethods {rs : List MethodReport}
    (h : c.reportMethods m c.pending = .ok (rs, d)) : d.pending = [] := by
  obtain ⟨_, _, hsize, hpending⟩ := reportMethods_ok h
  rw [pending, List.filter_eq_nil_iff]
  intro id hid
  rw [hpending]
  rw [List.mem_range, hsize] at hid
  simp [pending, hid]

end Catalog

namespace Progress.Reports

variable {m : Metadata} {p : Progress} {types : List TypeInstance} {report : KeyReport}

/-- Every method waits to be reported. -/
theorem pending (h : p.Reports m types report) :
    p.catalog.pending = List.range p.catalog.methods.size := by
  rw [Catalog.pending, List.filter_eq_self]
  intro id hid
  obtain ⟨i, hi⟩ := Registry.exists_get?_of_lt (List.mem_range.1 hid)
  obtain ⟨hp, hs⟩ := h.waiting i (List.mem_of_getElem? hi)
  simp [Catalog.isPending, hi, hp, hs]

/-- The report of a run is the one that its catalog holds. -/
theorem report_eq (h : p.Reports m types report) :
    ∃ c, p.report m = .ok (report, c) ∧ c.pending = [] := by
  obtain ⟨r, c, hr⟩ := h.coherent.exists_report
  obtain ⟨keys, hkeys, hrest⟩ := exists_of_bind_ok hr
  obtain ⟨⟨methods, c'⟩, hmethods, hrest⟩ := exists_of_bind_ok hrest
  obtain ⟨fields, hfields, hrest⟩ := exists_of_bind_ok hrest
  cases hrest
  obtain ⟨hreports, hc, _, _⟩ := Catalog.reportMethods_ok hmethods
  have hrange : (List.range p.catalog.methods.size).mapM (p.catalog.methodReport m) =
      p.catalog.methods.values.mapM (MethodInstance.report m) := by
    rw [← Registry.length_values]
    refine mapM_range ?_
    intro id i hi
    rw [Catalog.methodReport, Catalog.methodInstance_eq_ok_iff.2 hi]
    rfl
  rw [h.pending, hrange, h.methods] at hreports
  rw [hc, h.fields] at hfields
  rw [h.types] at hkeys
  cases hkeys
  cases hreports
  cases hfields
  rw [h.skipped] at hr
  exact ⟨c, hr, Catalog.pending_reportMethods hmethods⟩

end Progress.Reports

/-! ## The report of a snapshot -/

namespace Snapshot

/-- The report of a run is the summary of its requests, and no method waits after it. Where names
are plain, the owner of each request may as well be the instance that it asks for itself. -/
theorem report_eq_summary {s : Snapshot} {l : Loaded} {p : Progress} (hl : s.build = .ok l)
    (hp : l.resolveAll = .ok p) :
    ∃ types report c, l.types = .ok types ∧ l.summary types = .ok report ∧
      p.report l.metadata = .ok (report, c) ∧ c.pending = [] ∧
      ((∀ r ∈ l.requests, Sig.allPlainNames r.typeArgs = true) → l.summary [] = .ok report) := by
  have hc := (reaches_build hl).coherent Session.coherent_start
  obtain ⟨is?, reports, his, hreports, hr⟩ := (Progress.Reports.start hc).resolveAll hp
  obtain ⟨c, hreport, hpending⟩ := hr.report_eq
  have htypes : l.types = .ok is?.reduceOption := by
    rw [Loaded.types, his]
    rfl
  have hsummary : l.summary is?.reduceOption = .ok (KeyReport.concat reports).dedup := by
    have h := hreports []
    rw [List.nil_append, List.append_nil] at h
    rw [Loaded.summary, h]
    rfl
  exact ⟨_, _, c, htypes, hsummary, hreport, hpending,
    fun hplain => Loaded.summary_own hc.indexed hplain htypes hsummary⟩

/-- Requests for one type that repeat one another or have open arguments. -/
def repeatingSnapshot : Snapshot where
  types := [⟨"Demo", "Box", false, false, 1, [⟨"value", .typeParam 0 none, false⟩],
    [⟨"Map", ⟨0x30⟩, ⟨6⟩, 1, .methodParam 0, [.typeParam 0 none], none, none⟩]⟩]
  requests := [⟨"Demo.Box", [.primitive .int32], some "Map", [.primitive .string], none⟩,
    ⟨"Demo.Box", [.typeParam 0 (some "Demo.Box")], none, [], none⟩,
    ⟨"Demo.Box", [.pinned (.primitive .int32)], some "Map", [.primitive .string], none⟩,
    ⟨"Demo.Box", [.primitive .int32], some "Map", [.typeParam 0 (some "Demo.Box")], none⟩,
    ⟨"Demo.Box", [.primitive .string], none, [], some "value"⟩,
    ⟨"Demo.Box", [.primitive .int32], none, [], none⟩]

/-- Each record is reported once, and each skipped request. -/
theorem report_eq_summary_repeating : ∃ l p c, repeatingSnapshot.build = .ok l ∧
    l.resolveAll = .ok p ∧ p.report l.metadata = .ok (⟨["Demo.Box<Int32>", "Demo.Box<String>"],
      [⟨"Demo.Box<Int32>", "Map|!!0<1>(!0)|30", "Map|!!0<String>(!0)|30|6",
        "Map|String<String>(Int32)|30|6"⟩],
      [⟨"Demo.Box<String>", "value|String"⟩], ["Demo.Box", "Demo.Box::Map"]⟩, c) ∧
    c.pending = [] := by
  obtain ⟨types, report, c, htypes, hsummary, hreport, hpending, _⟩ :=
    report_eq_summary (s := repeatingSnapshot) rfl rfl
  cases htypes
  cases hsummary
  exact ⟨_, _, c, rfl, rfl, hreport, hpending⟩

end Snapshot
end Monomorph
