import Monomorph.Proofs.Session.Coherence

/-!
# Monomorph.Proofs.Session.Marks

The overrides and marks of the methods over a run.

Only the calls that are meant to do so change them. So they can be read off the calls that were
answered, whichever definitions the requests in between find: in a `History` each turn brings
definitions of its own, and what was answered is kept beside the catalog.

* `Performed.methodsReflect`: the step lemma. A call gives each record what it adds or sets there,
  and a record that is new starts with nothing.
* `marks_survive`: so the overrides of a method are those that were added to it, each once, and a
  mark is the last value that it was set to. To ask for a method again changes nothing.
* `after_ofSession`: the catalog of a session is that of such a run.
-/

namespace Monomorph

/-- What a driver sets on a method: that it is done, or that it is to be left out. -/
inductive MethodMark where
  | processed
  | skipped
  deriving DecidableEq

namespace MethodInstance

def mark (i : MethodInstance) : MethodMark → Bool
  | .processed => i.processed
  | .skipped => i.skipped

def withMark (i : MethodInstance) (value : Bool) : MethodMark → MethodInstance
  | .processed => { i with processed := value }
  | .skipped => { i with skipped := value }

theorem overrides_withMark (i : MethodInstance) (value : Bool) (m : MethodMark) :
    (i.withMark value m).overrides = i.overrides := by
  cases m with
  | processed => rfl
  | skipped => rfl

theorem mark_withMark (i : MethodInstance) (value : Bool) (m m' : MethodMark) :
    (i.withMark value m).mark m' = if m = m' then value else i.mark m' := by
  cases m <;> cases m' <;> rfl

end MethodInstance

namespace Call

/-- The method that a call changes. -/
def changed? : Call → Option MethodInstanceId
  | addOverride method _ => some method
  | setProcessed method _ => some method
  | setSkipped method _ => some method
  | _ => none

/-- The override that a call adds to that method. -/
def adds? (id : MethodInstanceId) : Call → Option MethodInstanceId
  | addOverride method target => if method = id then some target else none
  | _ => none

/-- The call that sets a mark of that method. -/
def setMark (id : MethodInstanceId) (value : Bool) : MethodMark → Call
  | .processed => .setProcessed id value
  | .skipped => .setSkipped id value

/-- The value to which a call sets that mark of that method. -/
def sets? (m : MethodMark) (id : MethodInstanceId) : Call → Option Bool
  | setProcessed method value => if .processed = m ∧ method = id then some value else none
  | setSkipped method value => if .skipped = m ∧ method = id then some value else none
  | _ => none

/-- The overrides that the calls add to that method, each once, where it comes first. -/
def overrides (calls : List Call) (id : MethodInstanceId) : List MethodInstanceId :=
  (calls.filterMap (adds? id)).eraseDups

/-- The value to which the calls set that mark of that method last; a mark that is never set is
not there. -/
def mark (calls : List Call) (m : MethodMark) (id : MethodInstanceId) : Bool :=
  (calls.filterMap (sets? m id)).getLast?.getD false

section

variable {calls : List Call} {call : Call} {id : MethodInstanceId}

theorem adds?_of_changed?_ne (h : call.changed? ≠ some id) : call.adds? id = none := by
  cases call with
  | addOverride method target => exact if_neg fun e => h (congrArg some e)
  | _ => rfl

theorem sets?_of_changed?_ne (h : call.changed? ≠ some id) (m : MethodMark) :
    call.sets? m id = none := by
  cases call with
  | setProcessed method value => exact if_neg fun e => h (congrArg some e.2)
  | setSkipped method value => exact if_neg fun e => h (congrArg some e.2)
  | _ => rfl

theorem adds?_setMark (value : Bool) (m : MethodMark) : (setMark id value m).adds? id = none := by
  cases m with
  | processed => rfl
  | skipped => rfl

theorem sets?_setMark (value : Bool) (m m' : MethodMark) :
    (setMark id value m).sets? m' id = if m = m' then some value else none := by
  cases m with
  | processed => simp [setMark, sets?]
  | skipped => simp [setMark, sets?]

theorem adds?_eq_some_iff {target : MethodInstanceId} :
    call.adds? id = some target ↔ call = .addOverride id target := by
  cases call with
  | addOverride method target' => simp [adds?]
  | _ => simp [adds?]

theorem mem_overrides_iff {target : MethodInstanceId} :
    target ∈ overrides calls id ↔ .addOverride id target ∈ calls := by
  simp [overrides, List.mem_eraseDups, List.mem_filterMap, adds?_eq_some_iff]

theorem overrides_concat_of_none (h : call.adds? id = none) :
    overrides (calls ++ [call]) id = overrides calls id := by
  rw [overrides, List.filterMap_append, List.filterMap_cons_none h, List.filterMap_nil,
    List.append_nil, overrides]

theorem overrides_concat_addOverride (target : MethodInstanceId) :
    overrides (calls ++ [.addOverride id target]) id =
      if (overrides calls id).contains target then overrides calls id
      else overrides calls id ++ [target] := by
  have hadds : adds? id (.addOverride id target) = some target := if_pos rfl
  rw [overrides, List.filterMap_append, List.filterMap_cons_some hadds, List.filterMap_nil,
    List.eraseDups, eraseDupsBy_concat, overrides, List.contains_eq_any_beq]
  rfl

theorem mark_concat (m : MethodMark) :
    mark (calls ++ [call]) m id = (call.sets? m id).getD (mark calls m id) := by
  rw [mark, List.filterMap_append]
  cases hs : call.sets? m id with
  | none =>
    rw [List.filterMap_cons_none hs, List.filterMap_nil, List.append_nil]
    rfl
  | some value =>
    rw [List.filterMap_cons_some hs, List.filterMap_nil, List.getLast?_concat]
    rfl

end

end Call

/-! ## The record of one method -/

/-- The record has the overrides and marks that the calls give to the method of that number. -/
structure MethodInstance.Reflects (i : MethodInstance) (calls : List Call) (id : MethodInstanceId) :
    Prop where
  overrides : i.overrides = Call.overrides calls id
  mark : ∀ m, i.mark m = Call.mark calls m id

namespace MethodInstance

variable {i : MethodInstance} {calls : List Call} {id : MethodInstanceId}

theorem Reflects.concat_of_ne (h : i.Reflects calls id) {call : Call}
    (hne : call.changed? ≠ some id) : i.Reflects (calls ++ [call]) id where
  overrides := by rw [Call.overrides_concat_of_none (Call.adds?_of_changed?_ne hne), h.overrides]
  mark m := by
    rw [Call.mark_concat, Call.sets?_of_changed?_ne hne m, h.mark]
    rfl

/-- As long as no call changes the method, a record without overrides and marks is right. -/
theorem reflects_of_unchanged (ho : i.overrides = []) (hm : ∀ m, i.mark m = false)
    (h : ∀ call ∈ calls, call.changed? ≠ some id) : i.Reflects calls id where
  overrides := by
    have hnone : calls.filterMap (Call.adds? id) = [] :=
      List.filterMap_eq_nil_iff.2 fun call hc => Call.adds?_of_changed?_ne (h call hc)
    rw [ho, Call.overrides, hnone]
    rfl
  mark m := by
    have hnone : calls.filterMap (Call.sets? m id) = [] :=
      List.filterMap_eq_nil_iff.2 fun call hc => Call.sets?_of_changed?_ne (h call hc) m
    rw [hm, Call.mark, hnone]
    rfl

theorem Reflects.addOverride (h : i.Reflects calls id) (target : MethodInstanceId) :
    (i.addOverride target).1.Reflects (calls ++ [.addOverride id target]) id where
  overrides := by
    rw [Call.overrides_concat_addOverride, ← h.overrides, MethodInstance.addOverride]
    split
    · rfl
    · rfl
  mark m := by
    rw [Call.mark_concat, ← h.mark, MethodInstance.addOverride]
    split
    · rfl
    · rfl

theorem Reflects.withMark (h : i.Reflects calls id) (value : Bool) (m : MethodMark) :
    (i.withMark value m).Reflects (calls ++ [.setMark id value m]) id where
  overrides := by
    rw [overrides_withMark, Call.overrides_concat_of_none (Call.adds?_setMark value m), h.overrides]
  mark m' := by
    rw [mark_withMark, Call.mark_concat, Call.sets?_setMark, ← h.mark]
    split
    · rfl
    · rfl

end MethodInstance

/-! ## What one call does to the records of methods -/

theorem Catalog.exists_entry_of_methodInstance {c : Catalog} {id : MethodInstanceId}
    {i : MethodInstance} (h : c.methodInstance id = .ok i) :
    ∃ key, c.methods.entries[id]? = some (key, i) :=
  Registry.exists_entry_of_get? (methodInstance_eq_ok_iff.1 h)

namespace Session

variable {s t : Session} {call : Call} {answer : Answer} {calls : List Call}

/-- Every record has the overrides and marks that the calls give to its method. -/
def MethodsReflect (c : Catalog) (calls : List Call) : Prop :=
  ∀ {id : MethodInstanceId} {key : TypeInstanceId × String} {i : MethodInstance},
    c.methods.entries[id]? = some (key, i) → i.Reflects calls id

/-- Every method that the calls change is there. -/
def ChangedExist (c : Catalog) (calls : List Call) : Prop :=
  ∀ call ∈ calls, ∀ id, call.changed? = some id → ∃ e, c.methods.entries[id]? = some e

theorem Performed.changed (h : Performed s call answer t) {id : MethodInstanceId}
    (hc : call.changed? = some id) : ∃ e, s.catalog.methods.entries[id]? = some e := by
  cases h with
  | override hi | processed hi | skipped hi =>
    cases hc
    obtain ⟨key, he⟩ := Catalog.exists_entry_of_methodInstance hi
    exact ⟨_, he⟩
  | _ => cases hc

theorem Performed.changedExist (h : Performed s call answer t)
    (hc : ChangedExist s.catalog calls) : ChangedExist t.catalog (calls ++ [call]) := by
  intro c hm id hid
  have hold : ∃ e, s.catalog.methods.entries[id]? = some e := by
    rcases List.mem_append.1 hm with hm | hm
    · exact hc c hm id hid
    · rw [List.mem_singleton.1 hm] at hid
      exact h.changed hid
  obtain ⟨⟨key, i⟩, hi⟩ := hold
  obtain ⟨j, hj, _⟩ := h.grows.catalog.methods hi
  exact ⟨_, hj⟩

theorem methodsReflect_concat {c : Catalog} (hr : MethodsReflect c calls)
    (hn : call.changed? = none) : MethodsReflect c (calls ++ [call]) := by
  intro id key i hi
  refine (hr hi).concat_of_ne ?_
  rw [hn]
  exact (Option.some_ne_none id).symm

/-- A record is new only under a number that no call has changed before. -/
theorem methodsReflect_of_entered {c : Catalog} {m : Metadata} {owner : TypeInstanceId}
    {method : MethodDefId} {args : List Sig} {k : TypeInstanceId × String} {i : MethodInstance}
    {r : Registry (TypeInstanceId × String) MethodInstance} {id : MethodInstanceId}
    (hr : MethodsReflect c calls) (hc : ChangedExist c calls)
    (hi : c.freshMethod m owner method args = .ok i) (he : Registry.Entered c.methods k i r id) :
    MethodsReflect { c with methods := r } calls := by
  intro j key l hl
  cases he with
  | found _ => exact hr hl
  | added _ =>
    rcases getElem?_concat hl with hl | ⟨rfl, hki⟩
    · exact hr hl
    · cases hki
      -- the new number is past the end, where no call can have changed anything
      obtain ⟨_, _, _, _, _, rfl⟩ := Catalog.freshMethod_ok hi
      refine MethodInstance.reflects_of_unchanged rfl (fun m => by cases m <;> rfl) ?_
      intro call hcall hid
      obtain ⟨e, he⟩ := hc call hcall _ hid
      exact absurd (List.getElem?_eq_some_iff.1 he).1 (Nat.lt_irrefl _)

theorem methodsReflect_modifyMethod {c : Catalog} {id : MethodInstanceId}
    {f : MethodInstance → MethodInstance} (hr : MethodsReflect c calls)
    (hn : call.changed? = some id)
    (hf : ∀ i, c.methodInstance id = .ok i → i.Reflects calls id →
      (f i).Reflects (calls ++ [call]) id) :
    MethodsReflect (c.modifyMethod id f) (calls ++ [call]) := by
  intro j key l hl
  rw [Catalog.modifyMethod, Registry.getElem?_entries_modify, Option.map_eq_some_iff] at hl
  obtain ⟨⟨key', i⟩, hi, he⟩ := hl
  split at he
  · rename_i hj
    cases he
    subst hj
    exact hf i (Catalog.methodInstance_eq_ok_iff.2 (Registry.get?_of_entry hi)) (hr hi)
  · rename_i hj
    cases he
    refine (hr hi).concat_of_ne ?_
    rw [hn]
    exact fun h => hj (Option.some.inj h)

/-- A call gives each record what it adds or sets there, and nothing else. -/
theorem Performed.methodsReflect (h : Performed s call answer t)
    (hr : MethodsReflect s.catalog calls) (hc : ChangedExist s.catalog calls) :
    MethodsReflect t.catalog (calls ++ [call]) := by
  cases h with
  | method _ hi _ he =>
    exact methodsReflect_concat (methodsReflect_of_entered hr hc hi he) rfl
  | @override method target i hi =>
    refine methodsReflect_modifyMethod hr rfl ?_
    intro j hj hrefl
    rw [hi] at hj
    cases hj
    exact hrefl.addOverride target
  | @processed method value i hi =>
    exact methodsReflect_modifyMethod hr rfl fun j _ hrefl => hrefl.withMark value .processed
  | @skipped method value i hi =>
    exact methodsReflect_modifyMethod hr rfl fun j _ hrefl => hrefl.withMark value .skipped
  | _ => exact methodsReflect_concat hr rfl

end Session

namespace Catalog

variable {c : Catalog} {m : Metadata}

/-- Where the method is there, a call that changes it is answered. -/
theorem exists_perform_iff (c : Catalog) (m : Metadata) {call : Call} {id : MethodInstanceId}
    (h : call.changed? = some id) :
    (∃ t answer, Session.perform ⟨m, c⟩ call = .ok (t, answer)) ↔
      ∃ i, c.methodInstance id = .ok i := by
  constructor
  · rintro ⟨t, answer, hp⟩
    cases Session.performed_of_ok hp with
    | override hi | processed hi | skipped hi =>
      cases h
      exact ⟨_, hi⟩
    | _ => cases h
  · rintro ⟨i, hi⟩
    cases call with
    | addOverride method target =>
      cases h
      simp [Session.perform, addOverride, hi, bind, Except.bind, Except.map, pure, Except.pure]
    | setProcessed method value =>
      cases h
      simp [Session.perform, setProcessed, hi, bind, Except.bind, Except.map, pure, Except.pure]
    | setSkipped method value =>
      cases h
      simp [Session.perform, setSkipped, hi, bind, Except.bind, Except.map, pure, Except.pure]
    | _ => cases h

theorem pending_increasing (c : Catalog) : c.pending.Pairwise (· < ·) :=
  List.pairwise_lt_range.filter _

theorem mem_pending_iff {id : MethodInstanceId} : id ∈ c.pending ↔
    ∃ i, c.methodInstance id = .ok i ∧ i.processed = false ∧ i.skipped = false := by
  rw [pending, List.mem_filter, List.mem_range, isPending]
  simp only [methodInstance_eq_ok_iff]
  constructor
  · rintro ⟨hlt, hp⟩
    obtain ⟨i, hi⟩ := Registry.exists_get?_of_lt hlt
    rw [hi] at hp
    exact ⟨i, hi, by simpa using hp⟩
  · rintro ⟨i, hi, hp⟩
    rw [hi, ← Registry.length_values]
    exact ⟨(List.getElem?_eq_some_iff.1 hi).1, by simpa using hp⟩

/-- A request under a key that is there changes nothing. -/
theorem perform_resolveMethod_of_find? {owner : TypeInstanceId} {method : MethodDefId}
    {args : List Sig} {key : String} {id : MethodInstanceId}
    (hk : c.methodKey m owner method args = .ok key)
    (hf : c.methods.find? (owner, key) = some id) :
    Session.perform ⟨m, c⟩ (.resolveMethod owner method args) = .ok (⟨m, c⟩,
      if Sig.anyHasParam args = true then .unpublished else .published id) := by
  obtain ⟨i, hi, hkey⟩ := exists_of_bind_ok hk
  have hresolve : c.resolveMethod m owner method args =
      .ok (c, if Sig.anyHasParam args = true then none else some id) := by
    cases hp : Sig.anyHasParam args with
    | false => exact resolveMethod_of_find? hp hi hkey hf
    | true =>
      obtain ⟨t, ht, hi⟩ := exists_of_bind_ok hi
      obtain ⟨d, hd, _⟩ := exists_of_bind_ok hi
      simp [resolveMethod, ht, hd, hp, bind, Except.bind, pure, Except.pure]
  rw [Session.perform, hresolve]
  split
  · rfl
  · rfl

end Catalog

/-! ## Runs in which every call finds definitions of its own -/

/-- A call, and the definitions that it finds. -/
structure Turn where
  definitions : Metadata
  call : Call

/-- A catalog, and the calls that were answered on the way to it, in their order. -/
structure History where
  catalog : Catalog
  answered : List Call

namespace History

open Session (MethodsReflect ChangedExist performed_of_ok)

def start : History :=
  ⟨∅, []⟩

/-- The history with one more turn; a call that fails changes nothing. -/
def step (h : History) (turn : Turn) : History :=
  match Session.perform ⟨turn.definitions, h.catalog⟩ turn.call with
  | .ok (t, _) => ⟨t.catalog, h.answered ++ [turn.call]⟩
  | .error _ => h

def after (turns : List Turn) : History :=
  turns.foldl step start

theorem after_concat (turns : List Turn) (turn : Turn) :
    after (turns ++ [turn]) = (after turns).step turn := by
  rw [after, List.foldl_append]
  rfl

/-- What a run keeps about the records of methods. -/
structure Sound (h : History) : Prop where
  keys : h.catalog.methods.keys.Nodup
  key : ∀ {id : MethodInstanceId} {owner : TypeInstanceId} {key : String} {i : MethodInstance},
    h.catalog.methods.entries[id]? = some ((owner, key), i) → i.concretizedKey = .ok key
  changed : ChangedExist h.catalog h.answered
  reflects : MethodsReflect h.catalog h.answered

theorem sound_start : start.Sound where
  keys := List.nodup_nil
  key hi := nomatch hi
  changed _ hm := nomatch hm
  reflects hi := nomatch hi

theorem Sound.step {h : History} (hs : h.Sound) (turn : Turn) : (h.step turn).Sound := by
  rw [History.step]
  split
  · rename_i hp
    have hp := performed_of_ok hp
    refine ⟨hp.methodKeys hs.keys, ?_, hp.changedExist hs.changed,
      hp.methodsReflect hs.reflects hs.changed⟩
    intro id owner key i hi
    rcases hp.methodEntry hi with ⟨j, hj, hij⟩ | ⟨_, _, _, _, _, _, _, hk⟩
    · rw [MethodInstance.concretizedKey_of_pristine hij]
      exact hs.key hj
    · exact hk
  · exact hs

theorem sound_after (turns : List Turn) : (after turns).Sound := by
  induction turns using List.reverseRecOn with
  | nil => exact sound_start
  | append_singleton turns turn ih =>
    rw [after_concat]
    exact ih.step turn

/-- The turns of a session: each call finds the definitions that are there by then. -/
def ofSession : Session → List Call → List Turn
  | _, [] => []
  | s, call :: rest => ⟨s.metadata, call⟩ :: ofSession (s.step call) rest

theorem catalog_step {h : History} {s : Session} (hc : h.catalog = s.catalog) (call : Call) :
    (h.step ⟨s.metadata, call⟩).catalog = (s.step call).catalog := by
  rw [History.step, Session.step, hc]
  show (match s.perform call with
    | .ok (t, _) => History.mk t.catalog _
    | .error _ => h).catalog = _
  cases s.perform call with
  | ok p => rfl
  | error e => exact hc

theorem catalog_foldl (calls : List Call) {h : History} {s : Session}
    (hc : h.catalog = s.catalog) :
    ((ofSession s calls).foldl History.step h).catalog = (calls.foldl Session.step s).catalog := by
  induction calls generalizing h s with
  | nil => exact hc
  | cons call rest ih => exact ih (catalog_step hc call)

/-- The catalog of a session is that of a run. -/
theorem after_ofSession (calls : List Call) :
    (after (ofSession Session.start calls)).catalog = (Session.after calls).catalog :=
  catalog_foldl calls rfl

theorem Sound.reflects_methodInstance {h : History} (hs : h.Sound) {id : MethodInstanceId}
    {i : MethodInstance} (hi : h.catalog.methodInstance id = .ok i) : i.Reflects h.answered id := by
  obtain ⟨key, he⟩ := Catalog.exists_entry_of_methodInstance hi
  exact hs.reflects he

theorem Sound.isNew_iff {h : History} (hs : h.Sound) {m : Metadata} {id target : MethodInstanceId}
    {new : Bool} {t : Session}
    (hp : Session.perform ⟨m, h.catalog⟩ (.addOverride id target) = .ok (t, .isNew new)) :
    new = true ↔ .addOverride id target ∉ h.answered := by
  cases performed_of_ok hp with
  | @override _ _ i hi =>
    have hr := hs.reflects_methodInstance hi
    rw [← Call.mem_overrides_iff, ← hr.overrides, MethodInstance.addOverride]
    split
    · rename_i hc
      simpa using hc
    · rename_i hc
      simpa using hc

/-- After every run the overrides of a method are those that the calls added to it, each once, and
a mark is the last value that it was set to. A call that changes a method is answered iff the method
is there, and an override is new iff no call has added it to that method before. The methods with
neither mark wait, in increasing order. A request under the key of a method that is there, which is
that of its record, leaves the whole catalog as it is. -/
theorem marks_survive (turns : List Turn) :
    (∀ id i, (after turns).catalog.methodInstance id = .ok i →
      i.overrides = Call.overrides (after turns).answered id ∧
        i.processed = Call.mark (after turns).answered .processed id ∧
        i.skipped = Call.mark (after turns).answered .skipped id) ∧
    (∀ m call id, call.changed? = some id →
      ((∃ t answer, Session.perform ⟨m, (after turns).catalog⟩ call = .ok (t, answer)) ↔
        ∃ i, (after turns).catalog.methodInstance id = .ok i)) ∧
    (∀ m id target new t,
      Session.perform ⟨m, (after turns).catalog⟩ (.addOverride id target) = .ok (t, .isNew new) →
        (new = true ↔ .addOverride id target ∉ (after turns).answered)) ∧
    ((after turns).catalog.pending.Pairwise (· < ·) ∧
      ∀ id, id ∈ (after turns).catalog.pending ↔ ∃ i,
        (after turns).catalog.methodInstance id = .ok i ∧ i.processed = false ∧
          i.skipped = false) ∧
    ∀ id owner key i, (after turns).catalog.methods.entries[id]? = some ((owner, key), i) →
      i.concretizedKey = .ok key ∧
        ∀ m method args, (after turns).catalog.methodKey m owner method args = .ok key →
          Session.perform ⟨m, (after turns).catalog⟩ (.resolveMethod owner method args) =
            .ok (⟨m, (after turns).catalog⟩,
              if Sig.anyHasParam args = true then .unpublished else .published id) := by
  have hs := sound_after turns
  refine ⟨?_, ?_, ?_, ⟨Catalog.pending_increasing _, fun id => Catalog.mem_pending_iff⟩, ?_⟩
  · intro id i hi
    have hr := hs.reflects_methodInstance hi
    exact ⟨hr.overrides, hr.mark .processed, hr.mark .skipped⟩
  · intro m call id h
    exact Catalog.exists_perform_iff _ m h
  · intro m id target new t hp
    exact hs.isNew_iff hp
  · intro id owner key i he
    refine ⟨hs.key he, ?_⟩
    intro m method args hk
    exact Catalog.perform_resolveMethod_of_find? hk
      (Registry.find?_of_getElem?_keys hs.keys (Registry.key_of_entry he))

/-- A generic type with two overloads that become equal for integers. -/
def overloads : Metadata :=
  (Session.after [.addType "Demo" "Box" 1 false false,
    .addMethod 0 "Put"
      (.plain ⟨0x20⟩ (.primitive .void) [.typeParam 0 ⟨0, "Demo", "Box", false⟩]) ⟨6⟩ none,
    .addMethod 0 "Put" (.plain ⟨0x20⟩ (.primitive .void) [.primitive .int32]) ⟨6⟩ none]).metadata

/-- The first call for an override comes too early. Later the other overload is asked for. -/
def workTurns : List Turn :=
  [⟨overloads, .resolveType 0 [.primitive .int32]⟩, ⟨overloads, .addOverride 0 5⟩,
    ⟨overloads, .resolveMethod 0 0 []⟩, ⟨overloads, .addOverride 0 7⟩,
    ⟨overloads, .setProcessed 0 true⟩, ⟨overloads, .setSkipped 0 true⟩,
    ⟨overloads, .resolveMethod 0 1 []⟩, ⟨∅, .addOverride 0 2⟩, ⟨∅, .addOverride 0 7⟩,
    ⟨∅, .setSkipped 0 false⟩]

theorem marks_survive_work :
    (∃ i, (after workTurns).catalog.methodInstance 0 = .ok i ∧ i.overrides = [7, 2] ∧
      i.processed = true ∧ i.skipped = false) ∧
    (∃ t, Session.perform ⟨∅, (after workTurns).catalog⟩ (.addOverride 0 5) = .ok (t, .isNew true) ∧
      .addOverride 0 5 ∉ (after workTurns).answered) ∧
    Session.perform ⟨overloads, (after workTurns).catalog⟩ (.resolveMethod 0 1 []) =
      .ok (⟨overloads, (after workTurns).catalog⟩, .published 0) := by
  obtain ⟨hrecords, _, hnew, _, hagain⟩ := marks_survive workTurns
  refine ⟨⟨_, rfl, hrecords 0 _ rfl⟩, ⟨_, rfl, (hnew ∅ 0 5 _ _ rfl).1 rfl⟩, ?_⟩
  exact (hagain 0 0 "Put|Void(Int32)|20|6" _ rfl).2 overloads 1 [] rfl

end History
end Monomorph
