import Monomorph.Proofs.Session.Identity

/-!
# Monomorph.Proofs.Session.Overloads

Which definition the record of a method belongs to.

A method goes by its owner and its key, and the key does not tell which definition it is made of.
Two overloads whose parameters become equal under the arguments of the owner have the same key, and
then both requests get the record of the one that came first (`overloads_share_record`).

* `exists_firstAsks`: the record under a key belongs to the definition that the first request with
  that key asked for.
* `definition_eq_iff_firstAsks`: so a request gets a record of its own definition iff the first
  request with its key asked for the same definition.
-/

namespace Monomorph
namespace Session

variable {calls : List Call} {owner : TypeInstanceId} {key : String}

/-- Call number `i` of a run asks for a method of `owner` and gets the record under that key. -/
def Asks (calls : List Call) (i : Nat) (owner : TypeInstanceId) (key : String)
    (method : MethodDefId) : Prop :=
  ∃ args id, Answers calls i (.resolveMethod owner method args) (.published id) ∧
    (before calls i).catalog.methodKey (before calls i).metadata owner method args = .ok key

/-- Call number `i` is the first one that asks under that key. -/
def FirstAsks (calls : List Call) (i : Nat) (owner : TypeInstanceId) (key : String)
    (method : MethodDefId) : Prop :=
  Asks calls i owner key method ∧ ∀ k < i, ∀ other, ¬Asks calls k owner key other

theorem Asks.lt_length {i : Nat} {method : MethodDefId} (h : Asks calls i owner key method) :
    i < calls.length := by
  obtain ⟨args, id, ha, _⟩ := h
  exact ha.lt_length

theorem asks_append_iff {i : Nat} (h : i < calls.length) (more : List Call)
    {method : MethodDefId} :
    Asks (calls ++ more) i owner key method ↔ Asks calls i owner key method := by
  simp only [Asks, answers_append_iff h, before_append (Nat.le_of_lt h)]

theorem FirstAsks.append {i : Nat} {method : MethodDefId}
    (h : FirstAsks calls i owner key method) (more : List Call) :
    FirstAsks (calls ++ more) i owner key method := by
  have hi := h.1.lt_length
  refine ⟨(asks_append_iff hi more).2 h.1, ?_⟩
  intro k hk other ho
  exact h.2 k hk other ((asks_append_iff (by omega) more).1 ho)

theorem FirstAsks.le {i j : Nat} {method other : MethodDefId}
    (h : FirstAsks calls i owner key method) (hj : Asks calls j owner key other) : i ≤ j :=
  Nat.le_of_not_lt fun hlt => h.2 j hlt other hj

theorem FirstAsks.unique {i j : Nat} {method other : MethodDefId}
    (h : FirstAsks calls i owner key method) (hj : FirstAsks calls j owner key other) :
    method = other := by
  obtain rfl : i = j := Nat.le_antisymm (h.le hj.1) (hj.le h.1)
  obtain ⟨args, id, ha, _⟩ := h.1
  obtain ⟨args', id', ha', _⟩ := hj.1
  have he := ha.1.symm.trans ha'.1
  cases he
  rfl

/-- A key under which something was asked stays. -/
theorem Asks.mem_keys {i : Nat} {method : MethodDefId} (h : Asks calls i owner key method) :
    (owner, key) ∈ (after calls).catalog.methods.keys := by
  obtain ⟨args, id, ha, hk⟩ := h
  obtain ⟨key', hk', hx⟩ := ha.methodKey
  rw [hk] at hk'
  cases hk'
  exact List.mem_of_getElem? hx

/-- The record under a key belongs to the definition that was asked for first. -/
theorem exists_firstAsks {id : MethodInstanceId} {r : MethodInstance}
    (h : (after calls).catalog.methods.entries[id]? = some ((owner, key), r)) :
    ∃ i, FirstAsks calls i owner key r.definition.id := by
  induction calls using List.reverseRecOn generalizing r with
  | nil => cases h
  | append_singleton calls call ih =>
    rw [after_concat, step] at h
    split at h
    · rename_i t answer hp
      rcases (performed_of_ok hp).methodEntry h with
        ⟨r', hr, hpr⟩ | ⟨method, args, rfl, rfl, hn, _, hf, hk⟩
      · rw [MethodInstance.definition_of_pristine hpr]
        obtain ⟨i, hi⟩ := ih hr
        exact ⟨i, hi.append _⟩
      · -- the entry is new, so nobody has asked under its key before
        rw [definition_of_freshMethod (coherent_after calls).indexed hf]
        refine ⟨calls.length, ⟨args, id, ⟨getElem?_concat_length _ _, t, ?_⟩, ?_⟩, ?_⟩
        · rw [before_length]
          exact hp
        · rw [before_length, Catalog.methodKey_of_freshMethod hf]
          exact hk
        · intro k hlt other ho
          have hm := ((asks_append_iff hlt _).1 ho).mem_keys
          exact Registry.find?_eq_none_iff.1 hn hm
    · obtain ⟨i, hi⟩ := ih h
      exact ⟨i, hi.append _⟩

/-- A request gets a record of its own definition iff that definition was asked for first under
its key. -/
theorem definition_eq_iff_firstAsks (calls : List Call) {i : Nat} {owner : TypeInstanceId}
    {method : MethodDefId} {args : List Sig} {id : MethodInstanceId}
    (h : Answers calls i (.resolveMethod owner method args) (.published id)) :
    ∃ r key, (after calls).catalog.methodInstance id = .ok r ∧ Asks calls i owner key method ∧
      (r.definition.id = method ↔ ∃ j ≤ i, FirstAsks calls j owner key method) := by
  obtain ⟨key, hk, hx⟩ := h.methodKey
  obtain ⟨r, hr⟩ := Registry.exists_entry_of_key hx
  have hi : Asks calls i owner key method := ⟨args, id, h, hk⟩
  obtain ⟨j, hj⟩ := exists_firstAsks hr
  refine ⟨r, key, Catalog.methodInstance_eq_ok_iff.2 (Registry.get?_of_entry hr), hi, ?_⟩
  constructor
  · intro hd
    rw [hd] at hj
    exact ⟨j, hj.le hi, hj⟩
  · rintro ⟨k, _, hf⟩
    exact hj.unique hf

/-- A generic type with two overloads: one takes the parameter of the type, the other an integer.
Both are asked for under the argument that makes them equal. -/
def overloadCalls : List Call :=
  [.addType "Demo" "Box" 1 false false,
    .addMethod 0 "Put"
      (.plain ⟨0x20⟩ (.primitive .void) [.typeParam 0 ⟨0, "Demo", "Box", false⟩]) ⟨6⟩ none,
    .addMethod 0 "Put" (.plain ⟨0x20⟩ (.primitive .void) [.primitive .int32]) ⟨6⟩ none,
    .resolveType 0 [.primitive .int32], .resolveMethod 0 0 [], .resolveMethod 0 1 []]

/-- The request for the second overload gets the record of the first. -/
theorem overloads_share_record :
    Answers overloadCalls 5 (.resolveMethod 0 1 []) (.published 0) ∧
      ∃ r, (after overloadCalls).catalog.methodInstance 0 = .ok r ∧ r.definition.id = 0 := by
  refine ⟨⟨rfl, _, rfl⟩, _, rfl, ?_⟩
  decide

theorem definition_eq_iff_firstAsks_overload :
    ∃ r key, (after overloadCalls).catalog.methodInstance 0 = .ok r ∧
      Asks overloadCalls 5 0 key 1 ∧ ¬∃ j ≤ 5, FirstAsks overloadCalls j 0 key 1 := by
  have h : Answers overloadCalls 5 (.resolveMethod 0 1 []) (.published 0) := ⟨rfl, _, rfl⟩
  obtain ⟨r, key, hr, ha, hd⟩ := definition_eq_iff_firstAsks overloadCalls h
  refine ⟨r, key, hr, ha, ?_⟩
  intro hf
  have hid := hd.2 hf
  cases hr
  exact absurd hid (by decide)

end Session
end Monomorph
