import Monomorph.Proofs.Instance.Failures
import Monomorph.Proofs.Instance.InPlace

/-!
# Monomorph.Proofs.Instance.LifeCycle

What any run of operations makes of the record of a method.

* `MethodInstance.after_eq`: only the first attempt to make the record concrete counts, and besides
  overrides nothing else changes.
* `MethodRecord.life_cycle`: so a record becomes concrete at most once and then entirely, an attempt
  that fails leaves no trace, and the keys stay the same before and after.
-/

namespace Monomorph

namespace MethodInstance

/-! ## Runs as functions -/

section Runs

variable {i : MethodInstance}

theorem after_concat (i : MethodInstance) (ops : List Operation) (op : Operation) :
    i.after (ops ++ [op]) = (i.after ops).step op := by
  rw [after, after, List.foldl_append]
  rfl

/-- A first attempt to make the record concrete settles what later attempts find. -/
theorem step_concretize {c : Option ConcreteSig} {os : List MethodInstanceId}
    (h : c = none ∨ c = i.concreteSig.toOption) :
    step { i with concrete := c, overrides := os } .concretize =
      { i with concrete := i.concreteSig.toOption, overrides := os } := by
  have hsame : concreteSig { i with concrete := c, overrides := os } = i.concreteSig := rfl
  cases c with
  | some c =>
    rw [← h.resolve_left (Option.some_ne_none c)]
    rfl
  | none =>
    rw [step, perform, concretize, hsame]
    cases i.concreteSig with
    | ok c => rfl
    | error e => rfl

theorem step_of_ne_concretize (i : MethodInstance) {op : Operation} (h : op ≠ .concretize) :
    ∃ os, i.step op = { i with overrides := os } := by
  rw [step]
  cases op with
  | concretize => exact absurd rfl h
  | declaredKey =>
    rw [perform]
    cases i.declaredKey with
    | ok key => exact ⟨_, rfl⟩
    | error e => exact ⟨_, rfl⟩
  | concretizedKey =>
    rw [perform]
    cases i.concretizedKey with
    | ok key => exact ⟨_, rfl⟩
    | error e => exact ⟨_, rfl⟩
  | addOverride target =>
    show ∃ os, (i.addOverride target).1 = { i with overrides := os }
    rw [addOverride]
    split
    · exact ⟨_, rfl⟩
    · exact ⟨_, rfl⟩

/-- The first attempt to make the record concrete counts, wherever it stands in the run. -/
theorem after_eq (h : i.concrete = none) (ops : List Operation) :
    ∃ os, i.after ops = { i with
      concrete := if .concretize ∈ ops then i.concreteSig.toOption else none, overrides := os } := by
  induction ops using List.reverseRecOn with
  | nil =>
    refine ⟨i.overrides, ?_⟩
    rw [if_neg List.not_mem_nil, ← h]
    rfl
  | append_singleton ops op ih =>
    obtain ⟨os, ih⟩ := ih
    rw [after_concat, ih]
    by_cases hop : op = .concretize
    · refine ⟨os, ?_⟩
      rw [hop, if_pos (List.mem_append_right _ List.mem_cons_self)]
      apply step_concretize
      split
      · exact .inr rfl
      · exact .inl rfl
    · obtain ⟨os', hstep⟩ := step_of_ne_concretize _ hop
      refine ⟨os', ?_⟩
      rw [hstep]
      simp [Ne.symm hop]

theorem concrete_after (h : i.concrete = none) (ops : List Operation) : (i.after ops).concrete =
    if .concretize ∈ ops then i.concreteSig.toOption else none := by
  obtain ⟨os, ho⟩ := after_eq h ops
  rw [ho]

theorem definition_after (h : i.concrete = none) (ops : List Operation) :
    (i.after ops).definition = i.definition := by
  obtain ⟨os, ho⟩ := after_eq h ops
  rw [ho]

theorem name_after (h : i.concrete = none) (ops : List Operation) : (i.after ops).name = i.name :=
  congrArg MethodDef.name (definition_after h ops)

theorem concreteSig_after (h : i.concrete = none) (ops : List Operation) :
    (i.after ops).concreteSig = i.concreteSig := by
  obtain ⟨os, ho⟩ := after_eq h ops
  rw [ho]
  rfl

theorem keyFor_after (h : i.concrete = none) (ops : List Operation) (ret : Sig)
    (params : List Sig) : (i.after ops).keyFor ret params = i.keyFor ret params := by
  obtain ⟨os, ho⟩ := after_eq h ops
  rw [ho]
  rfl

theorem declaredKey_after (h : i.concrete = none) (ops : List Operation) :
    (i.after ops).declaredKey = i.declaredKey := by
  rw [declaredKey, keyFor_after h, definition_after h]
  rfl

/-- A concrete signature stays as it is. -/
theorem concrete_after_append (h : i.concrete = none) {ops : List Operation} {c : ConcreteSig}
    (hc : (i.after ops).concrete = some c) (more : List Operation) :
    (i.after (ops ++ more)).concrete = some c := by
  rw [concrete_after h] at hc ⊢
  split at hc
  · rename_i hm
    rw [if_pos (List.mem_append_left _ hm), hc]
  · cases hc

theorem concreteSig_of_concrete_after (h : i.concrete = none) {ops : List Operation}
    {c : ConcreteSig} (hc : (i.after ops).concrete = some c) : i.concreteSig = .ok c := by
  rw [concrete_after h] at hc
  split at hc
  · cases hs : i.concreteSig with
    | ok c' =>
      rw [hs] at hc
      cases hc
      rfl
    | error e =>
      rw [hs] at hc
      cases hc
  · cases hc

end Runs

end MethodInstance

namespace MethodRecord

open MethodInstance (Operation Reply)

variable {r : MethodRecord} {i : MethodInstance}

/-! ## The life cycle -/

/-- The operation at that place of the run makes the record concrete. -/
def SucceedsAt (r : MethodRecord) (ops : List Operation) (k : Nat) : Prop :=
  ops[k]? = some .concretize ∧ (r.after (ops.take k)).answer .concretize = .ok .done

/-- None of the derived fields is written. -/
structure Unfilled (r : MethodRecord) : Prop where
  concretized : r.concretized = false
  receiver : r.receiver = none
  ret : r.ret = none
  params : r.params = none
  sentinel : r.sentinel = none
  locals : r.locals = none

/-- Which of the derived fields are written, and the lengths of the lists among them. -/
structure Written (d : MethodDef) (r : MethodRecord) : Prop where
  ret : r.ret.isSome = r.concretized
  receiver : r.receiver.isSome = (r.concretized && d.hasThis)
  params : r.params.map List.length =
    if r.concretized = true then some d.sig.params.length else none
  sentinel : r.sentinel.map List.length =
    if r.concretized = true then d.sig.sentinel.map List.length else none
  /-- A body without locals has no list of them. -/
  locals : ∀ n, r.locals.map List.length = some n ↔
    r.concretized = true ∧ ∃ b, d.body = some b ∧ b.locals ≠ [] ∧ n = b.locals.length

/-- The record of a method after any run of operations. -/
structure LifeCycle (d : MethodDef) (r : MethodRecord) (ops : List Operation) : Prop where
  /-- At most one operation makes the record concrete. -/
  once : ∀ j k, SucceedsAt r ops j → SucceedsAt r ops k → j = k
  /-- After that one each attempt is refused, and changes nothing. -/
  refused : (∃ k, SucceedsAt r ops k) →
    (perform .concretize).run (r.after ops) = .error (.alreadyConcretized d.name) (r.after ops)
  /-- An attempt that fails changes nothing; one that fails for another reason finds nothing
  written. -/
  failed : ∀ e s, (perform .concretize).run (r.after ops) = .error e s → s = r.after ops ∧
    (e = .alreadyConcretized d.name ↔ ∃ k, SucceedsAt r ops k) ∧
    (e ≠ .alreadyConcretized d.name → s.Unfilled)
  notConcretized : (r.after ops).answer .concretizedKey = .error (.notConcretized d.name) ↔
    ¬ ∃ k, SucceedsAt r ops k
  concretizedKey : (∃ k, SucceedsAt r ops k) → ∀ more,
    (r.after (ops ++ more)).answer .concretizedKey = (r.after ops).answer .concretizedKey
  declaredKey : (r.after ops).answer .declaredKey = r.answer .declaredKey
  concretized : (r.after ops).concretized = true ↔ ∃ k, SucceedsAt r ops k
  written : (r.after ops).Written d

section LifeCycle

variable {ops : List Operation}

/-- That is the first attempt, if the types can be substituted at all. -/
theorem succeedsAt_iff (h : r.Holds i) (hi : i.concrete = none) {k : Nat} :
    SucceedsAt r ops k ↔ ops[k]? = some .concretize ∧ .concretize ∉ ops.take k ∧
      ∃ c, i.concreteSig = .ok c := by
  refine and_congr_right fun _ => ?_
  rw [answer_eq (after_holds h _), MethodInstance.perform, MethodInstance.concretize,
    MethodInstance.concreteSig_after hi, MethodInstance.concrete_after hi]
  by_cases hm : .concretize ∈ ops.take k
  · rw [if_pos hm]
    cases i.concreteSig with
    | ok c => simp [Except.toOption, Except.map, hm]
    | error e => simp [Except.toOption, Except.map]
  · rw [if_neg hm]
    cases i.concreteSig with
    | ok c => simp [Except.map, hm]
    | error e => simp [Except.map]

theorem exists_succeedsAt_iff (h : r.Holds i) (hi : i.concrete = none) :
    (∃ k, SucceedsAt r ops k) ↔ ∃ c, (i.after ops).concrete = some c := by
  simp only [succeedsAt_iff h hi, MethodInstance.concrete_after hi]
  constructor
  · rintro ⟨k, hk, _, c, hc⟩
    refine ⟨c, ?_⟩
    rw [if_pos (List.mem_of_getElem? hk), hc]
    rfl
  · rintro ⟨c, hc⟩
    have hs := MethodInstance.concreteSig_of_concrete_after hi
      ((MethodInstance.concrete_after hi ops).trans hc)
    split at hc
    · rename_i hm
      -- the first of the attempts
      obtain ⟨before, rest, rfl, hbefore⟩ := List.eq_append_cons_of_mem hm
      exact ⟨before.length, by simp, by simpa using hbefore, c, hs⟩
    · cases hc

theorem succeedsAt_unique (h : r.Holds i) (hi : i.concrete = none) {j k : Nat}
    (hj : SucceedsAt r ops j) (hk : SucceedsAt r ops k) : j = k := by
  rw [succeedsAt_iff h hi] at hj hk
  have hmem {j k : Nat} (hj : ops[j]? = some .concretize) (hlt : j < k) :
      Operation.concretize ∈ ops.take k := by
    refine List.mem_of_getElem? (i := j) ?_
    rw [List.getElem?_take_of_lt hlt, hj]
  rcases Nat.lt_trichotomy j k with hlt | heq | hlt
  · exact absurd (hmem hj.1 hlt) hk.2.1
  · exact heq
  · exact absurd (hmem hk.1 hlt) hj.2.1

theorem unfilled_of_concrete (h : r.Holds i) (hc : i.concrete = none) : r.Unfilled where
  concretized := by rw [h.concretized, hc]; rfl
  receiver := by rw [h.receiver, hc]; rfl
  ret := by rw [h.ret, hc]; rfl
  params := by rw [h.params, hc]; rfl
  sentinel := by rw [h.sentinel, hc]; rfl
  locals := by rw [h.locals, hc]; rfl

theorem concretize_refused (h : r.Holds i) {c : ConcreteSig} (hc : i.concrete = some c) :
    (perform .concretize).run r = .error (.alreadyConcretized i.name) r := by
  have hconcretized : r.concretized = true := by
    rw [h.concretized, hc]
    rfl
  rw [perform, EStateM.run_bind, run_concretize, if_pos hconcretized, h.name_base]

/-- Without a concrete signature an attempt fails only because of the declared types. -/
theorem concretize_failed (h : r.Holds i) (hc : i.concrete = none) {e : Error} {s : MethodRecord}
    (hrun : (perform .concretize).run r = .error e s) : s = r ∧ e.OfSignature := by
  have hfollows := h.concretize_follows
  rw [hrun] at hfollows
  generalize hp : i.perform .concretize = x at hfollows
  cases hfollows
  rw [MethodInstance.perform, map_eq_error_iff] at hp
  exact ⟨rfl, MethodInstance.failsOnly_concretize hc e hp⟩

theorem answer_declaredKey (h : r.Holds i) :
    r.answer .declaredKey = i.declaredKey.map Reply.key := by
  rw [answer_eq h, MethodInstance.perform]
  cases i.declaredKey with
  | ok key => rfl
  | error e => rfl

theorem answer_concretizedKey (h : r.Holds i) :
    r.answer .concretizedKey = i.concretizedKey.map Reply.key := by
  rw [answer_eq h, MethodInstance.perform]
  cases i.concretizedKey with
  | ok key => rfl
  | error e => rfl

theorem answer_notConcretized_iff (h : r.Holds i) :
    r.answer .concretizedKey = .error (.notConcretized i.name) ↔ i.concrete = none := by
  rw [answer_concretizedKey h, map_eq_error_iff]
  cases hc : i.concrete with
  | none => simp [MethodInstance.concretizedKey, hc]
  | some c =>
    simp only [reduceCtorEq, iff_false]
    intro hk
    cases MethodInstance.failsOnly_concretizedKey hc _ hk

/-- What a concrete signature has of the declared one. -/
theorem lengths_of_concreteSig {c : ConcreteSig} (h : i.concreteSig = .ok c) :
    c.receiver.isSome = i.definition.hasThis ∧ c.params.length = i.definition.sig.params.length ∧
      c.sentinel.map List.length = i.definition.sig.sentinel.map List.length ∧
      c.locals.map List.length = i.declaredLocals.map List.length := by
  obtain ⟨_, hparams, hsentinel, hlocals, hreceiver⟩ := MethodInstance.concreteSig_ok h
  refine ⟨?_, (forall₂_of_mapM_ok hparams).length_eq.symm,
    (MethodInstance.substituteList?_ok hsentinel).1, (MethodInstance.substituteList?_ok hlocals).1⟩
  rw [hreceiver, MethodInstance.hasThis]
  cases i.definition.hasThis with
  | true => rfl
  | false => rfl

theorem length_declaredLocals_iff (i : MethodInstance) (n : Nat) :
    i.declaredLocals.map List.length = some n ↔
      ∃ b, i.definition.body = some b ∧ b.locals ≠ [] ∧ n = b.locals.length := by
  simp only [Option.map_eq_some_iff, MethodInstance.declaredLocals_eq_some_iff]
  constructor
  · rintro ⟨_, ⟨b, hb, hne, rfl⟩, rfl⟩
    exact ⟨b, hb, hne, rfl⟩
  · rintro ⟨b, hb, hne, rfl⟩
    exact ⟨_, ⟨b, hb, hne, rfl⟩, rfl⟩

theorem written_of_holds (h : r.Holds i) (hs : ∀ c, i.concrete = some c → i.concreteSig = .ok c) :
    r.Written i.definition := by
  cases hc : i.concrete with
  | none =>
    have hu := unfilled_of_concrete h hc
    refine ⟨?_, ?_, ?_, ?_, fun n => ?_⟩
    · rw [hu.ret, hu.concretized]
      rfl
    · rw [hu.receiver, hu.concretized]
      rfl
    · rw [hu.params, hu.concretized]
      rfl
    · rw [hu.sentinel, hu.concretized]
      rfl
    · simp [hu.locals, hu.concretized]
  | some c =>
    obtain ⟨hreceiver, hparams, hsentinel, hlocals⟩ := lengths_of_concreteSig (hs c hc)
    have hconcretized : r.concretized = true := by
      rw [h.concretized, hc]
      rfl
    refine ⟨?_, ?_, ?_, ?_, fun n => ?_⟩
    · rw [h.ret, hc, hconcretized]
      rfl
    · rw [h.receiver, hc, hconcretized]
      exact hreceiver
    · rw [h.params, hc, if_pos hconcretized, ← hparams]
      rfl
    · rw [h.sentinel, hc, if_pos hconcretized, ← hsentinel]
      rfl
    · rw [h.locals, hc, ← length_declaredLocals_iff, ← hlocals]
      simp [hconcretized]

theorem failed_after (h : r.Holds i) (hi : i.concrete = none) {e : Error} {s : MethodRecord}
    (hrun : (perform .concretize).run (r.after ops) = .error e s) : s = r.after ops ∧
      (e = .alreadyConcretized i.name ↔ ∃ k, SucceedsAt r ops k) ∧
      (e ≠ .alreadyConcretized i.name → s.Unfilled) := by
  have hs := after_holds h ops
  rw [exists_succeedsAt_iff h hi]
  cases hc : (i.after ops).concrete with
  | some c =>
    rw [concretize_refused hs hc, MethodInstance.name_after hi] at hrun
    cases hrun
    exact ⟨rfl, iff_of_true rfl ⟨c, rfl⟩, fun he => absurd rfl he⟩
  | none =>
    obtain ⟨rfl, he⟩ := concretize_failed hs hc hrun
    have hne : e ≠ .alreadyConcretized i.name := by
      rintro rfl
      cases he
    exact ⟨rfl, iff_of_false hne (by simp), fun _ => unfilled_of_concrete hs hc⟩

theorem answer_concretizedKey_append (h : r.Holds i) (hi : i.concrete = none)
    (hk : ∃ k, SucceedsAt r ops k) (more : List Operation) :
    (r.after (ops ++ more)).answer .concretizedKey = (r.after ops).answer .concretizedKey := by
  obtain ⟨c, hc⟩ := (exists_succeedsAt_iff h hi).1 hk
  have hmore := MethodInstance.concrete_after_append hi hc more
  rw [answer_concretizedKey (after_holds h _), answer_concretizedKey (after_holds h _),
    MethodInstance.concretizedKey, MethodInstance.concretizedKey, hc, hmore]
  simp only [MethodInstance.keyFor_after hi]

theorem lifeCycle_of_holds (h : r.Holds i) (hi : i.concrete = none) (ops : List Operation) :
    LifeCycle i.definition r ops := by
  have hs := after_holds h ops
  have hsucceeded : (∃ k, SucceedsAt r ops k) ↔ _ := exists_succeedsAt_iff h hi
  have hname := MethodInstance.name_after hi ops
  exact {
    once := fun _ _ => succeedsAt_unique h hi
    refused := by
      intro hk
      obtain ⟨c, hc⟩ := hsucceeded.1 hk
      rw [concretize_refused hs hc, hname]
      rfl
    failed := fun e s => failed_after h hi
    notConcretized := by
      have hiff := answer_notConcretized_iff hs
      rw [hname] at hiff
      refine hiff.trans ?_
      rw [hsucceeded, ← Option.isSome_iff_exists]
      simp
    concretizedKey := answer_concretizedKey_append h hi
    declaredKey := by
      rw [answer_declaredKey hs, answer_declaredKey h, MethodInstance.declaredKey_after hi]
    concretized := by rw [hs.concretized, hsucceeded, Option.isSome_iff_exists]
    written := by
      rw [← MethodInstance.definition_after hi ops]
      refine written_of_holds hs fun c hc => ?_
      rw [MethodInstance.concreteSig_after hi]
      exact MethodInstance.concreteSig_of_concrete_after hi hc }

/-- A record that is made for a method goes through its life cycle, whatever is asked of it and
however often, and in place every operation replies as the function does. -/
theorem life_cycle {owner : TypeInstance} {d : MethodDef} {args : List Sig}
    (h : make owner d args = .ok r) (ops : List Operation) : LifeCycle d r ops ∧
      ∃ i, MethodInstance.make owner d args = .ok i ∧ (r.after ops).Holds (i.after ops) ∧
        ∀ op, Follows (r.after ops) ((i.after ops).perform op) ((perform op).run (r.after ops)) := by
  obtain ⟨i, hi, rfl⟩ := exists_of_map_ok h
  have hr := fresh_holds hi
  have hs := after_holds hr ops
  refine ⟨?_, i, hi, hs, perform_follows hs⟩
  obtain rfl := MethodInstance.make_ok hi
  exact lifeCycle_of_holds hr rfl ops

/-- A jar of numbers, which is passed by reference. -/
def jarInstance : TypeInstance :=
  ⟨⟨0, "Demo", "Jar", false⟩, true, [.primitive .int32]⟩

/-- A method of jars with a parameter of its own, a sentinel, and a local variable of the type of a
parameter. -/
def putDef (number : Nat) : MethodDef :=
  ⟨3, 0, "Put", ⟨⟨0x35⟩, 1, .typeParam 0 jarInstance.type, [.methodParam 0 3, .primitive .char],
    some [.methodParam 0 3]⟩, ⟨6⟩, some ⟨[.methodParam number 3], [], []⟩⟩

/-- The record of that method with one argument. -/
def putRecord (number : Nat) : MethodRecord :=
  fresh ⟨jarInstance, putDef number, [.primitive .string], none, [], false, false⟩

/-- A second attempt is refused. An attempt that fails at the local variables, which are the last to
be substituted, leaves nothing behind. -/
theorem life_cycle_jar :
    let ops := [Operation.declaredKey, .concretizedKey, .concretize, .addOverride 7, .declaredKey]
    make jarInstance (putDef 0) [.primitive .string] = .ok (putRecord 0) ∧
    SucceedsAt (putRecord 0) ops 2 ∧
    (perform .concretize).run ((putRecord 0).after ops) =
      .error (.alreadyConcretized "Put") ((putRecord 0).after ops) ∧
    ((putRecord 0).after ops).locals.map List.length = some 1 ∧
    make jarInstance (putDef 1) [.primitive .string] = .ok (putRecord 1) ∧
    (perform .concretize).run ((putRecord 1).after ops) =
      .error (.argOutOfRange .method 1 1) ((putRecord 1).after ops) ∧
    ((putRecord 1).after ops).Unfilled ∧
    ((putRecord 1).after ops).answer .concretizedKey = .error (.notConcretized "Put") := by
  intro ops
  have hput : make jarInstance (putDef 0) [.primitive .string] = .ok (putRecord 0) := rfl
  have hbad : make jarInstance (putDef 1) [.primitive .string] = .ok (putRecord 1) := rfl
  have hsucceeds : SucceedsAt (putRecord 0) ops 2 := ⟨rfl, rfl⟩
  have hfails : (perform .concretize).run ((putRecord 1).after ops) =
      .error (.argOutOfRange .method 1 1) ((putRecord 1).after ops) := rfl
  obtain ⟨hlife, _⟩ := life_cycle hput ops
  obtain ⟨hlife', _⟩ := life_cycle hbad ops
  obtain ⟨_, halready, hunfilled⟩ := hlife'.failed _ _ hfails
  refine ⟨hput, hsucceeds, hlife.refused ⟨2, hsucceeds⟩, ?_, hbad, hfails, hunfilled (by simp), ?_⟩
  · exact (hlife.written.locals 1).2 ⟨hlife.concretized.2 ⟨2, hsucceeds⟩, _, rfl, by simp, rfl⟩
  · exact hlife'.notConcretized.2 (by simp [← halready])

end LifeCycle

end MethodRecord
end Monomorph
