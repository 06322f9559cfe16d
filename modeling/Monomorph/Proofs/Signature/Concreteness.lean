import Monomorph.Proofs.Signature.Guard

/-!
# Monomorph.Proofs.Signature.Concreteness

When type arguments count as concrete.

The parameters are met from left to right, and the first one decides: `areConcrete_eq`. So a
parameter of a method is an error only where no parameter of a type comes before it, and the order
of the arguments matters.

* `meets_iff`: a walk down single children and through arguments meets the parameters in one order.
* `decided_by_first`: this order decides all three tests for parameters.
* `rejected_iff`: a list is refused iff a parameter of a method is met and none of a type is the
  first to be met.
* `rejected_iff_of_rearranged`: the same for every rearrangement of the list, at any depth.
* `rejected_perm_iff`: the order of the list does not matter iff it does not hold both an argument
  that is refused and one that is open because of a parameter of a type.
-/

namespace Monomorph
namespace Sig

/-! ## The first parameter decides -/

/-- The answer for parameters that are met in that order. -/
def verdict : List Sig → Except Error Bool
  | [] => .ok true
  | .methodParam number _ :: _ => .error (.methodParamInTypeArgs number)
  | _ :: _ => .ok false

theorem verdict_append (xs ys : List Sig) :
    verdict (xs ++ ys) = match verdict xs with
      | .error e => .error e
      | .ok false => .ok false
      | .ok true => verdict ys := by
  cases xs with
  | nil => rfl
  | cons x xs => cases x <;> rfl

theorem filter_leavesOfList (ss : List Sig) :
    (leavesOfList ss).filter isParam = ss.flatMap params := by
  rw [leavesOfList_eq_flatMap, List.filter_flatMap]
  rfl

theorem isConcrete_eq (s : Sig) : s.isConcrete = verdict s.params := by
  induction s using Sig.rec (motive_2 := fun ss =>
      areConcrete ss = verdict ((leavesOfList ss).filter isParam)) with
  | ptr _ ih | byRef _ ih | pinned _ ih | szArray _ ih | array _ _ _ _ ih | modReqd _ _ ih
  | modOpt _ _ ih | genericInst _ _ _ ih => exact ih
  | cons s rest ihs ih =>
    rw [areConcrete, ihs, ih, leavesOfList, List.filter_append]
    exact (verdict_append _ _).symm
  | _ => rfl

theorem areConcrete_eq (ss : List Sig) : areConcrete ss = verdict (ss.flatMap params) := by
  rw [← filter_leavesOfList]
  exact isConcrete_eq (.genericInst (.primitive .void) ss)

/-! ## The order in which parameters are met -/

/-- A walk meets these parameters, in that order: down single children, and through the arguments
of an instance from the first to the last. The generic type of an instance is passed by. -/
inductive Meets : Sig → List Sig → Prop where
  | param {s : Sig} : s.isParam = true → Meets s [s]
  | next {s child : Sig} {ps : List Sig} : s.next? = some child → Meets child ps → Meets s ps
  | inst {args : List Sig} {pss : List (List Sig)} (generic : Sig) :
      List.Forall₂ Meets args pss → Meets (.genericInst generic args) pss.flatten
  | nothing {s : Sig} : s.isParam = false → s.next? = none →
      (∀ generic args, s ≠ .genericInst generic args) → Meets s []

theorem flatten_map_params (generic : Sig) (args : List Sig) :
    (args.map params).flatten = (genericInst generic args).params := by
  rw [← List.flatMap_def, ← filter_leavesOfList]
  rfl

theorem meets_params (s : Sig) : s.Meets s.params := by
  induction s using Sig.rec (motive_2 := fun ss => List.Forall₂ Meets ss (ss.map params)) with
  | ptr _ ih | byRef _ ih | pinned _ ih | szArray _ ih | array _ _ _ _ ih | modReqd _ _ ih
  | modOpt _ _ ih => exact .next rfl ih
  | genericInst generic args _ ih =>
    rw [← flatten_map_params]
    exact .inst generic ih
  | typeParam _ _ | methodParam _ _ => exact .param rfl
  | nil => exact .nil
  | cons _ _ ihs ih => exact .cons ihs ih
  | _ => exact .nothing rfl rfl nofun

theorem Meets.eq_params {s : Sig} {ps : List Sig} (h : s.Meets ps) : ps = s.params := by
  induction h using Meets.rec (motive_2 := fun ss pss _ => pss = ss.map params) with
  | param hp => exact (params_of_param hp).symm
  | next hn _ ih => rw [ih, params, params, leaves_of_next? hn]
  | inst generic _ ih => rw [ih, flatten_map_params]
  | @nothing s hp hn hg =>
    cases s with
    | genericInst generic args => exact absurd rfl (hg generic args)
    | typeParam _ _ | methodParam _ _ => cases hp
    | primitive _ | classType _ | valueType _ | unsupported _ => rfl
    | _ => cases hn
  | nil => rfl
  | cons _ _ ih ihs => rw [ih, ihs, List.map_cons]

/-- There is one order in which parameters are met. -/
theorem meets_iff {s : Sig} {ps : List Sig} : s.Meets ps ↔ ps = s.params := by
  constructor
  · exact Meets.eq_params
  · rintro rfl
    exact meets_params s

/-! ## Refusing -/

/-- A parameter of a method is met. -/
def MeetMethodParam (ss : List Sig) : Prop :=
  ∃ s ∈ ss, ∃ number owner, s.Visits (.methodParam number owner)

/-- The first parameter that is met is that of a type. -/
def TypeParamFirst (ss : List Sig) : Prop :=
  ∃ number owner rest, ss.flatMap params = .typeParam number owner :: rest

/-- The list is refused because of a parameter of a method. -/
def Rejected (ss : List Sig) : Prop :=
  ∃ number, areConcrete ss = .error (.methodParamInTypeArgs number)

variable {ss ts : List Sig} {s t : Sig}

theorem mem_params_iff_visits {x : Sig} (hx : x.isParam = true) : x ∈ s.params ↔ s.Visits x := by
  rw [params, List.mem_filter, mem_leaves_iff_of_param hx]
  exact and_iff_left hx

theorem meetMethodParam_iff :
    MeetMethodParam ss ↔ ∃ number owner, .methodParam number owner ∈ ss.flatMap params := by
  constructor
  · rintro ⟨s, hs, number, owner, h⟩
    exact ⟨number, owner, List.mem_flatMap.2 ⟨s, hs, (mem_params_iff_visits rfl).2 h⟩⟩
  · rintro ⟨number, owner, h⟩
    obtain ⟨s, hs, hx⟩ := List.mem_flatMap.1 h
    exact ⟨s, hs, number, owner, (mem_params_iff_visits rfl).1 hx⟩

theorem isParam_of_mem_params {x : Sig} (h : x ∈ s.params) : x.isParam = true :=
  (List.mem_filter.1 h).2

theorem isParam_of_mem_flatMap {x : Sig} (h : x ∈ ss.flatMap params) : x.isParam = true := by
  obtain ⟨s, _, hx⟩ := List.mem_flatMap.1 h
  exact isParam_of_mem_params hx

/-- Nothing is met first, or a parameter of a type, or one of a method. -/
theorem first_cases (ss : List Sig) :
    ss.flatMap params = [] ∨ TypeParamFirst ss ∨
      ∃ number owner rest, ss.flatMap params = .methodParam number owner :: rest := by
  cases h : ss.flatMap params with
  | nil => exact .inl rfl
  | cons x rest =>
    have hx : x ∈ ss.flatMap params := by
      rw [h]
      exact List.mem_cons_self
    have hp := isParam_of_mem_flatMap hx
    cases x with
    | typeParam number owner => exact .inr (.inl ⟨number, owner, rest, h⟩)
    | methodParam number owner => exact .inr (.inr ⟨number, owner, rest, rfl⟩)
    | _ => cases hp

theorem areConcrete_of_typeParamFirst (h : TypeParamFirst ss) : areConcrete ss = .ok false := by
  obtain ⟨number, owner, rest, h⟩ := h
  rw [areConcrete_eq, h]
  rfl

/-- A list is refused iff the first parameter that is met is that of a method. -/
theorem rejected_iff_first : Rejected ss ↔
    ∃ number owner rest, ss.flatMap params = .methodParam number owner :: rest := by
  rw [Rejected, areConcrete_eq]
  cases ss.flatMap params with
  | nil => simp [verdict]
  | cons x rest => cases x <;> simp [verdict]

/-- A list is refused iff a parameter of a method is met, and none of a type is the first. -/
theorem rejected_iff (ss : List Sig) : Rejected ss ↔ MeetMethodParam ss ∧ ¬TypeParamFirst ss := by
  rw [rejected_iff_first, meetMethodParam_iff, TypeParamFirst]
  rcases first_cases ss with h | ⟨number, owner, rest, h⟩ | ⟨number, owner, rest, h⟩
  · simp [h]
  · simp [h]
  · simp only [h, List.mem_cons]
    refine iff_of_true ⟨number, owner, rest, rfl⟩ ⟨⟨number, owner, .inl rfl⟩, ?_⟩
    simp

/-! ## All tests for parameters -/

/-- The answer on type arguments goes by the first of the parameters that are met. -/
structure DecidedByFirst (answer : Except Error Bool) (ps : List Sig) : Prop where
  concrete : answer = .ok true ↔ ps = []
  typeParam : answer = .ok false ↔ ∃ number owner rest, ps = .typeParam number owner :: rest
  methodParam : ∀ number, answer = .error (.methodParamInTypeArgs number) ↔
    ∃ owner rest, ps = .methodParam number owner :: rest

theorem decidedByFirst_verdict {ps : List Sig} (h : ∀ x ∈ ps, x.isParam = true) :
    DecidedByFirst (verdict ps) ps := by
  cases ps with
  | nil => constructor <;> simp [verdict]
  | cons x rest =>
    have hx := h x List.mem_cons_self
    cases x with
    | typeParam number owner => constructor <;> simp [verdict]
    | methodParam number owner => constructor <;> simp [verdict]
    | _ => cases hx

/-- Without parameters of methods there is no error. -/
theorem verdict_of_no_methodParam {ps : List Sig} (h : ∀ x ∈ ps, x.isParam = true)
    (hm : ∀ number owner, .methodParam number owner ∉ ps) : verdict ps = .ok ps.isEmpty := by
  cases ps with
  | nil => rfl
  | cons x rest =>
    have hx := h x List.mem_cons_self
    cases x with
    | typeParam number owner => rfl
    | methodParam number owner => exact absurd List.mem_cons_self (hm number owner)
    | _ => cases hx

theorem hasParam_eq_not_isEmpty (s : Sig) : s.hasParam = !s.params.isEmpty := by
  have h := params_eq_nil_iff (s := s)
  rw [← List.isEmpty_iff] at h
  cases hp : s.hasParam <;> simp_all

theorem anyHasParam_eq_not_isEmpty (ss : List Sig) :
    anyHasParam ss = !(ss.flatMap params).isEmpty := by
  rw [← filter_leavesOfList]
  exact hasParam_eq_not_isEmpty (.genericInst (.primitive .void) ss)

/-- The order in which parameters are met decides all tests for them: whether a signature has one,
and whether it, or a list, counts as concrete. Where no parameter of a method is met, these tests
are each other's contrary. -/
theorem decided_by_first :
    (∀ s : Sig, (∀ ps, s.Meets ps ↔ ps = s.params) ∧ (s.hasParam = true ↔ s.params ≠ []) ∧
      DecidedByFirst s.isConcrete s.params ∧
      ((∀ number owner, ¬s.Visits (.methodParam number owner)) →
        s.isConcrete = .ok (!s.hasParam))) ∧
    (∀ ss : List Sig, DecidedByFirst (areConcrete? (some ss)) (ss.flatMap params) ∧
      (¬MeetMethodParam ss → areConcrete? (some ss) = .ok (!anyHasParam ss))) ∧
    areConcrete? none = .ok true := by
  refine ⟨fun s => ⟨fun ps => meets_iff, ?_, ?_, ?_⟩, fun ss => ⟨?_, ?_⟩, rfl⟩
  · rw [Ne, params_eq_nil_iff, Bool.not_eq_false]
  · rw [isConcrete_eq]
    exact decidedByFirst_verdict fun x => isParam_of_mem_params
  · intro hm
    rw [isConcrete_eq, hasParam_eq_not_isEmpty, Bool.not_not]
    refine verdict_of_no_methodParam (fun x => isParam_of_mem_params) ?_
    intro number owner hx
    exact hm number owner ((mem_params_iff_visits rfl).1 hx)
  · rw [areConcrete?, areConcrete_eq]
    exact decidedByFirst_verdict fun x => isParam_of_mem_flatMap
  · intro hm
    rw [areConcrete?, areConcrete_eq, anyHasParam_eq_not_isEmpty, Bool.not_not]
    refine verdict_of_no_methodParam (fun x => isParam_of_mem_flatMap) ?_
    intro number owner hx
    exact hm (meetMethodParam_iff.2 ⟨number, owner, hx⟩)

/-- The type that owns the parameters below. -/
def jarRef : TypeRef :=
  ⟨0, "Demo", "Jar", false⟩

/-- Arrays of jars whose second argument is a parameter, behind a pointer. -/
def openJars : Sig :=
  .szArray (.genericInst (.classType jarRef) [.primitive .int32, .ptr (.typeParam 1 jarRef)])

/-- Open jars have a parameter and are not concrete; a parameter of a method in front of them makes
a list an error. -/
theorem decided_by_first_jars :
    ((∀ number owner, ¬openJars.Visits (.methodParam number owner)) ∧
      openJars.isConcrete = .ok false) ∧
    areConcrete? (some [.pinned (.methodParam 2 7), openJars]) =
      .error (.methodParamInTypeArgs 2) ∧
    ¬MeetMethodParam [openJars] ∧ areConcrete? (some [openJars]) = .ok false := by
  obtain ⟨hsig, hlist, _⟩ := decided_by_first
  have hparams : openJars.params = [.typeParam 1 jarRef] := rfl
  have hfree : ∀ number owner, ¬openJars.Visits (.methodParam number owner) := by
    intro number owner hv
    have hm := (mem_params_iff_visits rfl).2 hv
    simp [hparams] at hm
  have hfrees : ¬MeetMethodParam [openJars] := by
    rintro ⟨s, hs, number, owner, hv⟩
    rw [List.mem_singleton.1 hs] at hv
    exact hfree number owner hv
  exact ⟨⟨hfree, (hsig openJars).2.2.2 hfree⟩, ((hlist _).1.methodParam 2).2 ⟨7, _, rfl⟩, hfrees,
    (hlist _).2 hfrees⟩

/-! ## Rearranging -/

/-- The same signature with arguments in another order, at any depth. -/
inductive Rearranges : Sig → Sig → Prop where
  | refl (s : Sig) : Rearranges s s
  | ptr {s t : Sig} : Rearranges s t → Rearranges (.ptr s) (.ptr t)
  | byRef {s t : Sig} : Rearranges s t → Rearranges (.byRef s) (.byRef t)
  | pinned {s t : Sig} : Rearranges s t → Rearranges (.pinned s) (.pinned t)
  | szArray {s t : Sig} : Rearranges s t → Rearranges (.szArray s) (.szArray t)
  | array {s t : Sig} (rank : Nat) (sizes : List Nat) (lowerBounds : List Int) :
      Rearranges s t → Rearranges (.array s rank sizes lowerBounds) (.array t rank sizes lowerBounds)
  | modReqd {s t : Sig} (modifier : TypeRef) :
      Rearranges s t → Rearranges (.modReqd modifier s) (.modReqd modifier t)
  | modOpt {s t : Sig} (modifier : TypeRef) :
      Rearranges s t → Rearranges (.modOpt modifier s) (.modOpt modifier t)
  | genericInst {args args' args'' : List Sig} (generic : Sig) :
      List.Forall₂ Rearranges args args' → args'.Perm args'' →
      Rearranges (.genericInst generic args) (.genericInst generic args'')

/-- The same list in another order, its elements rearranged too. -/
def Rearranged (ss ts : List Sig) : Prop :=
  ∃ us, List.Forall₂ Rearranges ss us ∧ us.Perm ts

theorem leavesOfList_perm (h : ss.Perm ts) : (leavesOfList ss).Perm (leavesOfList ts) := by
  rw [leavesOfList_eq_flatMap, leavesOfList_eq_flatMap]
  exact h.flatMap_right leaves

theorem Rearranges.leaves_perm (h : s.Rearranges t) : s.leaves.Perm t.leaves := by
  induction h using Rearranges.rec (motive_2 := fun ss ts _ =>
      (leavesOfList ss).Perm (leavesOfList ts)) with
  | refl s => exact .refl _
  | ptr _ ih | byRef _ ih | pinned _ ih | szArray _ ih | array _ _ _ _ ih | modReqd _ _ ih
  | modOpt _ _ ih => exact ih
  | genericInst generic _ hp ih => exact ih.trans (leavesOfList_perm hp)
  | nil => exact .refl _
  | cons _ _ ihs ih => exact ihs.append ih

theorem Rearranged.params_perm (h : Rearranged ss ts) :
    (ss.flatMap params).Perm (ts.flatMap params) := by
  obtain ⟨us, hus, hp⟩ := h
  have hl := (Rearranges.genericInst (.primitive .void) hus hp).leaves_perm
  rw [← filter_leavesOfList, ← filter_leavesOfList]
  exact hl.filter isParam

/-- Rearranging a list leaves it refused unless a parameter of a type comes first. -/
theorem rejected_iff_of_rearranged (h : Rearranged ss ts) :
    Rejected ts ↔ MeetMethodParam ss ∧ ¬TypeParamFirst ts := by
  rw [rejected_iff, meetMethodParam_iff, meetMethodParam_iff]
  simp only [h.params_perm.mem_iff]

/-! ## The order of the list -/

/-- An answer other than yes is that of an element. -/
theorem exists_of_areConcrete {r : Except Error Bool} (h : areConcrete ss = r)
    (hr : r ≠ .ok true) : ∃ s ∈ ss, s.isConcrete = r := by
  induction ss with
  | nil => exact absurd h.symm hr
  | cons s rest ih =>
    rw [areConcrete] at h
    split at h
    · rename_i e he
      exact ⟨s, List.mem_cons_self, by rw [he, h]⟩
    · rename_i hs
      exact ⟨s, List.mem_cons_self, by rw [hs, h]⟩
    · obtain ⟨t, ht, hc⟩ := ih h
      exact ⟨t, List.mem_cons_of_mem s ht, hc⟩

/-- Such an answer of the first element is that of the list. -/
theorem areConcrete_cons {rest : List Sig} {r : Except Error Bool} (h : s.isConcrete = r)
    (hr : r ≠ .ok true) : areConcrete (s :: rest) = r := by
  rw [areConcrete, h]
  rcases r with e | (_ | _)
  · rfl
  · rfl
  · exact absurd rfl hr

theorem meetMethodParam_of_isConcrete {number : Nat} (hs : s ∈ ss)
    (h : s.isConcrete = .error (.methodParamInTypeArgs number)) : MeetMethodParam ss := by
  have hr : Rejected [s] := ⟨number, areConcrete_cons h nofun⟩
  obtain ⟨⟨t, ht, hv⟩, _⟩ := (rejected_iff [s]).1 hr
  rw [List.mem_singleton.1 ht] at hv
  exact ⟨s, hs, hv⟩

theorem rejected_of_perm (hp : ts.Perm ss) (h : Rejected ts)
    (hss : ∀ s ∈ ss, s.isConcrete ≠ .ok false) : Rejected ss := by
  obtain ⟨number, h⟩ := h
  obtain ⟨s, hs, hc⟩ := exists_of_areConcrete h nofun
  refine (rejected_iff ss).2 ⟨meetMethodParam_of_isConcrete (hp.mem_iff.1 hs) hc, ?_⟩
  intro hf
  obtain ⟨t, ht, hc⟩ := exists_of_areConcrete (areConcrete_of_typeParamFirst hf) nofun
  exact hss t ht hc

/-- The order of a list does not matter iff it does not hold both an argument that is refused and
one that is open because of a parameter of a type. -/
theorem rejected_perm_iff (ss : List Sig) :
    (∀ ts, ts.Perm ss → (Rejected ts ↔ Rejected ss)) ↔
      ¬((∃ s ∈ ss, Rejected [s]) ∧ ∃ s ∈ ss, s.isConcrete = .ok false) := by
  constructor
  · rintro h ⟨⟨s, hs, number, hc⟩, t, ht, hf⟩
    obtain ⟨s', hs', hc⟩ := exists_of_areConcrete hc nofun
    rw [List.mem_singleton.1 hs'] at hc
    have hss : Rejected ss :=
      (h _ (List.perm_cons_erase hs).symm).1 ⟨number, areConcrete_cons hc nofun⟩
    have hrejected : Rejected (t :: ss.erase t) := (h _ (List.perm_cons_erase ht).symm).2 hss
    rw [Rejected, areConcrete_cons hf (by simp)] at hrejected
    obtain ⟨n, hn⟩ := hrejected
    cases hn
  · intro h ts hp
    by_cases hss : ∃ s ∈ ss, s.isConcrete = .ok false
    · -- nothing is refused, in any order
      have hnone (us : List Sig) (hu : us.Perm ss) : ¬Rejected us := by
        rintro ⟨number, hr⟩
        obtain ⟨s, hs, hc⟩ := exists_of_areConcrete hr nofun
        exact h ⟨⟨s, hu.mem_iff.1 hs, number, areConcrete_cons hc nofun⟩, hss⟩
      exact iff_of_false (hnone ts hp) (hnone ss (.refl ss))
    · have hss : ∀ s ∈ ss, s.isConcrete ≠ .ok false := fun s hs hc => hss ⟨s, hs, hc⟩
      constructor
      · exact fun hr => rejected_of_perm hp hr hss
      · refine fun hr => rejected_of_perm hp.symm hr ?_
        exact fun s hs => hss s (hp.mem_iff.1 hs)

end Sig
end Monomorph
