import Monomorph.Proofs.Signature.Congruence
import Monomorph.Proofs.Signature.Leaves

/-!
# Monomorph.Proofs.Signature.Composition

One substitution after another.

`Sig.Rewrites R` relates a signature to the same signature with every parameter that is met
exchanged for something related to it by `R`; nothing else changes, and the generic type of an
instance is not looked into.

* `rewrites_of_substitute`: a substitution exchanges the parameters for what `Binding.Gives`.
* `Rewrites.substitute`: substituting the result of an exchange is substituting what it put in.
* `substitute_of_rewrites`: a binding that gives all that was put in leads there at once.
* `substitute_substitute`: so two substitutions exchange each parameter once, and they are a single
  one where every parameter is replaced by the first of them, or where its arguments are closed.
-/

namespace Monomorph

namespace Binding

/-- The parameter belongs to the type, or to the method if there is one. -/
def Covers : Binding → Sig → Prop
  | ofType type _, .typeParam _ owner => owner.id = type
  | ofMethod type _ _ _, .typeParam _ owner => owner.id = type
  | ofMethod _ _ method _, .methodParam _ owner => owner = method
  | _, _ => False

/-- The signature stands for the node: its argument, or itself if it has none. -/
def Gives (b : Binding) (x y : Sig) : Prop :=
  ∃ a, b.lookup x = .ok a ∧ y = a.getD x

/-- A parameter that is covered is not left as it is. -/
theorem Covers.lookup_ne_none {b : Binding} {x : Sig} (h : b.Covers x) : b.lookup x ≠ .ok none := by
  cases x with
  | typeParam number owner =>
    cases b with
    | ofType type args | ofMethod type args _ _ =>
      have h : owner.id = type := h
      rw [lookup, typeArg, if_pos h]
      exact pick_ne_none _ _ _
  | methodParam number owner =>
    cases b with
    | ofType type args => exact h.elim
    | ofMethod type args method methodArgs =>
      have h : owner = method := h
      rw [lookup, methodArg, if_pos h]
      exact pick_ne_none _ _ _
  | _ => cases b <;> exact h.elim

/-- Under arguments that are rewritten, a parameter with an argument has the rewritten one. -/
theorem Related.lookup_some {R : Sig → Sig → Prop} {b b' : Binding} (h : b.Related R b') {x a : Sig}
    (hx : b.lookup x = .ok (some a)) : ∃ a', b'.lookup x = .ok (some a') ∧ R a a' := by
  have hpick {args args' : List Sig} (h : List.Forall₂ R args args') {level : ParamLevel}
      {number : Nat} (ha : (pick args level number).map some = .ok (some a)) :
      ∃ a', (pick args' level number).map some = .ok (some a') ∧ R a a' := by
    obtain ⟨y, hy, hr⟩ := exists_pick h ha x
    obtain ⟨a', ha', rfl⟩ := exists_of_map_ok hy
    exact ⟨a', by rw [ha']; rfl, hr⟩
  cases x with
  | typeParam number owner =>
    cases h with
    | ofType ht | ofMethod ht _ =>
      rw [lookup, typeArg] at hx ⊢
      split at hx
      · rename_i ho
        rw [if_pos ho]
        exact hpick ht hx
      · cases hx
  | methodParam number owner =>
    cases h with
    | ofType _ => cases hx
    | ofMethod _ hm =>
      rw [lookup, methodArg] at hx ⊢
      split at hx
      · rename_i ho
        rw [if_pos ho]
        exact hpick hm hx
      · cases hx
  | _ => cases hx

end Binding

namespace Sig

/-! ## Exchanging parameters -/

/-- The second signature is the first one with every parameter that is met exchanged for a related
signature. -/
inductive Rewrites (R : Sig → Sig → Prop) : Sig → Sig → Prop where
  | param {s t : Sig} : s.isParam = true → R s t → Rewrites R s t
  | primitive (p : Primitive) : Rewrites R (.primitive p) (.primitive p)
  | classType (type : TypeRef) : Rewrites R (.classType type) (.classType type)
  | valueType (type : TypeRef) : Rewrites R (.valueType type) (.valueType type)
  | unsupported (e : ElementType) : Rewrites R (.unsupported e) (.unsupported e)
  | ptr {s t : Sig} : Rewrites R s t → Rewrites R (.ptr s) (.ptr t)
  | byRef {s t : Sig} : Rewrites R s t → Rewrites R (.byRef s) (.byRef t)
  | pinned {s t : Sig} : Rewrites R s t → Rewrites R (.pinned s) (.pinned t)
  | szArray {s t : Sig} : Rewrites R s t → Rewrites R (.szArray s) (.szArray t)
  | array {s t : Sig} (rank : Nat) (sizes : List Nat) (lowerBounds : List Int) :
      Rewrites R s t → Rewrites R (.array s rank sizes lowerBounds) (.array t rank sizes lowerBounds)
  | modReqd {s t : Sig} (modifier : TypeRef) :
      Rewrites R s t → Rewrites R (.modReqd modifier s) (.modReqd modifier t)
  | modOpt {s t : Sig} (modifier : TypeRef) :
      Rewrites R s t → Rewrites R (.modOpt modifier s) (.modOpt modifier t)
  | genericInst {args args' : List Sig} (generic : Sig) : List.Forall₂ (Rewrites R) args args' →
      Rewrites R (.genericInst generic args) (.genericInst generic args')

variable {R S : Sig → Sig → Prop} {s t u : Sig} {b b' c : Binding}

/-- Only what happens to the parameters of the signature counts. -/
theorem Rewrites.imp (h : s.Rewrites R t) :
    (∀ x ∈ s.leaves, x.isParam = true → ∀ y, R x y → S x y) → s.Rewrites S t := by
  induction h using Rewrites.rec (motive_2 := fun ss ts _ =>
      (∀ x ∈ leavesOfList ss, x.isParam = true → ∀ y, R x y → S x y) →
        List.Forall₂ (Rewrites S) ss ts) with
  | @param s t hp hr =>
    intro h
    have hs : s ∈ s.leaves := by
      cases s with
      | typeParam _ _ => exact List.mem_singleton_self _
      | methodParam _ _ => exact List.mem_singleton_self _
      | _ => cases hp
    exact .param hp (h s hs hp t hr)
  | primitive p => exact fun _ => .primitive p
  | classType type => exact fun _ => .classType type
  | valueType type => exact fun _ => .valueType type
  | unsupported e => exact fun _ => .unsupported e
  | ptr _ ih => exact fun h => .ptr (ih h)
  | byRef _ ih => exact fun h => .byRef (ih h)
  | pinned _ ih => exact fun h => .pinned (ih h)
  | szArray _ ih => exact fun h => .szArray (ih h)
  | array rank sizes lowerBounds _ ih => exact fun h => .array rank sizes lowerBounds (ih h)
  | modReqd modifier _ ih => exact fun h => .modReqd modifier (ih h)
  | modOpt modifier _ ih => exact fun h => .modOpt modifier (ih h)
  | genericInst generic _ ih => exact fun h => .genericInst generic (ih h)
  | nil _ => exact .nil
  | cons _ _ ihs ih h =>
    rw [leavesOfList] at h
    exact .cons (ihs fun x hx => h x (List.mem_append_left _ hx))
      (ih fun x hx => h x (List.mem_append_right _ hx))

/-- Without parameters there is nothing to exchange. -/
theorem Rewrites.eq_of_closed (h : s.Rewrites R t) : s.hasParam = false → t = s := by
  induction h using Rewrites.rec (motive_2 := fun ss ts _ => anyHasParam ss = false → ts = ss) with
  | @param s t hp _ =>
    intro hn
    cases s with
    | typeParam _ _ => cases hn
    | methodParam _ _ => cases hn
    | _ => cases hp
  | ptr _ ih => exact fun h => congrArg Sig.ptr (ih h)
  | byRef _ ih => exact fun h => congrArg Sig.byRef (ih h)
  | pinned _ ih => exact fun h => congrArg Sig.pinned (ih h)
  | szArray _ ih => exact fun h => congrArg Sig.szArray (ih h)
  | array rank sizes lowerBounds _ ih =>
    exact fun h => congrArg (Sig.array · rank sizes lowerBounds) (ih h)
  | modReqd modifier _ ih => exact fun h => congrArg (Sig.modReqd modifier) (ih h)
  | modOpt modifier _ ih => exact fun h => congrArg (Sig.modOpt modifier) (ih h)
  | genericInst generic _ ih => exact fun h => congrArg (Sig.genericInst generic) (ih h)
  | nil _ => rfl
  | cons _ _ ihs ih h =>
    rw [anyHasParam, Bool.or_eq_false_iff] at h
    rw [ihs h.1, ih h.2]
  | _ => exact fun _ => rfl

/-- If every parameter is related to itself, the signature may stay as it is. -/
theorem rewrites_refl (s : Sig) :
    (∀ x ∈ s.leaves, x.isParam = true → R x x) → s.Rewrites R s := by
  induction s using Sig.rec (motive_2 := fun ss =>
      (∀ x ∈ leavesOfList ss, x.isParam = true → R x x) → List.Forall₂ (Rewrites R) ss ss) with
  | primitive p => exact fun _ => .primitive p
  | classType type => exact fun _ => .classType type
  | valueType type => exact fun _ => .valueType type
  | unsupported e => exact fun _ => .unsupported e
  | ptr _ ih => exact fun h => .ptr (ih h)
  | byRef _ ih => exact fun h => .byRef (ih h)
  | pinned _ ih => exact fun h => .pinned (ih h)
  | szArray _ ih => exact fun h => .szArray (ih h)
  | array _ rank sizes lowerBounds ih => exact fun h => .array rank sizes lowerBounds (ih h)
  | modReqd modifier _ ih => exact fun h => .modReqd modifier (ih h)
  | modOpt modifier _ ih => exact fun h => .modOpt modifier (ih h)
  | genericInst generic _ _ ih => exact fun h => .genericInst generic (ih h)
  | typeParam _ _ | methodParam _ _ => exact fun h => .param rfl (h _ (List.mem_singleton_self _) rfl)
  | nil _ => exact .nil
  | cons s rest ihs ih h =>
    rw [leavesOfList] at h
    exact .cons (ihs fun x hx => h x (List.mem_append_left _ hx))
      (ih fun x hx => h x (List.mem_append_right _ hx))

theorem rewrites_self (s : Sig) (h : s.hasParam = false) : s.Rewrites R s := by
  refine rewrites_refl s ?_
  intro x hx hp
  rw [closed_iff_hasParam.2 h x hx] at hp
  cases hp

/-! ## One substitution -/

theorem rewrites_of_replace (s : Sig) : ∀ t, s.replace b = .ok t → s.Rewrites b.Gives t := by
  induction s using Sig.rec (motive_2 := fun ss => ∀ ts, replaceList b ss = .ok ts →
      List.Forall₂ (Rewrites b.Gives) ss ts) with
  | nil ts h =>
    cases h
    exact .nil
  | cons s rest ihs ih ts h =>
    rw [replaceList] at h
    split at h
    · cases h
    · rename_i t ht
      obtain ⟨us, hus, rfl⟩ := exists_of_map_ok h
      exact .cons (ihs t ht) (ih us hus)
  | ptr next ih =>
    intro t h
    obtain ⟨u, hu, rfl⟩ := exists_of_map_ok h
    exact .ptr (ih u hu)
  | byRef next ih =>
    intro t h
    obtain ⟨u, hu, rfl⟩ := exists_of_map_ok h
    exact .byRef (ih u hu)
  | pinned next ih =>
    intro t h
    obtain ⟨u, hu, rfl⟩ := exists_of_map_ok h
    exact .pinned (ih u hu)
  | szArray next ih =>
    intro t h
    obtain ⟨u, hu, rfl⟩ := exists_of_map_ok h
    exact .szArray (ih u hu)
  | array next rank sizes lowerBounds ih =>
    intro t h
    obtain ⟨u, hu, rfl⟩ := exists_of_map_ok h
    exact .array rank sizes lowerBounds (ih u hu)
  | modReqd modifier next ih =>
    intro t h
    obtain ⟨u, hu, rfl⟩ := exists_of_map_ok h
    exact .modReqd modifier (ih u hu)
  | modOpt modifier next ih =>
    intro t h
    obtain ⟨u, hu, rfl⟩ := exists_of_map_ok h
    exact .modOpt modifier (ih u hu)
  | genericInst generic args _ ih =>
    intro t h
    obtain ⟨us, hus, rfl⟩ := exists_of_map_ok h
    exact .genericInst generic (ih us hus)
  | typeParam number owner | methodParam number owner =>
    intro t h
    obtain ⟨a, ha, rfl⟩ := exists_of_map_ok h
    exact .param rfl ⟨a, ha, rfl⟩
  | unsupported e =>
    intro t h
    cases h
  | _ =>
    intro t h
    cases h
    exact rewrites_self _ rfl

/-- A substitution exchanges each parameter for its argument, and leaves those without one. -/
theorem rewrites_of_substitute (h : s.substitute b = .ok t) : s.Rewrites b.Gives t := by
  rw [substitute] at h
  split at h
  · exact rewrites_of_replace s t h
  · rename_i hp
    cases h
    exact rewrites_self s (Bool.not_eq_true _ ▸ hp)

theorem substitute_of_replace (h : s.replace b = .ok t) : s.substitute b = .ok t := by
  rw [substitute]
  split
  · exact h
  · rename_i hp
    rw [(rewrites_of_replace s t h).eq_of_closed (Bool.not_eq_true _ ▸ hp)]

theorem substitute_param (h : s.isParam = true) :
    s.substitute b = (b.lookup s).map fun a => a.getD s := by
  cases s with
  | typeParam number owner => rfl
  | methodParam number owner => rfl
  | _ => cases h

/-- The guard of a substitution, for a node with a single child. -/
theorem substitute_wrap (wrap : Sig → Sig) (hp : (wrap s).hasParam = s.hasParam)
    (hr : (wrap s).replace b = (s.replace b).map wrap) :
    (wrap s).substitute b = (s.substitute b).map wrap := by
  rw [substitute, substitute, hp, hr]
  split <;> rfl

/-- Whether or not the arguments together have a parameter, each of them is substituted. -/
theorem exists_of_substitute_genericInst {generic : Sig} {args : List Sig}
    (h : (genericInst generic args).substitute b = .ok t) :
    ∃ args', t = .genericInst generic args' ∧
      List.Forall₂ (fun a a' => a.substitute b = .ok a') args args' := by
  rw [substitute] at h
  split at h
  · obtain ⟨args', ha, rfl⟩ := exists_of_map_ok h
    rw [replaceList_eq_mapM] at ha
    exact ⟨args', rfl, (forall₂_of_mapM_ok ha).imp fun _ _ h => substitute_of_replace h⟩
  · rename_i hp
    cases h
    refine ⟨args, rfl, List.forall₂_same.2 ?_⟩
    intro a ha
    have hc := closed_of_anyHasParam (Bool.not_eq_true _ ▸ hp) a ha
    rw [substitute, closed_iff_hasParam.1 hc, if_neg Bool.false_ne_true]

/-! ## A second substitution -/

/-- A second substitution concerns what was put in, in each place on its own. -/
theorem Rewrites.substitute (h : s.Rewrites R t) : ∀ u, t.substitute c = .ok u →
    s.Rewrites (fun x z => ∃ y, R x y ∧ y.substitute c = .ok z) u := by
  induction h using Rewrites.rec (motive_2 := fun ss ts _ => ∀ us,
      List.Forall₂ (fun t u => Sig.substitute c t = .ok u) ts us →
        List.Forall₂ (Rewrites fun x z => ∃ y, R x y ∧ y.substitute c = .ok z) ss us) with
  | param hp hr => exact fun u h => .param hp ⟨_, hr, h⟩
  | ptr _ ih =>
    intro u h
    rw [substitute_wrap Sig.ptr rfl rfl] at h
    obtain ⟨v, hv, rfl⟩ := exists_of_map_ok h
    exact .ptr (ih v hv)
  | byRef _ ih =>
    intro u h
    rw [substitute_wrap Sig.byRef rfl rfl] at h
    obtain ⟨v, hv, rfl⟩ := exists_of_map_ok h
    exact .byRef (ih v hv)
  | pinned _ ih =>
    intro u h
    rw [substitute_wrap Sig.pinned rfl rfl] at h
    obtain ⟨v, hv, rfl⟩ := exists_of_map_ok h
    exact .pinned (ih v hv)
  | szArray _ ih =>
    intro u h
    rw [substitute_wrap Sig.szArray rfl rfl] at h
    obtain ⟨v, hv, rfl⟩ := exists_of_map_ok h
    exact .szArray (ih v hv)
  | array rank sizes lowerBounds _ ih =>
    intro u h
    rw [substitute_wrap (Sig.array · rank sizes lowerBounds) rfl rfl] at h
    obtain ⟨v, hv, rfl⟩ := exists_of_map_ok h
    exact .array rank sizes lowerBounds (ih v hv)
  | modReqd modifier _ ih =>
    intro u h
    rw [substitute_wrap (Sig.modReqd modifier) rfl rfl] at h
    obtain ⟨v, hv, rfl⟩ := exists_of_map_ok h
    exact .modReqd modifier (ih v hv)
  | modOpt modifier _ ih =>
    intro u h
    rw [substitute_wrap (Sig.modOpt modifier) rfl rfl] at h
    obtain ⟨v, hv, rfl⟩ := exists_of_map_ok h
    exact .modOpt modifier (ih v hv)
  | genericInst generic _ ih =>
    intro u h
    obtain ⟨us, rfl, hus⟩ := exists_of_substitute_genericInst h
    exact .genericInst generic (ih us hus)
  | nil us h =>
    cases h
    exact .nil
  | cons _ _ ihs ih us h =>
    cases h with
    | cons hu hus => exact .cons (ihs _ hu) (ih _ hus)
  | _ =>
    intro u h
    cases h
    exact rewrites_self _ rfl

theorem replace_of_rewrites (h : s.Rewrites b'.Gives u) :
    ∀ t, s.replace b = .ok t → s.replace b' = .ok u := by
  induction h using Rewrites.rec (motive_2 := fun ss us _ => ∀ ts, replaceList b ss = .ok ts →
      replaceList b' ss = .ok us) with
  | @param s u hp hr =>
    intro _ _
    obtain ⟨a, ha, rfl⟩ := hr
    cases s with
    | typeParam number owner =>
      rw [replace, show b'.typeArg number owner = .ok a from ha]
      rfl
    | methodParam number owner =>
      rw [replace, show b'.methodArg number owner = .ok a from ha]
      rfl
    | _ => cases hp
  | unsupported e =>
    intro t h
    cases h
  | ptr _ ih | byRef _ ih | pinned _ ih | szArray _ ih | array _ _ _ _ ih | modReqd _ _ ih
  | modOpt _ _ ih | genericInst _ _ ih =>
    intro t h
    obtain ⟨v, hv, rfl⟩ := exists_of_map_ok h
    rw [replace, ih v hv]
    rfl
  | cons _ _ ihs ih ts h =>
    rw [replaceList] at h
    split at h
    · cases h
    · rename_i t ht
      obtain ⟨us, hus, rfl⟩ := exists_of_map_ok h
      rw [replaceList, ihs t ht, ih us hus]
      rfl
  | nil _ _ => rfl
  | _ => exact fun _ _ => rfl

/-- If a signature can be substituted at all, a binding that gives the signatures which were put in
leads to the same result. -/
theorem substitute_of_rewrites (h : s.Rewrites b'.Gives u) (hs : s.substitute b = .ok t) :
    s.substitute b' = .ok u := by
  rw [Sig.substitute] at hs ⊢
  split at hs
  · rename_i hp
    rw [if_pos hp]
    exact replace_of_rewrites h t hs
  · rename_i hp
    rw [if_neg hp, h.eq_of_closed (Bool.not_eq_true _ ▸ hp)]

/-- What two substitutions put in the place of a parameter: its argument under the first one,
rewritten by the second; without one, its argument under the second, or else itself. -/
inductive GivenByBoth (b c : Binding) (x z : Sig) : Prop where
  | first {a : Sig} : b.lookup x = .ok (some a) → a.substitute c = .ok z → GivenByBoth b c x z
  | second {a : Sig} : b.lookup x = .ok none → c.lookup x = .ok (some a) → z = a →
      GivenByBoth b c x z
  | neither : b.lookup x = .ok none → c.lookup x = .ok none → z = x → GivenByBoth b c x z

theorem givenByBoth_of_gives {x y z : Sig} (hp : x.isParam = true) (h : b.Gives x y)
    (hz : y.substitute c = .ok z) : GivenByBoth b c x z := by
  obtain ⟨a, ha, rfl⟩ := h
  cases a with
  | some a => exact .first ha hz
  | none =>
    rw [Option.getD_none, substitute_param hp] at hz
    obtain ⟨a', ha', rfl⟩ := exists_of_map_ok hz
    cases a' with
    | some a' => exact .second ha ha' rfl
    | none => exact .neither ha ha' rfl

/-- Two substitutions put one signature in the place of each parameter. If the first one covers all
parameters, this is one substitution, with rewritten arguments. The arguments of a type, if they
have no parameters, may as well be substituted together with those of a method. -/
theorem substitute_substitute (ht : s.substitute b = .ok t) (hu : t.substitute c = .ok u) :
    s.Rewrites (GivenByBoth b c) u ∧
    (∀ b', b.Related (fun a a' => a.substitute c = .ok a') b' →
      (∀ x ∈ s.leaves, x.isParam = true → b.Covers x) → s.substitute b' = .ok u) ∧
    ∀ type typeArgs method methodArgs, b = .ofType type typeArgs →
      c = .ofMethod type typeArgs method methodArgs → (∀ a ∈ typeArgs, a.Closed) →
      s.substitute c = .ok u := by
  have hboth : s.Rewrites (GivenByBoth b c) u := by
    refine ((rewrites_of_substitute ht).substitute u hu).imp ?_
    rintro x _ hp z ⟨y, hy, hz⟩
    exact givenByBoth_of_gives hp hy hz
  refine ⟨hboth, ?_, ?_⟩
  · intro b' hb hcovers
    refine substitute_of_rewrites (hboth.imp ?_) ht
    intro x hx hp z hz
    have hn := (hcovers x hx hp).lookup_ne_none
    cases hz with
    | first ha hz =>
      obtain ⟨a', ha', hr⟩ := hb.lookup_some ha
      rw [hz] at hr
      cases hr
      exact ⟨_, ha', rfl⟩
    | second ha _ _ => exact absurd ha hn
    | neither ha _ _ => exact absurd ha hn
  · rintro type typeArgs method methodArgs rfl rfl hclosed
    refine substitute_of_rewrites (hboth.imp ?_) ht
    intro x _ hp z hz
    cases hz with
    | @first a ha hz =>
      -- the argument is closed, and the method's binding has the same one for the parameter
      have hc := closed_iff_hasParam.1 (hclosed a (Binding.mem_args_of_lookup ha))
      rw [Sig.substitute, hc, if_neg Bool.false_ne_true] at hz
      cases hz
      cases x with
      | typeParam number owner => exact ⟨_, ha, rfl⟩
      | _ => cases ha
    | second _ ha hz => exact ⟨_, ha, hz⟩
    | neither _ ha hz => exact ⟨_, ha, hz⟩

/-- A field of a type that is seen from a derived type, and then from one of its methods: the
first binding covers both parameters, one argument is the method's own parameter. -/
theorem substitute_substitute_derived :
    (genericInst (.classType ⟨0, "Demo", "Map", false⟩)
        [typeParam 1 ⟨1, "Demo", "Base", false⟩, szArray (typeParam 0 ⟨1, "Demo", "Base", false⟩)]
      ).substitute (.ofType 1 [.ptr (.typeParam 0 ⟨2, "Demo", "Leaf", false⟩), .methodParam 0 5])
        = .ok (genericInst (.classType ⟨0, "Demo", "Map", false⟩)
          [.methodParam 0 5, .szArray (.ptr (.typeParam 0 ⟨2, "Demo", "Leaf", false⟩))]) ∧
    (genericInst (.classType ⟨0, "Demo", "Map", false⟩)
        [typeParam 1 ⟨1, "Demo", "Base", false⟩, szArray (typeParam 0 ⟨1, "Demo", "Base", false⟩)]
      ).substitute (.ofType 1 [.ptr (.primitive .int32), .primitive .string])
        = .ok (genericInst (.classType ⟨0, "Demo", "Map", false⟩)
          [.primitive .string, .szArray (.ptr (.primitive .int32))]) := by
  refine ⟨rfl, ?_⟩
  refine (substitute_substitute
    (b := .ofType 1 [.ptr (.typeParam 0 ⟨2, "Demo", "Leaf", false⟩), .methodParam 0 5])
    (c := .ofMethod 2 [.primitive .int32] 5 [.primitive .string]) rfl rfl).2.1 _
    (.ofType (.cons rfl (.cons rfl .nil))) ?_
  intro x hx _
  rcases List.mem_pair.1 hx with rfl | rfl
  · rfl
  · rfl

end Sig
end Monomorph
