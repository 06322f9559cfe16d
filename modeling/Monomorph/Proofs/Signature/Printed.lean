import Monomorph.Metadata.Basic
import Monomorph.Proofs.Key
import Monomorph.Proofs.Signature.Reading

/-!
# Monomorph.Proofs.Signature.Printed

What the text of a signature tells when the signature is made of definitions alone: primitives and
types, pointers and references to them, arrays and instances.

Such a text keeps the whole tree, and of each leaf the printed name. A type of the base library
prints its short name, so two of them, or one of them and a primitive, may print the same. Printed
names may have any characters but those that can stand right behind a name in such a text.

* `Script.bare_readable`: then the parts of the text can be told from each other.
* `BuiltFrom.eq_of_shown`: where printed names are `Distinguished`, the text keeps everything.
* `Key.ofType_eq_iff`: keys of one type are equal iff the arguments show the same.
-/

namespace Monomorph

theorem Primitive.name_injective {p q : Primitive} (h : p.name = q.name) : p = q := by
  have hp := p.ofName?_name
  rw [h, q.ofName?_name] at hp
  cases hp
  rfl

@[simp] theorem TypeDef.shown_sig (t : TypeDef) (owners : Bool) :
    t.sig.shown owners = .leaf (.name t.toRef.shownName) := by
  rw [sig]
  split
  · rw [Sig.shown]
  · rw [Sig.shown]

/-! ## Names and what stands behind them -/

namespace Identifier

/-- The characters that may stand right behind a name. -/
def isFollower (c : Char) : Bool :=
  c == '<' || c == '>' || c == ',' || c == '*' || c == '&' || c == '['

/-- A name that can be told from what stands behind it. -/
def isSeparable (s : String) : Bool :=
  isNameOf (fun c => !isFollower c) s

theorem isFollower_of_isPlain {c : Char} (h : isPlain c = true) : isFollower c = false := by
  cases hf : isFollower c with
  | false => rfl
  | true =>
    simp only [isFollower, Bool.or_eq_true, beq_iff_eq] at hf
    rcases hf with ((((rfl | rfl) | rfl) | rfl) | rfl) | rfl <;> exact absurd h (by decide)

theorem isSeparable_of_isName {s : String} (h : isName s = true) : isSeparable s = true := by
  refine isNameOf_mono ?_ h
  intro c hc
  rw [isFollower_of_isPlain hc]
  rfl

end Identifier

def Leaf.Separable : Leaf → Prop
  | name text => Identifier.isSeparable text = true
  | _ => False

/-- Pointers, references, and arrays of one dimension that start at zero. -/
def Mark.Bare : Mark → Prop
  | ptr => True
  | byRef => True
  | array .zeroBased => True
  | _ => False

/-- Separable names, without parameters, and bare marks behind them. -/
def Script.bare : Script :=
  ⟨fun c => !Identifier.isFollower c, Leaf.Separable, Mark.Bare⟩

theorem Leaf.eq_name_of_separable {l : Leaf} (h : l.Separable) :
    ∃ s, l = .name s ∧ Identifier.isSeparable s = true := by
  cases l with
  | name s => exact ⟨s, rfl, h⟩
  | _ => cases h

theorem Mark.Bare.cases {m : Mark} (h : m.Bare) : m = .ptr ∨ m = .byRef ∨ m = .array .zeroBased := by
  cases m with
  | ptr => exact .inl rfl
  | byRef => exact .inr (.inl rfl)
  | array b =>
    cases b with
    | zeroBased => exact .inr (.inr rfl)
    | _ => cases h
  | _ => cases h

theorem Script.bare_readable : Script.bare.Readable where
  leaf_append_inj hl hk hu hv h := by
    obtain ⟨s, rfl, hs⟩ := Leaf.eq_name_of_separable hl
    obtain ⟨t, rfl, ht⟩ := Leaf.eq_name_of_separable hk
    obtain ⟨rfl, hr⟩ := isNameOf_append_inj hs ht hu hv h
    exact ⟨rfl, hr⟩
  leaf_append_ne hl u v := by
    obtain ⟨s, rfl, hs⟩ := Leaf.eq_name_of_separable hl
    exact isNameOf_append_ne hs (by decide) u v
  legible_mark hm := by
    rcases Mark.Bare.cases hm with rfl | rfl | rfl <;> trivial
  stops_mark hm u := by
    rcases Mark.Bare.cases hm with rfl | rfl | rfl <;> exact stops_cons (by decide) _
  delimiter hc := by
    simp only [List.mem_cons, List.not_mem_nil, or_false] at hc
    rcases hc with rfl | rfl | rfl <;> rfl

/-- The printed name of a definition tells which one it is. -/
structure Distinguished (types : List TypeDef) : Prop where
  type : ∀ t ∈ types, ∀ u ∈ types, t.toRef.shownName = u.toRef.shownName → t = u
  primitive : ∀ t ∈ types, ∀ p : Primitive, t.toRef.shownName ≠ p.name

namespace Sig

/-- The signature is made of primitives and of definitions from the list. -/
inductive BuiltFrom (types : List TypeDef) : Sig → Prop where
  | primitive (p : Primitive) : BuiltFrom types (.primitive p)
  | type {t : TypeDef} : t ∈ types → BuiltFrom types t.sig
  | ptr {s : Sig} : BuiltFrom types s → BuiltFrom types (.ptr s)
  | byRef {s : Sig} : BuiltFrom types s → BuiltFrom types (.byRef s)
  | szArray {s : Sig} : BuiltFrom types s → BuiltFrom types (.szArray s)
  | inst {t : TypeDef} {args : List Sig} : t ∈ types → (∀ a ∈ args, BuiltFrom types a) →
      BuiltFrom types (.genericInst t.sig args)

variable {types : List TypeDef} {s t : Sig}

theorem eachLegible_of_forall {S : Script} {owners : Bool} {ss : List Sig}
    (h : ∀ s ∈ ss, (s.shown owners).Legible S) : Shown.EachLegible S (shownEach owners ss) := by
  induction ss with
  | nil => trivial
  | cons s rest ih =>
    simp only [List.mem_cons, forall_eq_or_imp] at h
    exact ⟨h.1, ih h.2⟩

theorem BuiltFrom.legible (h : s.BuiltFrom types)
    (hn : ∀ t ∈ types, Identifier.isSeparable t.toRef.shownName = true) (owners : Bool) :
    (s.shown owners).Legible .bare := by
  induction h with
  | primitive p => exact Identifier.isSeparable_of_isName (isName_primitive p)
  | type ht =>
    rw [TypeDef.shown_sig]
    exact hn _ ht
  | ptr _ ih => exact ⟨ih, trivial⟩
  | byRef _ ih => exact ⟨ih, trivial⟩
  | szArray _ ih => exact ⟨ih, trivial⟩
  | inst ht _ ih =>
    refine ⟨?_, eachLegible_of_forall ih⟩
    rw [TypeDef.shown_sig]
    exact hn _ ht

theorem eq_of_shownEach {owners : Bool} {ss ts : List Sig}
    (h : ∀ s ∈ ss, ∀ t ∈ ts, s.shown owners = t.shown owners → s = t)
    (he : shownEach owners ss = shownEach owners ts) : ss = ts := by
  induction ss generalizing ts with
  | nil =>
    cases ts with
    | nil => rfl
    | cons t ts => cases he
  | cons s ss ih =>
    cases ts with
    | nil => cases he
    | cons t ts =>
      simp only [shownEach, List.cons.injEq] at he
      rw [h s (by simp) t (by simp) he.1]
      rw [ih (fun s hs t ht => h s (by simp [hs]) t (by simp [ht])) he.2]

/-- Where the printed names tell the definitions, what is shown tells the signature. -/
theorem BuiltFrom.eq_of_shown (hd : Distinguished types) {owners : Bool}
    (hs : s.BuiltFrom types) (ht : t.BuiltFrom types) (h : s.shown owners = t.shown owners) :
    s = t := by
  induction hs generalizing t with
  | primitive p =>
    cases ht with
    | primitive q =>
      simp only [shown, Shown.leaf.injEq, Leaf.name.injEq] at h
      rw [Primitive.name_injective h]
    | type hu =>
      simp only [shown, TypeDef.shown_sig, Shown.leaf.injEq, Leaf.name.injEq] at h
      exact absurd h.symm (hd.primitive _ hu p)
    | _ => simp [shown] at h
  | type hu =>
    cases ht with
    | primitive q =>
      simp only [shown, TypeDef.shown_sig, Shown.leaf.injEq, Leaf.name.injEq] at h
      exact absurd h (hd.primitive _ hu q)
    | type hv =>
      simp only [TypeDef.shown_sig, Shown.leaf.injEq, Leaf.name.injEq] at h
      rw [hd.type _ hu _ hv h]
    | _ => simp [shown] at h
  | ptr _ ih =>
    cases ht with
    | ptr ht =>
      simp only [shown, Shown.marked.injEq, and_true] at h
      rw [ih ht h]
    | _ => simp [shown] at h
  | byRef _ ih =>
    cases ht with
    | byRef ht =>
      simp only [shown, Shown.marked.injEq, and_true] at h
      rw [ih ht h]
    | _ => simp [shown] at h
  | szArray _ ih =>
    cases ht with
    | szArray ht =>
      simp only [shown, Shown.marked.injEq, and_true] at h
      rw [ih ht h]
    | _ => simp [shown] at h
  | inst hu _ ih =>
    cases ht with
    | inst hv ht =>
      simp only [shown, TypeDef.shown_sig, Shown.inst.injEq, Shown.leaf.injEq,
        Leaf.name.injEq] at h
      rw [hd.type _ hu _ hv h.1]
      rw [eq_of_shownEach (fun s hs t hm => ih s hs (ht t hm)) h.2]
    | _ => simp [shown] at h

end Sig

/-! ## Keys -/

namespace Key

variable {name : String} {args args' : List Sig} {key key' : String}

theorem legible_of_ofType (h : ofType name args = .ok key) (hp : Sig.allPlainNames args = true) :
    Shown.EachLegible .plain (Sig.shownEach true args) := by
  obtain ⟨text, ht, _⟩ := toList_ofType h
  exact Sig.legible_of_renderList ht hp

/-- With arguments in a readable script, the keys of one type tell of each argument what is shown
of it. -/
theorem ofType_eq_iff {S : Script} (hS : S.Readable) (h : ofType name args = .ok key)
    (h' : ofType name args' = .ok key') (hlen : args.length = args'.length)
    (hl : Shown.EachLegible S (Sig.shownEach true args))
    (hl' : Shown.EachLegible S (Sig.shownEach true args')) :
    key = key' ↔ List.Forall₂ (Sig.KeyEquivalent true) args args' := by
  rw [Sig.forall₂_keyEquivalent_iff]
  cases args with
  | nil =>
    obtain rfl := List.length_eq_zero_iff.1 hlen.symm
    rw [h, Except.ok.injEq] at h'
    simp [h']
  | cons a args =>
    cases args' with
    | nil => cases hlen
    | cons a' args' =>
      obtain ⟨text, ht, rfl⟩ := exists_of_map_ok h
      obtain ⟨text', ht', rfl⟩ := exists_of_map_ok h'
      rw [String.append_left_inj, String.append_right_inj, ← String.toList_inj,
        Sig.toList_of_renderList ht, Sig.toList_of_renderList ht']
      constructor
      · exact Shown.listText_injective hS hl hl'
      · intro he
        rw [he]

end Key
end Monomorph
