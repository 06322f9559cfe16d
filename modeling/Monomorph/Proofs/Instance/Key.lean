import Monomorph.Proofs.Catalog.Requests
import Monomorph.Proofs.Key
import Monomorph.Proofs.Signature.Congruence
import Monomorph.Proofs.Signature.Reading

/-!
# Monomorph.Proofs.Instance.Key

What the key of a method tells.

A key frames the text of its types: the name ends at the first bar, and the two flag words stand
behind the last two. The types in between are read from the left, as signatures are; the return type
and the argument list behind it look like one instance, which ends where the parameters open.

* `keyFor_eq_iff`: equal keys have the same name, the same flags and the same text of types,
  whatever that text is.
* `Key.determines_scalars`: so a key of any kind tells its name and its flags, even where the names
  of types contain delimiters.
* `Key.typesText_injective`: a legible text of types tells its three parts, unless one method has
  arguments and the other has none.
* `keyEquivalent_of_isMade`: equivalent arguments make equivalent types.
* `concretizedKey_eq_iff`: so the key of a method tells all that it mentions, and for one definition
  in one type it tells the arguments.
-/

namespace Monomorph

theorem CallConv.eq_of_toNat {a b : CallConv} (h : a.bits.toNat = b.bits.toNat) : a = b := by
  cases a
  cases b
  simpa [UInt8.toNat_inj] using h

theorem MethodAttributes.eq_of_toNat {a b : MethodAttributes}
    (h : a.bits.toNat = b.bits.toNat) : a = b := by
  cases a
  cases b
  simpa [UInt16.toNat_inj] using h

/-! ## The text of a key -/

namespace Key

open Identifier (escapeChars isEscaped)

/-- The text of the arguments of a method: nothing if there are none. -/
def argsText : List Shown → List Char
  | [] => []
  | args => '<' :: (Shown.listText args ++ ['>'])

/-- The text of the types of a method, up to the end of the parameters. -/
def typesText (ret : Shown) (args params : List Shown) : List Char :=
  ret.text ++ (argsText args ++ '(' :: Shown.listText params)

theorem toList_methodArgs {args : List Sig} {x : String} (h : methodArgs args = .ok x) :
    x.toList = argsText (Sig.shownEach false args) := by
  cases args with
  | nil =>
    cases h
    rfl
  | cons a args =>
    obtain ⟨text, ht, rfl⟩ := exists_of_map_ok h
    simp [argsText, Sig.shownEach, Sig.toList_of_renderList ht]

theorem toList_ofMethod {name : String} {args params : List Sig} {ret : Sig} {callConv : CallConv}
    {key : String} (h : ofMethod name args ret params callConv = .ok key) :
    key.toList = framed name (typesText (ret.shown false) (Sig.shownEach false args)
      (Sig.shownEach false params) ++ [')']) [callConv.bits.toNat] := by
  obtain ⟨r, hr, h⟩ := exists_of_bind_ok h
  obtain ⟨a, ha, h⟩ := exists_of_bind_ok h
  obtain ⟨t, ht, h⟩ := exists_of_bind_ok h
  obtain rfl := Except.ok.inj h
  obtain ⟨p, hp, rfl⟩ := exists_of_map_ok ht
  simp [framed, flagsText, CallConv.hex, Identifier.toList_escape, typesText,
    Sig.toList_of_render ret hr, toList_methodArgs ha, Sig.toList_of_renderList hp]

theorem toList_ofDeclaration {name : String} {count : Nat} {params : List Sig} {ret : Sig}
    {callConv : CallConv} {key : String}
    (h : ofDeclaration name count ret params callConv = .ok key) :
    ∃ text, key.toList = framed name text [callConv.bits.toNat] := by
  obtain ⟨r, _, h⟩ := exists_of_bind_ok h
  obtain ⟨t, ht, h⟩ := exists_of_bind_ok h
  obtain rfl := Except.ok.inj h
  obtain ⟨p, _, rfl⟩ := exists_of_map_ok ht
  generalize (if count = 0 then "" else "<" ++ Numeral.decimal count ++ ">") = g
  refine ⟨r.toList ++ (g.toList ++ '(' :: (p.toList ++ [')'])), ?_⟩
  simp [framed, flagsText, CallConv.hex, Identifier.toList_escape]

/-- The key of a method with arguments or by its declaration. -/
inductive IsMethodKey (name : String) (callConv : CallConv) (key : String) : Prop
  | ofMethod (args : List Sig) (ret : Sig) (params : List Sig)
      (h : Key.ofMethod name args ret params callConv = .ok key)
  | ofDeclaration (count : Nat) (ret : Sig) (params : List Sig)
      (h : Key.ofDeclaration name count ret params callConv = .ok key)

theorem IsMethodKey.toList_eq {name key : String} {callConv : CallConv}
    (h : IsMethodKey name callConv key) :
    ∃ text, key.toList = framed name text [callConv.bits.toNat] := by
  cases h with
  | ofMethod _ _ _ h => exact ⟨_, toList_ofMethod h⟩
  | ofDeclaration _ _ _ h => exact toList_ofDeclaration h

/-- Both layouts have the name and the calling convention in the same places. -/
theorem IsMethodKey.scalars_eq {name name' key : String} {callConv callConv' : CallConv}
    (h : IsMethodKey name callConv key) (h' : IsMethodKey name' callConv' key) :
    name = name' ∧ callConv = callConv' := by
  obtain ⟨text, hk⟩ := h.toList_eq
  obtain ⟨text', hk'⟩ := h'.toList_eq
  obtain ⟨hname, _, hflags⟩ := framed_injective (hk.symm.trans hk') rfl
  exact ⟨hname, CallConv.eq_of_toNat (List.cons.inj hflags).1⟩

/-- Return type, arguments and parameters can be told from each other. -/
theorem typesText_injective {ret ret' : Shown} {args args' params params' : List Shown}
    (hret : ret.Legible .plain) (hret' : ret'.Legible .plain)
    (hargs : Shown.EachLegible .plain args) (hargs' : Shown.EachLegible .plain args')
    (hparams : Shown.EachLegible .plain params) (hparams' : Shown.EachLegible .plain params')
    (hempty : args = [] ↔ args' = [])
    (h : typesText ret args params = typesText ret' args' params') :
    ret = ret' ∧ args = args' ∧ params = params' := by
  have hS := Script.plain_readable
  cases args with
  | nil =>
    rw [hempty.1 rfl] at h ⊢
    obtain ⟨rfl, hp⟩ := Shown.text_append_inj hS hret hret' (halts_paren _) (halts_paren _) h
    exact ⟨rfl, rfl, Shown.listText_injective hS hparams hparams' (List.cons.inj hp).2⟩
  | cons a as =>
    cases args' with
    | nil => cases hempty.2 rfl
    | cons b bs =>
      -- the return type and the arguments are read as one instance
      have hinst : (Shown.inst ret (a :: as)).text ++ '(' :: Shown.listText params =
          (Shown.inst ret' (b :: bs)).text ++ '(' :: Shown.listText params' := by
        rw [text_inst_append, text_inst_append]
        simpa [typesText, argsText] using h
      have hl : (Shown.inst ret (a :: as)).Legible .plain := ⟨hret, hargs⟩
      have hl' : (Shown.inst ret' (b :: bs)).Legible .plain := ⟨hret', hargs'⟩
      obtain ⟨hi, hp⟩ := Shown.text_append_inj hS hl hl' (halts_paren _) (halts_paren _) hinst
      obtain ⟨rfl, ha⟩ := Shown.inst.inj hi
      exact ⟨rfl, ha, Shown.listText_injective hS hparams hparams' (List.cons.inj hp).2⟩

end Key

namespace MethodInstance

open Identifier (escapeChars isEscaped)

/-- The text of the types in a key of the method. -/
def typesText (i : MethodInstance) (ret : Sig) (params : List Sig) : List Char :=
  Key.typesText (ret.shown false) (Sig.shownEach false i.args) (Sig.shownEach false params)

theorem toList_keyFor {i : MethodInstance} {ret : Sig} {params : List Sig} {key : String}
    (h : i.keyFor ret params = .ok key) :
    key.toList = Key.framed i.name (i.typesText ret params ++ [')'])
      [i.definition.sig.callConv.bits.toNat, i.definition.attributes.bits.toNat] := by
  obtain ⟨text, ht, rfl⟩ := exists_of_map_ok h
  simp [Key.framed, Key.flagsText, MethodAttributes.hex, typesText, Key.toList_ofMethod ht]

/-- Keys are equal iff names, flags and the texts of the types are. -/
theorem keyFor_eq_iff {i j : MethodInstance} {ret ret' : Sig} {params params' : List Sig}
    {key key' : String} (h : i.keyFor ret params = .ok key)
    (h' : j.keyFor ret' params' = .ok key') :
    key = key' ↔ i.name = j.name ∧ i.definition.sig.callConv = j.definition.sig.callConv ∧
      i.definition.attributes = j.definition.attributes ∧
      i.typesText ret params = j.typesText ret' params' := by
  rw [← String.toList_inj, toList_keyFor h, toList_keyFor h']
  constructor
  · intro he
    obtain ⟨hname, htypes, hflags⟩ := Key.framed_injective he rfl
    obtain ⟨hcallConv, hflags⟩ := List.cons.inj hflags
    exact ⟨hname, CallConv.eq_of_toNat hcallConv,
      MethodAttributes.eq_of_toNat (List.cons.inj hflags).1, List.append_cancel_right htypes⟩
  · rintro ⟨hname, hcallConv, hattributes, htypes⟩
    rw [hname, hcallConv, hattributes, htypes]

/-- A key of the record, by its declared types or by its concrete ones. -/
inductive HasKey (i : MethodInstance) (key : String) : Prop
  | declared (h : i.declaredKey = .ok key)
  | concretized (h : i.concretizedKey = .ok key)

theorem HasKey.exists_keyFor {i : MethodInstance} {key : String} (h : i.HasKey key) :
    ∃ ret params, i.keyFor ret params = .ok key := by
  cases h with
  | declared h => exact ⟨_, _, h⟩
  | concretized h =>
    rw [concretizedKey] at h
    split at h
    · exact ⟨_, _, h⟩
    · cases h

theorem HasKey.scalars_eq {i j : MethodInstance} {key : String} (h : i.HasKey key)
    (h' : j.HasKey key) :
    i.name = j.name ∧ i.definition.sig.callConv = j.definition.sig.callConv ∧
      i.definition.attributes = j.definition.attributes := by
  obtain ⟨ret, params, hk⟩ := h.exists_keyFor
  obtain ⟨ret', params', hk'⟩ := h'.exists_keyFor
  obtain ⟨hname, hcallConv, hattributes, _⟩ := (keyFor_eq_iff hk hk').1 rfl
  exact ⟨hname, hcallConv, hattributes⟩

/-- Methods with the same key have the same name, whatever their types are. -/
theorem name_of_concretizedKey {i j : MethodInstance} {key : String}
    (h : i.concretizedKey = .ok key) (h' : j.concretizedKey = .ok key) : i.name = j.name :=
  (HasKey.scalars_eq (.concretized h) (.concretized h')).1

end MethodInstance

/-! ## Scalars -/

/-- A box of numbers. -/
def MethodInstance.boxInstance : TypeInstance :=
  ⟨⟨0, "Demo", "Box", false⟩, false, [.primitive .int32]⟩

/-- Keys determine what they contain besides types, whatever text the types have: the name and both
flag words of a record, the name and the calling convention of a method, the name of a field and the
text of its type, the name of a type, the text of its arguments and whether there are any. -/
theorem Key.determines_scalars :
    (∀ {i j : MethodInstance} {key : String}, i.HasKey key → j.HasKey key →
      i.name = j.name ∧ i.definition.sig.callConv = j.definition.sig.callConv ∧
        i.definition.attributes = j.definition.attributes) ∧
    (∀ {name name' key : String} {callConv callConv' : CallConv},
      IsMethodKey name callConv key → IsMethodKey name' callConv' key →
        name = name' ∧ callConv = callConv') ∧
    (∀ {name name' key : String} {type type' : Sig}, ofField name type = .ok key →
      (ofField name' type' = .ok key ↔ name' = name ∧ type'.render false = type.render false)) ∧
    ∀ {name name' key : String} {args args' : List Sig}, ofType name args = .ok key →
      (ofType name' args' = .ok key ↔ name' = name ∧ (args' = [] ↔ args = []) ∧
        Sig.renderList true args' = Sig.renderList true args) :=
  ⟨MethodInstance.HasKey.scalars_eq, IsMethodKey.scalars_eq, ofField_eq_ok_iff, ofType_eq_ok_iff⟩

/-- A class whose name contains the delimiters of keys, and ends like an instance. -/
def Key.oddType (suffix : String) : Sig :=
  .classType ⟨7, "Demo", "A|6" ++ suffix, false⟩

/-- A method of boxes with a result type and arguments. -/
def MethodInstance.returning (ret : Sig) (args : List Sig) : MethodInstance :=
  ⟨boxInstance, ⟨0, 0, "Get", ⟨⟨0x20⟩, args.length, ret, [], none⟩, ⟨6⟩, none⟩, args, none, [],
    false, false⟩

/-- An instance and a class with the name of that instance give the same keys; in all of them the
bar inside the name is not taken for the end of anything. -/
theorem Key.determines_scalars_odd :
    let inst := Sig.genericInst (oddType "") [.primitive .int32]
    let i := MethodInstance.returning (oddType "") [.primitive .int32]
    let j := MethodInstance.returning (oddType "<Int32>") []
    (i ≠ j ∧ i.HasKey "Get|Demo.A|6<Int32>()|20|6" ∧ j.HasKey "Get|Demo.A|6<Int32>()|20|6" ∧
      i.name = j.name ∧ i.definition.sig.callConv = j.definition.sig.callConv ∧
      i.definition.attributes = j.definition.attributes) ∧
    (∀ name callConv, IsMethodKey name callConv "Get|Demo.A|6<1>()|20" →
      name = "Get" ∧ callConv = ⟨0x20⟩) ∧
    ofField "x" inst = ofField "x" (oddType "<Int32>") ∧
    ofType "Box" [inst] = ofType "Box" [oddType "<Int32>"] ∧
    ofType "Box" [inst] ≠ ofType "Box" [] := by
  obtain ⟨hrecord, hmethod, hfield, htype⟩ := determines_scalars
  have hi : (MethodInstance.returning (oddType "") [.primitive .int32]).declaredKey =
    .ok "Get|Demo.A|6<Int32>()|20|6" := rfl
  have hj : (MethodInstance.returning (oddType "<Int32>") []).declaredKey =
    .ok "Get|Demo.A|6<Int32>()|20|6" := rfl
  have hspelled : ofType "Box" [oddType "<Int32>"] = .ok "Box<Demo.A|6<Int32>>" := rfl
  have hempty : ofType "Box" [] = .ok "Box" := rfl
  intro inst i j
  refine ⟨⟨?_, .declared hi, .declared hj, hrecord (.declared hi) (.declared hj)⟩, ?_, ?_, ?_, ?_⟩
  · intro h
    cases congrArg (fun i => i.args.length) h
  · intro name callConv h
    exact hmethod h (.ofDeclaration 1 (oddType "") [] rfl)
  · have hfieldKey : ofField "x" (oddType "<Int32>") = .ok "x|Demo.A|6<Int32>" := rfl
    rw [hfieldKey]
    exact (hfield hfieldKey).2 ⟨rfl, rfl⟩
  · rw [hspelled]
    exact (htype hspelled).2 ⟨rfl, by simp, rfl⟩
  · intro h
    rw [hempty] at h
    cases ((htype hempty).1 h).2.1.2 rfl

/-! ## Records -/

namespace MethodInstance

/-- The names in the types that the key of a method mentions are plain. -/
structure PlainNames (i : MethodInstance) (c : ConcreteSig) : Prop where
  ret : c.ret.plainNames = true
  args : Sig.allPlainNames i.args = true
  params : Sig.allPlainNames c.params = true

/-- The generic flag of the method tells whether it has arguments. -/
def Flagged (i : MethodInstance) : Prop :=
  i.definition.sig.callConv.isGeneric = true ↔ i.args ≠ []

/-- The record is made for a method in a type and has its concrete signature. -/
def IsMade (owner : TypeInstance) (d : MethodDef) (i : MethodInstance) : Prop :=
  ∃ j, make owner d i.args = .ok j ∧ j.concretize = .ok i

variable {i j : MethodInstance} {c e : ConcreteSig} {key key' : String}

theorem legible_of_keyFor (h : i.keyFor c.ret c.params = .ok key) (hp : i.PlainNames c) :
    (c.ret.shown false).Legible .plain ∧ Shown.EachLegible .plain (Sig.shownEach false i.args) ∧
      Shown.EachLegible .plain (Sig.shownEach false c.params) := by
  obtain ⟨text, ht, _⟩ := exists_of_map_ok h
  obtain ⟨⟨r, hr⟩, ha, hps⟩ := Key.exists_ofMethod_iff.1 ⟨text, ht⟩
  obtain ⟨as, has⟩ := Sig.exists_renderList_iff.2 ha
  obtain ⟨ps, hps⟩ := Sig.exists_renderList_iff.2 hps
  exact ⟨Sig.legible_of_render _ hr hp.ret, Sig.legible_of_renderList has hp.args,
    Sig.legible_of_renderList hps hp.params⟩

theorem shownEach_eq_nil_iff {owners : Bool} {ss : List Sig} :
    Sig.shownEach owners ss = [] ↔ ss = [] := by
  cases ss <;> simp [Sig.shownEach]

/-- With plain names, the key of a method tells all that it mentions. -/
theorem concretizedKey_eq_iff_of_empty (hc : i.concrete = some c) (he : j.concrete = some e)
    (hk : i.concretizedKey = .ok key) (hk' : j.concretizedKey = .ok key') (hp : i.PlainNames c)
    (hp' : j.PlainNames e) (hempty : i.args = [] ↔ j.args = []) :
    key = key' ↔ i.name = j.name ∧ i.definition.sig.callConv = j.definition.sig.callConv ∧
      i.definition.attributes = j.definition.attributes ∧ c.ret.KeyEquivalent false e.ret ∧
      List.Forall₂ (Sig.KeyEquivalent false) i.args j.args ∧
      List.Forall₂ (Sig.KeyEquivalent false) c.params e.params := by
  rw [concretizedKey, hc] at hk
  rw [concretizedKey, he] at hk'
  obtain ⟨hret, hargs, hparams⟩ := legible_of_keyFor hk hp
  obtain ⟨hret', hargs', hparams'⟩ := legible_of_keyFor hk' hp'
  have htypes : i.typesText c.ret c.params = j.typesText e.ret e.params ↔
      c.ret.KeyEquivalent false e.ret ∧
        List.Forall₂ (Sig.KeyEquivalent false) i.args j.args ∧
        List.Forall₂ (Sig.KeyEquivalent false) c.params e.params := by
    rw [Sig.forall₂_keyEquivalent_iff, Sig.forall₂_keyEquivalent_iff]
    constructor
    · refine Key.typesText_injective hret hret' hargs hargs' hparams hparams' ?_
      rw [shownEach_eq_nil_iff, shownEach_eq_nil_iff]
      exact hempty
    · rintro ⟨hr, ha, hps⟩
      rw [typesText, typesText, hr, ha, hps]
  rw [keyFor_eq_iff hk hk', htypes]

theorem length_args_of_make {owner : TypeInstance} {d : MethodDef} {args : List Sig}
    (h : make owner d args = .ok i) : args.length = d.sig.genericParams := by
  rw [make] at h
  split at h
  · cases h
  · split at h
    · cases h
    · split at h
      · cases h
      · rename_i hl
        exact Decidable.not_not.1 hl

theorem IsMade.concreteSig_eq {owner : TypeInstance} {d : MethodDef} (h : IsMade owner d i)
    (hc : i.concrete = some c) : i.owner = owner ∧ i.definition = d ∧
      i.args.length = d.sig.genericParams ∧ i.concreteSig = .ok c := by
  obtain ⟨j, hj, hi⟩ := h
  have hl := length_args_of_make hj
  have hm := make_ok hj
  generalize i.args = args at hl hm
  subst hm
  obtain ⟨c', hc', rfl⟩ := exists_of_map_ok hi
  cases hc
  exact ⟨rfl, rfl, hl, hc'⟩

/-- For one definition in one type, equivalent arguments make equivalent types. -/
theorem keyEquivalent_of_isMade {owner : TypeInstance} {d : MethodDef} (hi : IsMade owner d i)
    (hj : IsMade owner d j) (hc : i.concrete = some c) (he : j.concrete = some e)
    (ha : List.Forall₂ (Sig.KeyEquivalent false) i.args j.args) :
    c.ret.KeyEquivalent false e.ret ∧
      List.Forall₂ (Sig.KeyEquivalent false) c.params e.params := by
  obtain ⟨hio, hid, _, hi⟩ := hi.concreteSig_eq hc
  obtain ⟨hjo, hjd, _, hj⟩ := hj.concreteSig_eq he
  obtain ⟨hret, hparams, _⟩ := concreteSig_ok hi
  obtain ⟨hret', hparams', _⟩ := concreteSig_ok hj
  rw [hid] at hret hparams
  rw [hjd] at hret' hparams'
  have hb : i.binding.Related (Sig.KeyEquivalent false) j.binding := by
    rw [binding, binding, hio, hid, hjo, hjd]
    exact .ofMethod (List.forall₂_same.2 fun _ _ => rfl) ha
  have hc := Sig.congruence_keyEquivalent false
  obtain ⟨ret, hr, hrets⟩ := hc.exists_substitute hb hret
  obtain ⟨params, hp, hparamss⟩ := hc.exists_substituteAll hb hparams
  rw [hret'] at hr
  rw [hparams'] at hp
  cases hr
  cases hp
  exact ⟨hrets, hparamss⟩

/-- With plain names, the key of a method tells all that it mentions, unless one method has
arguments and the other has none; flags that tell which of them has any rule that out. For one
definition in one type the key tells what is shown of the arguments. -/
theorem concretizedKey_eq_iff (hc : i.concrete = some c) (he : j.concrete = some e)
    (hk : i.concretizedKey = .ok key) (hk' : j.concretizedKey = .ok key') (hp : i.PlainNames c)
    (hp' : j.PlainNames e) :
    ((i.args = [] ↔ j.args = []) ∨ i.Flagged ∧ j.Flagged →
      (key = key' ↔ i.name = j.name ∧ i.definition.sig.callConv = j.definition.sig.callConv ∧
        i.definition.attributes = j.definition.attributes ∧ c.ret.KeyEquivalent false e.ret ∧
        List.Forall₂ (Sig.KeyEquivalent false) i.args j.args ∧
        List.Forall₂ (Sig.KeyEquivalent false) c.params e.params)) ∧
    ∀ (owner : TypeInstance) (d : MethodDef), IsMade owner d i → IsMade owner d j →
      (key = key' ↔ List.Forall₂ (Sig.KeyEquivalent false) i.args j.args) := by
  have hiff := concretizedKey_eq_iff_of_empty hc he hk hk' hp hp'
  refine ⟨?_, ?_⟩
  · rintro (hempty | ⟨hi, hj⟩)
    · exact hiff hempty
    · -- on either side the calling conventions agree, and so do their flags
      have hflag (h : i.definition.sig.callConv = j.definition.sig.callConv) :
          i.args = [] ↔ j.args = [] := by
        have he : i.args ≠ [] ↔ j.args ≠ [] := by
          rw [Flagged] at hi hj
          rw [← hi, ← hj, h]
        exact not_iff_not.1 he
      constructor
      · intro h
        have hkey := hk
        have hkey' := hk'
        rw [concretizedKey, hc] at hkey
        rw [concretizedKey, he] at hkey'
        exact (hiff (hflag ((keyFor_eq_iff hkey hkey').1 h).2.1)).1 h
      · intro h
        exact (hiff (hflag h.2.1)).2 h
  · intro owner d hi hj
    obtain ⟨_, hid, hil, _⟩ := hi.concreteSig_eq hc
    obtain ⟨_, hjd, hjl, _⟩ := hj.concreteSig_eq he
    have hempty : i.args = [] ↔ j.args = [] := by
      rw [← List.length_eq_zero_iff, hil, ← hjl, List.length_eq_zero_iff]
    rw [hiff hempty]
    constructor
    · rintro ⟨_, _, _, _, ha, _⟩
      exact ha
    · intro ha
      obtain ⟨hr, hps⟩ := keyEquivalent_of_isMade hi hj hc he ha
      exact ⟨by rw [name, name, hid, hjd], by rw [hid, hjd], by rw [hid, hjd], hr, ha, hps⟩

/-- A method of boxes with a parameter of its own, which it returns. -/
def mapDef : MethodDef :=
  ⟨0, 0, "Map", ⟨⟨0x30⟩, 1, .methodParam 0 0, [.typeParam 0 boxInstance.type], none⟩, ⟨6⟩, none⟩

/-- The record of that method with an argument. -/
def mapInstance (arg : Sig) : MethodInstance :=
  ⟨boxInstance, mapDef, [arg],
    some ⟨some boxInstance.receiver, arg, [.primitive .int32], none, none⟩, [], false, false⟩

/-- Arrays of strings have another key than strings, and pinned strings have the same. -/
theorem concretizedKey_eq_iff_map :
    (∃ key key', (mapInstance (.primitive .string)).concretizedKey = .ok key ∧
      (mapInstance (.szArray (.primitive .string))).concretizedKey = .ok key' ∧ key ≠ key') ∧
    ∃ key, (mapInstance (.primitive .string)).concretizedKey = .ok key ∧
      (mapInstance (.pinned (.primitive .string))).concretizedKey = .ok key := by
  have hflag (arg : Sig) : (mapInstance arg).Flagged := by
    constructor
    · intro _ h
      cases h
    · intro _
      show CallConv.isGeneric ⟨0x30⟩ = true
      decide
  have harray := concretizedKey_eq_iff (i := mapInstance (.primitive .string))
    (j := mapInstance (.szArray (.primitive .string))) rfl rfl rfl rfl
    ⟨by decide, by decide, by decide⟩ ⟨by decide, by decide, by decide⟩
  have hpinned := concretizedKey_eq_iff (i := mapInstance (.primitive .string))
    (j := mapInstance (.pinned (.primitive .string))) rfl rfl rfl rfl
    ⟨by decide, by decide, by decide⟩ ⟨by decide, by decide, by decide⟩
  constructor
  · refine ⟨_, _, rfl, rfl, ?_⟩
    intro h
    obtain ⟨_, _, _, _, hargs, _⟩ := (harray.1 (.inr ⟨hflag _, hflag _⟩)).1 h
    cases (List.forall₂_cons.1 hargs).1
  · have h := (hpinned.2 boxInstance mapDef ⟨_, rfl, rfl⟩ ⟨_, rfl, rfl⟩).2
      (.cons rfl .nil)
    refine ⟨_, rfl, ?_⟩
    rw [h]
    rfl

end MethodInstance
end Monomorph
