import Monomorph.Proofs.Json.Record
import Monomorph.Snapshot.Reader

/-!
# Monomorph.Proofs.Snapshot.Spelling

Every spelling of a snapshot is read as the snapshot.

* `NamedSig.Spells`, `FieldDecl.Spells`, …, `Snapshot.Spells`: what each kind of declaration looks
  like in JSON. Doubles have no spelling here.
* `NamedSig.readsWithin`: signatures are read, by induction on them.
* `Snapshot.parse_of_spells`: a text that writes a spelling is read as what it spells, whatever the
  order of members, escapes, blanks and members of unknown names.
-/

namespace Monomorph

open Json

/-! ## Spellings -/

section Spellings

open Spells

mutual

def NamedSig.Spells : NamedSig → Value → Prop
  | .primitive p => variant "primitive" (string p.name)
  | .type name => variant "type" (string name)
  | .ptr next => variant "ptr" next.Spells
  | .byRef next => variant "by_ref" next.Spells
  | .pinned next => variant "pinned" next.Spells
  | .szArray next => variant "sz_array" next.Spells
  | .array element rank sizes lowerBounds =>
    variant "array" <| object fun xs =>
      given "element" element.Spells xs ∧
      given "rank" (unsigned 32 rank) xs ∧
      listed "sizes" (unsigned 32) sizes xs ∧
      listed "lower_bounds" (signed 32) lowerBounds xs
  | .modReqd modifier next =>
    variant "mod_reqd" <| object fun xs =>
      given "modifier" (string modifier) xs ∧ given "next" next.Spells xs
  | .modOpt modifier next =>
    variant "mod_opt" <| object fun xs =>
      given "modifier" (string modifier) xs ∧ given "next" next.Spells xs
  | .genericInst generic args =>
    variant "generic_inst" <| object fun xs =>
      given "generic_type" (string generic) xs ∧ given "args" (list (NamedSig.spellings args)) xs
  | .typeParam number owner =>
    variant "var" <| object fun xs =>
      given "number" (unsigned 32 number) xs ∧ optional "owner" string owner xs
  | .methodParam number => variant "mvar" (unsigned 32 number)
  | .unsupported e => variant "unsupported" (string e.name)

def NamedSig.spellings : List NamedSig → List (Value → Prop)
  | [] => []
  | d :: rest => d.Spells :: NamedSig.spellings rest

end

def FieldDecl.Spells (d : FieldDecl) : Value → Prop :=
  object fun xs =>
    given "name" (string d.name) xs ∧
    given "type" d.type.Spells xs ∧
    defaulted "is_static" false d.isStatic (bool d.isStatic) xs

def HandlerDecl.Spells (d : HandlerDecl) : Value → Prop :=
  object fun xs =>
    given "kind" (string d.kind.name) xs ∧
    given "try_start" (unsigned 32 d.tryStart) xs ∧
    given "try_end" (unsigned 32 d.tryEnd) xs ∧
    given "handler_start" (unsigned 32 d.handlerStart) xs ∧
    given "handler_end" (unsigned 32 d.handlerEnd) xs ∧
    optional "filter_start" (unsigned 32) d.filterStart xs ∧
    optional "catch_type" NamedSig.Spells d.catchType xs

def Operand.Spells : Operand → Value → Prop
  | .none => Json.Spells.string "none"
  | .int n => variant "int" (signed 64 n)
  | .float _ => fun _ => False
  | .string s => variant "string" (Json.Spells.string s)
  | .branch target => variant "branch" (unsigned 32 target)
  | .switch targets => variant "switch" (list (targets.map (unsigned 32)))
  | .token name => variant "token" (Json.Spells.string name)

def Instruction.Spells (d : Instruction) : Value → Prop :=
  object fun xs =>
    given "offset" (unsigned 32 d.offset) xs ∧
    given "opcode" (string d.opcode) xs ∧
    defaulted "operand" Operand.none d.operand d.operand.Spells xs

def BodyDecl.Spells (d : BodyDecl) : Value → Prop :=
  object fun xs =>
    listed "locals" NamedSig.Spells d.locals xs ∧
    listed "handlers" HandlerDecl.Spells d.handlers xs ∧
    listed "instructions" Instruction.Spells d.instructions xs

def MethodDecl.Spells (d : MethodDecl) : Value → Prop :=
  object fun xs =>
    given "name" (string d.name) xs ∧
    defaulted "calling_convention" ⟨0⟩ d.callConv (unsigned 8 d.callConv.bits.toNat) xs ∧
    defaulted "attributes" ⟨0⟩ d.attributes (unsigned 16 d.attributes.bits.toNat) xs ∧
    defaulted "generic_params" 0 d.genericParams (unsigned 32 d.genericParams) xs ∧
    given "ret" d.ret.Spells xs ∧
    listed "params" NamedSig.Spells d.params xs ∧
    optional "params_after_sentinel" (fun ds => list (ds.map NamedSig.Spells)) d.sentinel xs ∧
    optional "body" BodyDecl.Spells d.body xs

def TypeDecl.Spells (d : TypeDecl) : Value → Prop :=
  object fun xs =>
    defaulted "namespace" "" d.nameSpace (string d.nameSpace) xs ∧
    given "name" (string d.name) xs ∧
    defaulted "corlib" false d.corlib (bool d.corlib) xs ∧
    defaulted "value_type" false d.valueType (bool d.valueType) xs ∧
    defaulted "generic_params" 0 d.genericParams (unsigned 32 d.genericParams) xs ∧
    listed "fields" FieldDecl.Spells d.fields xs ∧
    listed "methods" MethodDecl.Spells d.methods xs

def RequestDecl.Spells (d : RequestDecl) : Value → Prop :=
  object fun xs =>
    given "type" (string d.type) xs ∧
    listed "type_args" NamedSig.Spells d.typeArgs xs ∧
    optional "method" string d.method xs ∧
    listed "method_args" NamedSig.Spells d.methodArgs xs ∧
    optional "field" string d.field xs

def Snapshot.Spells (s : Snapshot) : Value → Prop :=
  object fun xs =>
    listed "types" TypeDecl.Spells s.types xs ∧
    listed "instantiations" RequestDecl.Spells s.requests xs

end Spellings

/-! ## Signatures -/

namespace NamedSig

theorem spellings_eq_map (ds : List NamedSig) : spellings ds = ds.map Spells := by
  induction ds with
  | nil => rfl
  | cons d ds ih => rw [spellings, ih, List.map_cons]

open Snapshot Format Reader

/-- The signature is read within any depth that is larger than that of its spelling. -/
def ReadsWithin (d : NamedSig) : Prop :=
  ∀ (n : Nat) (v : Value), d.Spells v → v.depth < n → Reads (sigWithin n) d v

theorem readsWithin_of_succ {d : NamedSig}
    (h : ∀ (n : Nat) (v : Value), (∀ depth < v.depth, depth < n) → d.Spells v →
      Reads (sigWithin (n + 1)) d v) : d.ReadsWithin := by
  intro n v hv hd
  cases n with
  | zero => cases hd
  | succ n => exact h n v (fun depth hlt => Nat.lt_of_lt_of_le hlt (Nat.le_of_lt_succ hd)) hv

theorem arrayNames {inner : Reader NamedSig} : (arrayMembers inner).names.Nodup :=
  show ["element", "rank", "sizes", "lower_bounds"].Nodup by decide

theorem modifierNames {inner : Reader NamedSig} : (modifierMembers inner).names.Nodup :=
  show ["modifier", "next"].Nodup by decide

theorem genericNames {inner : Reader NamedSig} : (genericMembers inner).names.Nodup :=
  show ["generic_type", "args"].Nodup by decide

theorem reads_modifier {inner : Reader NamedSig} {modifier : String} {next : NamedSig} {v : Value}
    (h : Json.Spells.object (fun xs =>
      Json.Spells.given "modifier" (Json.Spells.string modifier) xs ∧
        Json.Spells.given "next" next.Spells xs) v)
    (hr : ∀ w, w.depth < v.depth → next.Spells w → Reads inner next w) :
    Reads (Reader.record (modifierMembers inner)) (modifier, next, ()) v := by
  refine reads_record h modifierNames ?_
  rintro xs hxs ⟨hmodifier, hnext⟩
  refine .of_given hmodifier (fun w _ => reads_string) ?_
  exact .of_given hnext (fun w hm => hr w (hxs _ hm)) trivial

/-- A signature is read within any depth that is larger than its own. -/
theorem readsWithin (d : NamedSig) : d.ReadsWithin := by
  induction d using NamedSig.rec (motive_2 := fun ds => ∀ d ∈ ds, d.ReadsWithin) with
  | primitive p =>
    refine readsWithin_of_succ fun n v _ h => reads_choice h rfl fun w _ hw => ?_
    refine Reads.bind (reads_bare hw ?_) rfl
    rw [Primitive.ofName?_name]
    rfl
  | type name =>
    refine readsWithin_of_succ fun n v _ h => reads_choice h rfl fun w _ hw => ?_
    exact Reads.bind (reads_string hw) rfl
  | ptr next ih =>
    refine readsWithin_of_succ fun n v hn h => reads_choice h rfl fun w hd hw => ?_
    exact Reads.bind (ih n w hw (hn _ hd)) rfl
  | byRef next ih =>
    refine readsWithin_of_succ fun n v hn h => reads_choice h rfl fun w hd hw => ?_
    exact Reads.bind (ih n w hw (hn _ hd)) rfl
  | pinned next ih =>
    refine readsWithin_of_succ fun n v hn h => reads_choice h rfl fun w hd hw => ?_
    exact Reads.bind (ih n w hw (hn _ hd)) rfl
  | szArray next ih =>
    refine readsWithin_of_succ fun n v hn h => reads_choice h rfl fun w hd hw => ?_
    exact Reads.bind (ih n w hw (hn _ hd)) rfl
  | array element rank sizes lowerBounds ih =>
    refine readsWithin_of_succ fun n v hn h => reads_choice h rfl fun w hd hw => ?_
    refine Reads.bind (a := (element, rank, sizes, lowerBounds, ())) (reads_record hw arrayNames ?_)
      rfl
    rintro xs hxs ⟨helement, hrank, hsizes, hlowerBounds⟩
    refine .of_given helement
      (fun w hm hw => ih n w hw (hn _ (Nat.lt_trans (hxs _ hm) hd))) ?_
    refine .of_given hrank (fun w _ => reads_unsigned) ?_
    refine .of_listed hsizes (fun _ _ => reads_unsigned) ?_
    exact .of_listed hlowerBounds (fun _ _ => reads_signed) trivial
  | modReqd modifier next ih =>
    refine readsWithin_of_succ fun n v hn h => reads_choice h rfl fun w hd hw => ?_
    refine Reads.bind (reads_modifier hw fun u hlt hu => ?_) rfl
    exact ih n u hu (hn _ (Nat.lt_trans hlt hd))
  | modOpt modifier next ih =>
    refine readsWithin_of_succ fun n v hn h => reads_choice h rfl fun w hd hw => ?_
    refine Reads.bind (reads_modifier hw fun u hlt hu => ?_) rfl
    exact ih n u hu (hn _ (Nat.lt_trans hlt hd))
  | genericInst generic args ih =>
    refine readsWithin_of_succ fun n v hn h => reads_choice h rfl fun w hd hw => ?_
    refine Reads.bind (a := (generic, args, ())) (reads_record hw genericNames ?_) rfl
    rintro xs hxs ⟨hgeneric, hargs⟩
    rw [spellings_eq_map] at hargs
    refine .of_given hgeneric (fun w _ => reads_string) ?_
    refine .of_given hargs (fun w hm hw => reads_list hw fun d hds u hu hs => ?_) trivial
    exact ih d hds n u hs (hn _ (Nat.lt_trans hu (Nat.lt_trans (hxs _ hm) hd)))
  | typeParam number owner =>
    refine readsWithin_of_succ fun n v _ h => reads_choice h rfl fun w _ hw => ?_
    refine Reads.bind (a := (number, owner, ())) (reads_record hw (by decide) ?_) rfl
    rintro xs _ ⟨hnumber, howner⟩
    refine .of_given hnumber (fun w _ => reads_unsigned) ?_
    exact .of_optional howner Json.Spells.not_string_null (fun _ _ => reads_string) trivial
  | methodParam number =>
    refine readsWithin_of_succ fun n v _ h => reads_choice h rfl fun w _ hw => ?_
    exact Reads.bind (reads_unsigned hw) rfl
  | unsupported e =>
    refine readsWithin_of_succ fun n v _ h => reads_choice h rfl fun w _ hw => ?_
    refine Reads.bind (reads_bare hw ?_) rfl
    rw [ElementType.ofName?_name]
    rfl
  | nil d hd => cases hd
  | cons d ds ihd ihds e he =>
    rcases List.mem_cons.1 he with rfl | he
    · exact ihd
    · exact ihds e he

theorem reads_sig {d : NamedSig} {v : Value} (h : d.Spells v) : Reads sig d v := by
  intro limits cs rest hl hr hd hi
  exact readsWithin d _ _ h (Nat.lt_succ_of_le hd) limits cs rest hl hr hd hi

theorem not_spells_null (d : NamedSig) : ¬ d.Spells .null := by
  cases d <;> exact Json.Spells.not_variant_null _ _

end NamedSig

/-! ## Definitions -/

section Definitions

open Snapshot Format Reader NamedSig Json.Spells

variable {v : Value}

theorem FieldDecl.reads {d : FieldDecl} (h : d.Spells v) : Reads field d v := by
  refine Reads.bind (a := (d.name, d.type, d.isStatic, ())) (reads_record h (by decide) ?_) rfl
  rintro xs _ ⟨hname, htype, hstatic⟩
  refine .of_given hname (fun _ _ => reads_string) ?_
  refine .of_given htype (fun _ _ => reads_sig) ?_
  exact .of_defaulted hstatic (fun _ _ => reads_bool) trivial

theorem HandlerKind.reads {k : HandlerKind} (h : string k.name v) :
    Reads (.named HandlerKind.ofName?) k v := by
  refine reads_bare h ?_
  rw [HandlerKind.ofName?_name]
  rfl

theorem HandlerDecl.reads {d : HandlerDecl} (h : d.Spells v) : Reads handler d v := by
  refine Reads.bind (a := (d.kind, d.tryStart, d.tryEnd, d.handlerStart, d.handlerEnd,
    d.filterStart, d.catchType, ())) (reads_record h (by decide) ?_) rfl
  rintro xs _ ⟨hkind, htryStart, htryEnd, hhandlerStart, hhandlerEnd, hfilterStart, hcatchType⟩
  refine .of_given hkind (fun _ _ => HandlerKind.reads) ?_
  refine .of_given htryStart (fun _ _ => reads_unsigned) ?_
  refine .of_given htryEnd (fun _ _ => reads_unsigned) ?_
  refine .of_given hhandlerStart (fun _ _ => reads_unsigned) ?_
  refine .of_given hhandlerEnd (fun _ _ => reads_unsigned) ?_
  refine .of_optional hfilterStart (not_unsigned_null 32) (fun _ _ => reads_unsigned) ?_
  exact .of_optional hcatchType not_spells_null (fun _ _ => reads_sig) trivial

theorem Operand.reads {d : Operand} (h : d.Spells v) : Reads (.choice operandVariant?) d v := by
  cases d with
  | none => exact reads_bare h rfl
  | int n => exact reads_choice h rfl fun w _ hw => Reads.bind (reads_signed hw) rfl
  | float _ => cases h
  | string s => exact reads_choice h rfl fun w _ hw => Reads.bind (reads_string hw) rfl
  | branch target => exact reads_choice h rfl fun w _ hw => Reads.bind (reads_unsigned hw) rfl
  | switch targets =>
    exact reads_choice h rfl fun w _ hw =>
      Reads.bind (reads_list hw fun _ _ _ _ => reads_unsigned) rfl
  | token name => exact reads_choice h rfl fun w _ hw => Reads.bind (reads_string hw) rfl

theorem Instruction.reads {d : Instruction} (h : d.Spells v) : Reads instruction d v := by
  refine Reads.bind (a := (d.offset, d.opcode, d.operand, ())) (reads_record h (by decide) ?_) rfl
  rintro xs _ ⟨hoffset, hopcode, hoperand⟩
  refine .of_given hoffset (fun _ _ => reads_unsigned) ?_
  refine .of_given hopcode (fun _ _ => reads_string) ?_
  exact .of_defaulted hoperand (fun _ _ => Operand.reads) trivial

theorem BodyDecl.reads {d : BodyDecl} (h : d.Spells v) : Reads body d v := by
  refine Reads.bind (a := (d.locals, d.handlers, d.instructions, ()))
    (reads_record h (by decide) ?_) rfl
  rintro xs _ ⟨hlocals, hhandlers, hinstructions⟩
  refine .of_listed hlocals (fun _ _ => reads_sig) ?_
  refine .of_listed hhandlers (fun _ _ => HandlerDecl.reads) ?_
  exact .of_listed hinstructions (fun _ _ => Instruction.reads) trivial

theorem MethodDecl.reads {d : MethodDecl} (h : d.Spells v) : Reads method d v := by
  refine Reads.bind (a := (d.name, d.callConv.bits.toNat, d.attributes.bits.toNat, d.genericParams,
    d.ret, d.params, d.sentinel, d.body, ())) (reads_record h (by decide) ?_) ?_
  · rintro xs _ ⟨hname, hcallConv, hattributes, hgenericParams, hret, hparams, hsentinel, hbody⟩
    refine .of_given hname (fun _ _ => reads_string) ?_
    refine .of_defaulted (hcallConv.map fun c => c.bits.toNat) (fun _ _ => reads_unsigned) ?_
    refine .of_defaulted (hattributes.map fun c => c.bits.toNat) (fun _ _ => reads_unsigned) ?_
    refine .of_defaulted hgenericParams (fun _ _ => reads_unsigned) ?_
    refine .of_given hret (fun _ _ => reads_sig) ?_
    refine .of_listed hparams (fun _ _ => reads_sig) ?_
    refine .of_optional hsentinel (fun _ => not_list_null _)
      (fun _ _ hw => reads_list hw fun _ _ _ _ => reads_sig) ?_
    exact .of_optional hbody (fun _ => not_object_null _) (fun _ _ => BodyDecl.reads) trivial
  · obtain ⟨name, ⟨callConv⟩, ⟨attributes⟩, genericParams, ret, params, sentinel, body⟩ := d
    show pure (⟨name, ⟨UInt8.ofNat callConv.toNat⟩, ⟨UInt16.ofNat attributes.toNat⟩, genericParams,
      ret, params, sentinel, body⟩ : MethodDecl) = _
    rw [UInt8.ofNat_toNat, UInt16.ofNat_toNat]

theorem TypeDecl.reads {d : TypeDecl} (h : d.Spells v) : Reads type d v := by
  refine Reads.bind (a := (d.nameSpace, d.name, d.corlib, d.valueType, d.genericParams, d.fields,
    d.methods, ())) (reads_record h (by decide) ?_) rfl
  rintro xs _ ⟨hnameSpace, hname, hcorlib, hvalueType, hgenericParams, hfields, hmethods⟩
  refine .of_defaulted hnameSpace (fun _ _ => reads_string) ?_
  refine .of_given hname (fun _ _ => reads_string) ?_
  refine .of_defaulted hcorlib (fun _ _ => reads_bool) ?_
  refine .of_defaulted hvalueType (fun _ _ => reads_bool) ?_
  refine .of_defaulted hgenericParams (fun _ _ => reads_unsigned) ?_
  refine .of_listed hfields (fun _ _ => FieldDecl.reads) ?_
  exact .of_listed hmethods (fun _ _ => MethodDecl.reads) trivial

theorem RequestDecl.reads {d : RequestDecl} (h : d.Spells v) : Reads request d v := by
  refine Reads.bind (a := (d.type, d.typeArgs, d.method, d.methodArgs, d.field, ()))
    (reads_record h (by decide) ?_) rfl
  rintro xs _ ⟨htype, htypeArgs, hmethod, hmethodArgs, hfield⟩
  refine .of_given htype (fun _ _ => reads_string) ?_
  refine .of_listed htypeArgs (fun _ _ => reads_sig) ?_
  refine .of_optional hmethod not_string_null (fun _ _ => reads_string) ?_
  refine .of_listed hmethodArgs (fun _ _ => reads_sig) ?_
  exact .of_optional hfield not_string_null (fun _ _ => reads_string) trivial

end Definitions

namespace Snapshot

variable {s : Snapshot} {v : Value} {text : String}

open Reader Format

theorem reads (h : s.Spells v) : Reads snapshot s v := by
  refine Reads.bind (a := (s.types, s.requests, ())) (reads_record h (by decide) ?_) rfl
  rintro xs _ ⟨htypes, hrequests⟩
  refine .of_listed htypes (fun _ _ => TypeDecl.reads) ?_
  exact .of_listed hrequests (fun _ _ => RequestDecl.reads) trivial

/-- A text that writes a spelling of a snapshot is read as that snapshot. -/
theorem parse_of_spells (hs : s.Spells v) (ht : v.Writes text) (hd : v.depth ≤ 127) :
    parse text = .ok s := by
  rw [parse, (reads hs).run ht hd]

/-- One name has an escape, the name comes last, and one member is not of the format. -/
theorem parse_of_spells_box : ∃ (s : Snapshot) (v : Value) (text : String),
    s = ⟨[], [⟨"Box", [.methodParam 0], none, [], none⟩]⟩ ∧
    text = " \x7b \"note\" : [ 1e5 ] , \"instantiations\" : [ \x7b \"type_args\" : [ \x7b " ++
      "\"mvar\" : 0 \x7d ] , \"t\\u0079pe\" : \"Box\" \x7d ] \x7d" ∧
    s.Spells v ∧ v.Writes text ∧ v.depth ≤ 127 ∧ parse text = .ok s := by
  let note : Value := .array [.number ⟨false, 1, none, some ⟨false, none, ⟨[5], by decide⟩⟩⟩]
  let arg : Value := .object [("mvar".toList.pmap .plain (by simp), .number (.ofInt 0))]
  let type : Literal := .plain 't' (by decide) ::
    .unit ⟨⟨0, false⟩, ⟨0, false⟩, ⟨7, false⟩, ⟨9, false⟩⟩ :: "pe".toList.pmap .plain (by simp)
  let request : Value :=
    .object [("type_args".toList.pmap .plain (by simp), .array [arg]),
      (type, .string ("Box".toList.pmap .plain (by simp)))]
  let v : Value :=
    .object [("note".toList.pmap .plain (by simp), note),
      ("instantiations".toList.pmap .plain (by simp), .array [request])]
  have htype : type.Denotes "type".toList :=
    .plain _ (.unit rfl (Literal.denotes_pmap_plain (by simp)))
  have harg : (NamedSig.methodParam 0).Spells arg :=
    ⟨_, _, Literal.denotes_pmap_plain _, ⟨by decide, rfl⟩, rfl⟩
  have hrequest : RequestDecl.Spells ⟨"Box", [.methodParam 0], none, [], none⟩ request := by
    refine ⟨_, [("type_args", _), ("type", _)],
      .cons ⟨Literal.denotes_pmap_plain _, rfl⟩ (.cons ⟨htype, rfl⟩ .nil), ?_, rfl⟩
    refine ⟨⟨_, rfl, _, Literal.denotes_pmap_plain _, rfl⟩, ?_, .inr ⟨rfl, rfl⟩, .inr ⟨rfl, rfl⟩,
      .inr ⟨rfl, rfl⟩⟩
    exact .inl ⟨_, rfl, _, .cons harg .nil, rfl⟩
  have hs : Spells ⟨[], [⟨"Box", [.methodParam 0], none, [], none⟩]⟩ v := by
    refine ⟨_, [("note", note), ("instantiations", _)],
      .cons ⟨Literal.denotes_pmap_plain _, rfl⟩ (.cons ⟨Literal.denotes_pmap_plain _, rfl⟩ .nil),
      ?_, rfl⟩
    exact ⟨.inr ⟨rfl, rfl⟩, .inl ⟨_, rfl, _, .cons hrequest .nil, rfl⟩⟩
  have hb : Blanks [' '] := by simp [Blanks]
  refine ⟨_, v, _, rfl, rfl, hs, ?_⟩
  suffices ht : v.Writes _ from ⟨ht, by decide, parse_of_spells hs ht (by decide)⟩
  exact Value.writes_of_blanks hb rfl

end Snapshot
end Monomorph
