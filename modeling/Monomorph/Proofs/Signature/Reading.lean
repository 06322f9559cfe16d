import Mathlib.Logic.Relation
import Monomorph.Proofs.Signature.Parts

/-!
# Monomorph.Proofs.Signature.Reading

Texts of signatures are unambiguous.

A text is read from left to right by a machine with a stack: it takes a leaf, then the marks
behind it, and puts a generic type on the stack while it reads the arguments. `Step` is one move
of the machine, for the texts of one script.

* `step_rightUnique`: for a readable script, the machine has at most one move in each situation.
* `steps_text`: it reads what is legible off its text, whatever follows.
* `Shown.text_append_inj`: so a text can be told from what stands behind it, where nothing more can
  be read, and determines what it shows.
* `render_eq_iff_keyEquivalent`: two signatures with plain names have the same text iff they are
  key-equivalent, and two lists iff they are so position by position.
-/

namespace Monomorph

open Relation Identifier

/-- A text half read: the generic types whose arguments are being read with the arguments before
the present one, what has been read since, and the rest of the text. -/
structure Reading where
  pending : List (Shown × List Shown)
  current : Option Shown
  input : List Char

inductive Step (S : Script) : Reading → Reading → Prop where
  | leaf {pending : List (Shown × List Shown)} {l : Leaf} {input rest : List Char} :
      S.leaf l → Stops S.nameChar rest → input = l.text ++ rest →
      Step S ⟨pending, none, input⟩ ⟨pending, some (.leaf l), rest⟩
  | mark {pending : List (Shown × List Shown)} {a : Shown} {m : Mark} {input rest : List Char} :
      S.mark m → input = m.text ++ rest →
      Step S ⟨pending, some a, input⟩ ⟨pending, some (.marked a m), rest⟩
  | enter {pending : List (Shown × List Shown)} {g : Shown} {rest : List Char} :
      Step S ⟨pending, some g, '<' :: rest⟩ ⟨(g, []) :: pending, none, rest⟩
  | comma {pending : List (Shown × List Shown)} {g a : Shown} {done : List Shown}
      {rest : List Char} :
      Step S ⟨(g, done) :: pending, some a, ',' :: rest⟩ ⟨(g, done ++ [a]) :: pending, none, rest⟩
  | leave {pending : List (Shown × List Shown)} {g a : Shown} {done : List Shown}
      {rest : List Char} :
      Step S ⟨(g, done) :: pending, some a, '>' :: rest⟩
        ⟨pending, some (.inst g (done ++ [a])), rest⟩
  /-- An argument list may be empty. -/
  | noArgs {pending : List (Shown × List Shown)} {g : Shown} {rest : List Char} :
      Step S ⟨(g, []) :: pending, none, '>' :: rest⟩ ⟨pending, some (.inst g []), rest⟩

variable {S : Script}

theorem step_rightUnique (hS : S.Readable) : Relator.RightUnique (Step S) := by
  intro r s t hs ht
  cases hs with
  | leaf hl hr h =>
    cases ht with
    | leaf hk hr' h' =>
      obtain ⟨rfl, rfl⟩ := hS.leaf_append_inj hl hk hr hr' (h.symm.trans h')
      rfl
    | noArgs => exact absurd h.symm (hS.leaf_append_ne hl _ _)
  | mark hm h =>
    cases ht with
    | mark hn h' =>
      obtain ⟨rfl, rfl⟩ := Mark.text_append_inj (hS.legible_mark hm) (hS.legible_mark hn) (h.symm.trans h')
      rfl
    | enter => exact absurd h.symm (Mark.text_append_ne _ (by simp) _ _)
    | comma => exact absurd h.symm (Mark.text_append_ne _ (by simp) _ _)
    | leave => exact absurd h.symm (Mark.text_append_ne _ (by simp) _ _)
  | enter =>
    cases ht with
    | mark hn h => exact absurd h.symm (Mark.text_append_ne _ (by simp) _ _)
    | enter => rfl
  | comma =>
    cases ht with
    | mark hn h => exact absurd h.symm (Mark.text_append_ne _ (by simp) _ _)
    | comma => rfl
  | leave =>
    cases ht with
    | mark hn h => exact absurd h.symm (Mark.text_append_ne _ (by simp) _ _)
    | leave => rfl
  | noArgs =>
    cases ht with
    | leaf hl hr h => exact absurd h.symm (hS.leaf_append_ne hl _ _)
    | noArgs => rfl

/-! ## Reading what is legible -/

theorem listText_singleton (a : Shown) : Shown.listText [a] = a.text := by
  rw [Shown.listText, Shown.textEach, Shown.textEach, List.intercalate_singleton]

theorem listText_cons_cons (a b : Shown) (as : List Shown) :
    Shown.listText (a :: b :: as) = a.text ++ ',' :: Shown.listText (b :: as) := by
  rw [Shown.listText, Shown.textEach, Shown.textEach, List.intercalate_cons_cons, List.append_assoc]
  rfl

theorem text_inst_append (g : Shown) (as : List Shown) (rest : List Char) :
    (Shown.inst g as).text ++ rest = g.text ++ '<' :: (Shown.listText as ++ '>' :: rest) := by
  rw [Shown.text, Shown.listText, List.append_assoc, List.cons_append, List.append_assoc]
  rfl

mutual

theorem steps_text (hS : S.Readable) (a : Shown) (ha : a.Legible S)
    (pending : List (Shown × List Shown)) {rest : List Char} (hr : Stops S.nameChar rest) :
    ReflTransGen (Step S) ⟨pending, none, a.text ++ rest⟩ ⟨pending, some a, rest⟩ := by
  cases a with
  | leaf l => exact .single (.leaf ha hr rfl)
  | marked b m =>
    have hb := steps_text hS b ha.1 pending (hS.stops_mark ha.2 rest)
    rw [Shown.text, List.append_assoc]
    exact hb.tail (.mark ha.2 rfl)
  | inst g as =>
    rw [text_inst_append]
    have hg := steps_text hS g ha.1 pending
      (stops_cons (hS.delimiter (c := '<') (by simp)) (Shown.listText as ++ '>' :: rest))
    exact (hg.tail .enter).trans (steps_listText hS as ha.2 g [] (fun _ => rfl) pending rest)

/-- The arguments `done` of `g` have been read before; if there are any, more must follow. -/
theorem steps_listText (hS : S.Readable) (as : List Shown) (ha : Shown.EachLegible S as)
    (g : Shown) (done : List Shown) (hd : as = [] → done = []) (pending : List (Shown × List Shown))
    (rest : List Char) :
    ReflTransGen (Step S) ⟨(g, done) :: pending, none, Shown.listText as ++ '>' :: rest⟩
      ⟨pending, some (.inst g (done ++ as)), rest⟩ := by
  cases as with
  | nil =>
    obtain rfl := hd rfl
    exact .single .noArgs
  | cons a as =>
    cases as with
    | nil =>
      rw [listText_singleton]
      have hs := steps_text hS a ha.1 ((g, done) :: pending)
        (stops_cons (hS.delimiter (c := '>') (by simp)) rest)
      exact hs.tail .leave
    | cons b bs =>
      rw [listText_cons_cons, List.append_assoc, List.cons_append]
      have hs := steps_text hS a ha.1 ((g, done) :: pending)
        (stops_cons (hS.delimiter (c := ',') (by simp)) (Shown.listText (b :: bs) ++ '>' :: rest))
      have hl := steps_listText hS (b :: bs) ha.2 g (done ++ [a]) (fun h => nomatch h) pending rest
      rw [List.append_assoc] at hl
      exact (hs.tail .comma).trans hl

end

/-- Behind a whole text nothing more is read. -/
structure Halts (S : Script) (rest : List Char) : Prop where
  stops : Stops S.nameChar rest
  not_step : ∀ a r, ¬Step S ⟨[], some a, rest⟩ r

theorem halts_nil : Halts S [] := by
  refine ⟨stops_nil _, ?_⟩
  intro a r h
  cases h with
  | mark hm h => exact absurd h.symm (Mark.text_ne_nil _ _)

theorem halts_paren (rest : List Char) : Halts .plain ('(' :: rest) := by
  refine ⟨stops_cons (by decide) rest, ?_⟩
  intro a r h
  cases h with
  | mark hm h => exact absurd h.symm (Mark.text_append_ne _ (by simp) _ _)

theorem Halts.eq_of_steps {a b : Shown} {u v : List Char} (hu : Halts S u)
    (h : ReflTransGen (Step S) ⟨[], some a, u⟩ ⟨[], some b, v⟩) : a = b ∧ u = v := by
  rcases h.cases_head with h | ⟨r, hr, _⟩
  · cases h
    exact ⟨rfl, rfl⟩
  · exact absurd hr (hu.not_step a r)

/-- What is read from one situation up to a place where reading halts is the same. -/
theorem eq_of_steps (hS : S.Readable) {r : Reading} {a b : Shown} {u v : List Char}
    (hu : Halts S u) (hv : Halts S v) (ha : ReflTransGen (Step S) r ⟨[], some a, u⟩)
    (hb : ReflTransGen (Step S) r ⟨[], some b, v⟩) : a = b ∧ u = v := by
  rcases ReflTransGen.total_of_right_unique (step_rightUnique hS) ha hb with hab | hba
  · exact hu.eq_of_steps hab
  · obtain ⟨he, hr⟩ := hv.eq_of_steps hba
    exact ⟨he.symm, hr.symm⟩

namespace Shown

/-- A text can be told from what stands behind it. -/
theorem text_append_inj (hS : S.Readable) {a b : Shown} {u v : List Char} (ha : a.Legible S)
    (hb : b.Legible S) (hu : Halts S u) (hv : Halts S v) (h : a.text ++ u = b.text ++ v) :
    a = b ∧ u = v := by
  have ra := steps_text hS a ha [] hu.stops
  have rb := steps_text hS b hb [] hv.stops
  rw [h] at ra
  exact eq_of_steps hS hu hv ra rb

theorem text_injective (hS : S.Readable) {a b : Shown} (ha : a.Legible S) (hb : b.Legible S)
    (h : a.text = b.text) : a = b :=
  (text_append_inj hS ha hb halts_nil halts_nil (congrArg (· ++ []) h)).1

theorem listText_injective (hS : S.Readable) {as bs : List Shown} (ha : EachLegible S as)
    (hb : EachLegible S bs) (h : listText as = listText bs) : as = bs := by
  -- the lists are read as argument lists of one generic type
  let g : Shown := .leaf (.methodParam 0)
  have ra := steps_listText hS as ha g [] (fun _ => rfl) [] []
  have rb := steps_listText hS bs hb g [] (fun _ => rfl) [] []
  rw [h] at ra
  exact (inst.inj (eq_of_steps hS halts_nil halts_nil ra rb).1).2

end Shown

/-! ## Signatures -/

namespace Sig

theorem toList_of_renderList {owners : Bool} {ss : List Sig} {x : String}
    (h : renderList owners ss = .ok x) : x.toList = Shown.listText (shownEach owners ss) := by
  obtain ⟨xs, hxs, rfl⟩ := exists_of_map_ok h
  rw [String.toList_intercalate, toList_of_renderEach ss hxs]
  rfl

theorem legible_of_renderList {owners : Bool} {ss : List Sig} {x : String}
    (h : renderList owners ss = .ok x) (hp : allPlainNames ss = true) :
    Shown.EachLegible .plain (shownEach owners ss) := by
  obtain ⟨xs, hxs, _⟩ := exists_of_map_ok h
  exact legible_of_renderEach ss hxs hp

/-- Rendering loses what `Sig.shown` leaves out, and nothing else. -/
theorem render_eq_iff_keyEquivalent (owners : Bool) :
    (∀ (s t : Sig) (x y : String), s.plainNames = true → t.plainNames = true →
      s.render owners = .ok x → t.render owners = .ok y →
        (x = y ↔ KeyEquivalent owners s t)) ∧
    (∀ (ss ts : List Sig) (x y : String), allPlainNames ss = true → allPlainNames ts = true →
      renderList owners ss = .ok x → renderList owners ts = .ok y →
        (x = y ↔ List.Forall₂ (KeyEquivalent owners) ss ts)) := by
  constructor
  · intro s t x y hs ht hx hy
    rw [← String.toList_inj, toList_of_render s hx, toList_of_render t hy]
    constructor
    · exact Shown.text_injective Script.plain_readable (legible_of_render s hx hs)
        (legible_of_render t hy ht)
    · intro h
      rw [h]
  · intro ss ts x y hs ht hx hy
    rw [← String.toList_inj, toList_of_renderList hx, toList_of_renderList hy,
      forall₂_keyEquivalent_iff]
    constructor
    · exact Shown.listText_injective Script.plain_readable (legible_of_renderList hx hs)
        (legible_of_renderList hy ht)
    · intro h
      rw [h]

/-- Bounds and definitions are lost, owners are kept with the flag only, and commas count. -/
theorem render_eq_iff_keyEquivalent_boxes :
    KeyEquivalent true (.pinned (.array (.classType ⟨3, "Demo", "Box", false⟩) 1 [3] [0]))
        (.array (.valueType ⟨9, "Demo", "Box", false⟩) 1 [] []) ∧
      ¬KeyEquivalent true (.ptr (.typeParam 0 ⟨3, "Demo", "Box", false⟩))
        (.ptr (.typeParam 0 ⟨4, "Demo", "Cup", false⟩)) ∧
      List.Forall₂ (KeyEquivalent false)
        [.ptr (.typeParam 0 ⟨3, "Demo", "Box", false⟩), .primitive .int32]
        [.ptr (.typeParam 0 ⟨4, "Demo", "Cup", false⟩), .pinned (.primitive .int32)] ∧
      ¬List.Forall₂ (KeyEquivalent false) [.array (.primitive .int32) 2 [] []]
        [.primitive .int32, .primitive .int32] := by
  refine ⟨?_, ?_, ?_, ?_⟩
  · exact ((render_eq_iff_keyEquivalent true).1 _ _ "Demo.Box[*]" "Demo.Box[*]" rfl rfl rfl
      rfl).1 rfl
  · intro h
    have ht := ((render_eq_iff_keyEquivalent true).1 _ _ "!(Demo.Box)0*" "!(Demo.Cup)0*" rfl rfl
      rfl rfl).2 h
    exact absurd ht (by decide)
  · exact ((render_eq_iff_keyEquivalent false).2 _ _ "!0*,Int32" "!0*,Int32" rfl rfl rfl rfl).1 rfl
  · intro h
    have ht := ((render_eq_iff_keyEquivalent false).2 _ _ "Int32[,]" "Int32,Int32" rfl rfl rfl
      rfl).2 h
    exact absurd ht (by decide)

end Sig
end Monomorph
