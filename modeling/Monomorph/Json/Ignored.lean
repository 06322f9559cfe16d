import Monomorph.Json.Scan

/-!
# Monomorph.Json.Ignored

Passing over a value that nobody asks for. It has to be valid JSON, but its numbers may be of
any size, its strings may hold single surrogates, and its brackets may be nested to any depth:
the brackets that are open are kept in a list, and a turn of `skipStep` passes one token.
-/

namespace Monomorph
namespace Json

/-! ## Scalars -/

/-- The rest behind the escape after a backslash; any four hexadecimal digits will do. -/
def skipEscape (cs : List Char) : Except Fault (List Char) :=
  match cs with
  | [] => .error (.before [])
  | 'u' :: rest => (scanUnit rest).map Prod.snd
  | c :: rest =>
    match shortEscape? c with
    | some _ => .ok rest
    | none => .error (.before rest)

theorem skipEscape_length {cs rest : List Char} (h : skipEscape cs = .ok rest) :
    rest.length < cs.length := by
  simp only [skipEscape] at h
  split at h
  · cases h
  · rename_i rest'
    cases hu : scanUnit rest' with
    | error f => simp [hu, Except.map] at h
    | ok found =>
      simp only [hu, Except.map, Except.ok.injEq] at h
      obtain ⟨unit, afterUnit⟩ := found
      have := scanUnit_length hu
      subst h
      simp only [List.length_cons]
      omega
  · split at h
    · cases h
      simp
    · cases h

/-- The rest behind a string after its opening quote. Reading stops in front of a control
character. -/
def skipString (cs : List Char) : Except Fault (List Char) :=
  match cs with
  | [] => .error (.before [])
  | c :: rest =>
    if c = '"' then .ok rest
    else if c = '\\' then
      match _h : skipEscape rest with
      | .ok rest => skipString rest
      | .error f => .error f
    else if isControl c then .error (.before (c :: rest))
    else skipString rest
termination_by cs.length
decreasing_by
  · have := skipEscape_length _h
    simp only [List.length_cons]
    omega
  · simp

def skipScalar (cs : List Char) : Except Fault (List Char) :=
  match cs with
  | [] => .error (.before [])
  | c :: rest =>
    if c = 'n' then word ['u', 'l', 'l'] rest
    else if c = 't' then word ['r', 'u', 'e'] rest
    else if c = 'f' then word ['a', 'l', 's', 'e'] rest
    else if c = '"' then skipString rest
    else if c = '-' || c.isDigit then (scanNumber (c :: rest)).map Prod.snd
    else .error (.at cs)

/-! ## Nested values -/

inductive Bracket where
  | square
  | brace
  deriving DecidableEq

def Bracket.closing : Bracket → Char
  | .square => ']'
  | .brace => '}'

inductive Phase where
  | value
  /-- The first item in a bracket, or the end of the bracket. -/
  | opened (bracket : Bracket)
  /-- What goes on after a value. -/
  | after
  deriving DecidableEq

structure Passage where
  phase : Phase
  /-- The brackets that are open and have an item, innermost first. -/
  brackets : List Bracket
  rest : List Char

def skipName (cs : List Char) : Except Fault (List Char) :=
  match skipBlanks cs with
  | '"' :: rest =>
    match skipString rest with
    | .error f => .error f
    | .ok rest =>
      match skipBlanks rest with
      | ':' :: rest => .ok rest
      | rest => .error (.at rest)
  | rest => .error (.at rest)

def beginItem (bracket : Bracket) (brackets : List Bracket) (cs : List Char) :
    Except Fault Passage :=
  match bracket with
  | .square => .ok ⟨.value, .square :: brackets, cs⟩
  | .brace => (skipName cs).map fun rest => ⟨.value, .brace :: brackets, rest⟩

def stepValue (brackets : List Bracket) (cs : List Char) : Except Fault Passage :=
  match skipBlanks cs with
  | '[' :: rest => .ok ⟨.opened .square, brackets, rest⟩
  | '{' :: rest => .ok ⟨.opened .brace, brackets, rest⟩
  | rest => (skipScalar rest).map fun rest => ⟨.after, brackets, rest⟩

def stepOpened (bracket : Bracket) (brackets : List Bracket) (cs : List Char) :
    Except Fault Passage :=
  match skipBlanks cs with
  | [] => .error (.before [])
  | c :: rest =>
    if c = bracket.closing then .ok ⟨.after, brackets, rest⟩
    else beginItem bracket brackets (c :: rest)

def stepAfter (bracket : Bracket) (brackets : List Bracket) (cs : List Char) :
    Except Fault Passage :=
  match skipBlanks cs with
  | [] => .error (.before [])
  | c :: rest =>
    if c = ',' then beginItem bracket brackets rest
    else if c = bracket.closing then .ok ⟨.after, brackets, rest⟩
    else .error (.before rest)

/-- One turn; nothing, if the value has ended. -/
def Passage.step (p : Passage) : Option (Except Fault Passage) :=
  match p.phase, p.brackets with
  | .value, brackets => some (stepValue brackets p.rest)
  | .opened bracket, brackets => some (stepOpened bracket brackets p.rest)
  | .after, bracket :: brackets => some (stepAfter bracket brackets p.rest)
  | .after, [] => none

/-! ### Each turn comes closer to the end -/

theorem skipBlanks_length (cs : List Char) : (skipBlanks cs).length ≤ cs.length := by
  simp [skipBlanks, (List.dropWhile_sublist isBlank).length_le]

theorem skipString_length {cs rest : List Char} (h : skipString cs = .ok rest) :
    rest.length < cs.length := by
  induction hn : cs.length using Nat.strongRecOn generalizing cs with
  | _ n ih =>
    unfold skipString at h
    split at h
    · cases h
    · rename_i c cs
      simp only [List.length_cons] at hn
      split at h
      · cases h
        omega
      · split at h
        · split at h
          · rename_i after he
            have hl := skipEscape_length he
            have := ih after.length (by omega) h rfl
            omega
          · cases h
        · split at h
          · cases h
          · have := ih cs.length (by omega) h rfl
            omega

theorem scanDigits_length {cs rest : List Char} {ds : List Nat}
    (h : scanDigits cs = .ok (ds, rest)) : rest.length < cs.length := by
  simp only [scanDigits, takeDigits] at h
  split at h
  · cases h
  · rename_i hne
    simp only [Except.ok.injEq, Prod.mk.injEq] at h
    obtain ⟨hds, rfl⟩ := h
    cases cs with
    | nil => simp at hne
    | cons c cs =>
      by_cases hc : c.isDigit
      · simp only [List.dropWhile_cons, hc, ↓reduceIte, List.length_cons]
        have := (List.dropWhile_sublist Char.isDigit (l := cs)).length_le
        omega
      · simp [hc] at hne

theorem scanWhole_length {cs rest : List Char} {ds : List Nat}
    (h : scanWhole cs = .ok (ds, rest)) : rest.length < cs.length := by
  simp only [scanWhole] at h
  split at h
  · split at h
    · cases h
    · cases h
      simp
  · exact scanDigits_length h

theorem scanFraction_length {cs rest : List Char} {x : Option (List Nat)}
    (h : scanFraction cs = .ok (x, rest)) : rest.length ≤ cs.length := by
  simp only [scanFraction] at h
  split at h
  · rename_i rest'
    cases hd : scanDigits rest' with
    | error f => simp [hd, Except.map] at h
    | ok found =>
      simp only [hd, Except.map, Except.ok.injEq, Prod.mk.injEq] at h
      have := scanDigits_length hd
      obtain ⟨_, rfl⟩ := h
      simp only [List.length_cons]
      omega
  · cases h
    exact Nat.le_refl _

theorem scanExponentDigits_length {negative : Bool} {cs rest : List Char} {x : Option Int}
    (h : scanExponentDigits negative cs = .ok (x, rest)) : rest.length < cs.length := by
  simp only [scanExponentDigits] at h
  cases hd : scanDigits cs with
  | error f => simp [hd, Except.map] at h
  | ok found =>
    simp only [hd, Except.map, Except.ok.injEq, Prod.mk.injEq] at h
    have := scanDigits_length hd
    obtain ⟨_, rfl⟩ := h
    exact this

theorem scanSignedExponent_length {cs rest : List Char} {x : Option Int}
    (h : scanSignedExponent cs = .ok (x, rest)) : rest.length < cs.length := by
  simp only [scanSignedExponent] at h
  split at h
  · have := scanExponentDigits_length h
    simp only [List.length_cons]
    omega
  · have := scanExponentDigits_length h
    simp only [List.length_cons]
    omega
  · exact scanExponentDigits_length h

theorem scanExponent_length {cs rest : List Char} {x : Option Int}
    (h : scanExponent cs = .ok (x, rest)) : rest.length ≤ cs.length := by
  simp only [scanExponent] at h
  split at h
  · have := scanSignedExponent_length h
    simp only [List.length_cons]
    omega
  · have := scanSignedExponent_length h
    simp only [List.length_cons]
    omega
  · cases h
    exact Nat.le_refl _

theorem scanUnsigned_length {negative : Bool} {cs rest : List Char} {x : Number}
    (h : scanUnsigned negative cs = .ok (x, rest)) : rest.length < cs.length := by
  simp only [scanUnsigned] at h
  split at h
  · cases h
  · rename_i hw
    have := scanWhole_length hw
    split at h
    · cases h
    · rename_i hf
      have := scanFraction_length hf
      split at h
      · cases h
      · rename_i he
        have := scanExponent_length he
        cases h
        omega

theorem scanNumber_length {cs rest : List Char} {x : Number}
    (h : scanNumber cs = .ok (x, rest)) : rest.length < cs.length := by
  simp only [scanNumber] at h
  split at h
  · have := scanUnsigned_length h
    simp only [List.length_cons]
    omega
  · exact scanUnsigned_length h

theorem skipScalar_length {cs rest : List Char} (h : skipScalar cs = .ok rest) :
    rest.length < cs.length := by
  simp only [skipScalar] at h
  split at h
  · cases h
  · rename_i c cs
    simp only [List.length_cons]
    split at h
    · have := word_length h
      omega
    · split at h
      · have := word_length h
        omega
      · split at h
        · have := word_length h
          omega
        · split at h
          · have := skipString_length h
            omega
          · split at h
            · cases hn : scanNumber (c :: cs) with
              | error f => simp [hn, Except.map] at h
              | ok found =>
                simp only [hn, Except.map, Except.ok.injEq] at h
                obtain ⟨x, afterNumber⟩ := found
                have := scanNumber_length hn
                subst h
                simpa using this
            · cases h

theorem skipName_length {cs rest : List Char} (h : skipName cs = .ok rest) :
    rest.length < cs.length := by
  simp only [skipName] at h
  have := skipBlanks_length cs
  split at h
  · rename_i afterQuote hq
    simp only [hq, List.length_cons] at this
    split at h
    · cases h
    · rename_i afterName hs
      have := skipString_length hs
      have := skipBlanks_length afterName
      split at h
      · rename_i hc
        cases h
        simp only [hc, List.length_cons] at this
        omega
      · cases h
  · cases h

/-- How far a passage is from its end: a value that is expected counts less than a bracket
whose first item or end is. -/
def Passage.distance (p : Passage) : Nat :=
  2 * p.rest.length + match p.phase with
    | .opened _ => 1
    | _ => 0

theorem beginItem_distance {bracket : Bracket} {brackets : List Bracket} {cs : List Char}
    {q : Passage} (h : beginItem bracket brackets cs = .ok q) :
    q.distance ≤ 2 * cs.length := by
  cases bracket with
  | square =>
    simp only [beginItem, Except.ok.injEq] at h
    subst h
    simp [Passage.distance]
  | brace =>
    simp only [beginItem] at h
    cases hn : skipName cs with
    | error f => simp [hn, Except.map] at h
    | ok rest =>
      simp only [hn, Except.map, Except.ok.injEq] at h
      have := skipName_length hn
      subst h
      simp only [Passage.distance]
      omega

theorem stepValue_distance {brackets : List Bracket} {cs : List Char} {q : Passage}
    (h : stepValue brackets cs = .ok q) : q.distance < 2 * cs.length := by
  simp only [stepValue] at h
  have := skipBlanks_length cs
  split at h
  · rename_i hb
    simp only [hb, List.length_cons] at this
    cases h
    simp only [Passage.distance]
    omega
  · rename_i hb
    simp only [hb, List.length_cons] at this
    cases h
    simp only [Passage.distance]
    omega
  · cases hs : skipScalar (skipBlanks cs) with
    | error f => simp [hs, Except.map] at h
    | ok rest =>
      simp only [hs, Except.map, Except.ok.injEq] at h
      have := skipScalar_length hs
      subst h
      simp only [Passage.distance]
      omega

theorem stepOpened_distance {bracket : Bracket} {brackets : List Bracket} {cs : List Char}
    {q : Passage} (h : stepOpened bracket brackets cs = .ok q) :
    q.distance < 2 * cs.length + 1 := by
  simp only [stepOpened] at h
  have := skipBlanks_length cs
  split at h
  · cases h
  · rename_i hb
    simp only [hb, List.length_cons] at this
    split at h
    · cases h
      simp only [Passage.distance]
      omega
    · have := beginItem_distance h
      simp only [List.length_cons] at this
      omega

theorem stepAfter_distance {bracket : Bracket} {brackets : List Bracket} {cs : List Char}
    {q : Passage} (h : stepAfter bracket brackets cs = .ok q) :
    q.distance < 2 * cs.length := by
  simp only [stepAfter] at h
  have := skipBlanks_length cs
  split at h
  · cases h
  · rename_i hb
    simp only [hb, List.length_cons] at this
    split at h
    · have := beginItem_distance h
      omega
    · split at h
      · cases h
        simp only [Passage.distance]
        omega
      · cases h

theorem Passage.step_distance {p q : Passage} (h : p.step = some (.ok q)) :
    q.distance < p.distance := by
  obtain ⟨phase, brackets, cs⟩ := p
  cases phase with
  | value =>
    have := stepValue_distance (Option.some.inj h)
    simpa [Passage.distance] using this
  | opened bracket =>
    have := stepOpened_distance (Option.some.inj h)
    simpa [Passage.distance] using this
  | after =>
    cases brackets with
    | nil => simp [Passage.step] at h
    | cons bracket brackets =>
      have := stepAfter_distance (Option.some.inj h)
      simpa [Passage.distance] using this

/-! ## The whole value -/

def Passage.finish (p : Passage) : Except Fault (List Char) :=
  match _h : p.step with
  | none => .ok p.rest
  | some (.error f) => .error f
  | some (.ok q) => q.finish
termination_by p.distance
decreasing_by exact Passage.step_distance _h

def skipValue (cs : List Char) : Except Fault (List Char) :=
  Passage.finish ⟨.value, [], cs⟩

end Json
end Monomorph
