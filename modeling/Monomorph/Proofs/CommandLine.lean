import Monomorph.CommandLine
import Monomorph.Proofs.Report
import Monomorph.Proofs.Session.Loading

/-!
# Monomorph.Proofs.CommandLine

The commands agree on every file. They succeed iff the file reads, parses and builds and all its
requests are resolved, and otherwise they fail alike: the report, which `check` does not make,
cannot fail any more once the requests are resolved.
-/

namespace Monomorph

namespace Snapshot

theorem load_ok_iff {bytes : Option ByteArray} {l : Loaded} : load bytes = .ok l ↔
    ∃ text s, textOf? bytes = some text ∧ parse text = .ok s ∧ s.build = .ok l := by
  rw [load]
  cases textOf? bytes with
  | none => simp
  | some text =>
    constructor
    · intro h
      obtain ⟨s, hs, hl⟩ := exists_of_bind_ok h
      exact ⟨text, s, rfl, hs, hl⟩
    · rintro ⟨_, s, ht, hs, hl⟩
      cases ht
      simp [hs, hl, bind, Except.bind]

/-- Once all requests are resolved, every key of the report can be written. -/
theorem exists_report {s : Snapshot} {l : Loaded} {p : Progress} (hl : s.build = .ok l)
    (hp : l.resolveAll = .ok p) : ∃ r c, p.report l.metadata = .ok (r, c) :=
  (coherent_resolveAll hl hp).exists_report

/-- The file reads, parses and builds, and its requests are resolved in order in one catalog that
is empty at first. -/
def Resolvable (bytes : Option ByteArray) : Prop :=
  ∃ text s l c, textOf? bytes = some text ∧ parse text = .ok s ∧ s.build = .ok l ∧
    ResolvedAll l.metadata ∅ l.requests c

end Snapshot

namespace Command

variable {path : String} {bytes : Option ByteArray} {f : Failure}

theorem resolve_ok_iff {l : Loaded} {p : Progress} : resolve path bytes = .ok (l, p) ↔
    Snapshot.load bytes = .ok l ∧ l.resolveAll = .ok p := by
  rw [resolve]
  cases Snapshot.load bytes with
  | error e => simp
  | ok k =>
    constructor
    · intro h
      obtain ⟨q, hq, he⟩ := exists_of_map_ok h
      cases he
      exact ⟨rfl, hq⟩
    · rintro ⟨hk, hp⟩
      cases hk
      simp [hp, Except.map]

theorem exists_resolve_iff :
    (∃ r, resolve path bytes = .ok r) ↔ Snapshot.Resolvable bytes := by
  constructor
  · rintro ⟨⟨l, p⟩, h⟩
    obtain ⟨hl, hp⟩ := resolve_ok_iff.1 h
    obtain ⟨text, s, ht, hs, hl⟩ := Snapshot.load_ok_iff.1 hl
    exact ⟨text, s, l, p.catalog, ht, hs, hl, Loaded.resolveAll_ok_iff.1 ⟨p, hp, rfl⟩⟩
  · rintro ⟨text, s, l, c, ht, hs, hl, hc⟩
    obtain ⟨p, hp, _⟩ := Loaded.resolveAll_ok_iff.2 hc
    exact ⟨(l, p), resolve_ok_iff.2 ⟨Snapshot.load_ok_iff.2 ⟨text, s, ht, hs, hl⟩, hp⟩⟩

theorem report_of_error (h : resolve path bytes = .error f) : report path bytes = .error f := by
  rw [report, h]

theorem exists_report_of_ok {l : Loaded} {p : Progress} (h : resolve path bytes = .ok (l, p)) :
    ∃ r, report path bytes = .ok r := by
  obtain ⟨hl, hp⟩ := resolve_ok_iff.1 h
  obtain ⟨text, s, _, _, hl⟩ := Snapshot.load_ok_iff.1 hl
  obtain ⟨r, c, hr⟩ := Snapshot.exists_report hl hp
  exact ⟨r, by simp [report, h, hr]⟩

/-- A failure before the report is the failure of every command. -/
theorem run_of_error (h : resolve path bytes = .error f) (action : Action) :
    run ⟨action, path⟩ bytes = .failure f := by
  cases action <;> simp [run, output, h, report_of_error h, Except.map]

theorem exists_run_of_ok {l : Loaded} {p : Progress} (h : resolve path bytes = .ok (l, p))
    (action : Action) : ∃ text, run ⟨action, path⟩ bytes = .success text := by
  obtain ⟨r, hr⟩ := exists_report_of_ok h
  cases action with
  | keys => exact ⟨r.toText, by simp [run, output, hr, Except.map]⟩
  | keysAsJson => exact ⟨r.toJson, by simp [run, output, hr, Except.map]⟩
  | check => exact ⟨"success: No errors found\n", by simp [run, output, h, Except.map]⟩

/-- Every command succeeds on a file, or all fail alike. They succeed iff all requests of the file
are resolved, and then no key of the report is missing. -/
theorem commands_agree (path : String) (bytes : Option ByteArray) :
    ((∃ f, ∀ action, run ⟨action, path⟩ bytes = .failure f) ∨
      ∀ action, ∃ text, run ⟨action, path⟩ bytes = .success text) ∧
    (∀ action, (run ⟨action, path⟩ bytes).exitCode = 0 ↔ Snapshot.Resolvable bytes) ∧
    ∀ (s : Snapshot) (l : Loaded) (p : Progress), s.build = .ok l → l.resolveAll = .ok p →
      ∃ r c, p.report l.metadata = .ok (r, c) := by
  have hreport (s : Snapshot) (l : Loaded) (p : Progress) (hl : s.build = .ok l)
      (hp : l.resolveAll = .ok p) := Snapshot.exists_report hl hp
  cases h : resolve path bytes with
  | error f =>
    have hn : ¬Snapshot.Resolvable bytes := by
      rw [← exists_resolve_iff, h]
      simp
    refine ⟨.inl ⟨f, run_of_error h⟩, ?_, hreport⟩
    intro action
    simp [run_of_error h, Outcome.failure, hn]
  | ok r =>
    have hr : Snapshot.Resolvable bytes := exists_resolve_iff.1 ⟨r, h⟩
    refine ⟨.inr (exists_run_of_ok h), ?_, hreport⟩
    intro action
    obtain ⟨text, ht⟩ := exists_run_of_ok h action
    simp [ht, Outcome.success, hr]

/-- A generic type with a generic method and a field that mention its parameter; both are asked
for. -/
def boxSnapshot : Snapshot where
  types := [⟨"Demo", "Box", false, false, 1, [⟨"value", .typeParam 0 none, false⟩],
    [⟨"Map", ⟨0x30⟩, ⟨6⟩, 1, .methodParam 0, [.typeParam 0 none], none, none⟩]⟩]
  requests := [⟨"Demo.Box", [.primitive .int32], some "Map", [.primitive .string], none⟩,
    ⟨"Demo.Box", [.primitive .int32], none, [], some "value"⟩]

theorem commands_agree_box : ∃ l p r c, boxSnapshot.build = .ok l ∧ l.resolveAll = .ok p ∧
    p.report l.metadata = .ok (r, c) := by
  obtain ⟨r, c, h⟩ := (commands_agree "box.json" none).2.2 boxSnapshot _ _ rfl rfl
  exact ⟨_, _, r, c, rfl, rfl, h⟩

end Command
end Monomorph
