import Monomorph.Proofs.Basic
import Monomorph.Registry

/-!
# Monomorph.Proofs.Registry

Entering records under keys.

`Entered` is the one way in which a registry grows: a key that is there already answers its
number, and any other goes to the end with its record.

* `Entered.getElem?_keys`: the answer is the number of the key.
* `Entered.entries_mono`: no entry is moved or lost.
* `Entered.nodup`: no key comes twice.
* `Entered.mapM_values`: what is computed from the records follows what was offered.
-/

namespace Monomorph
namespace Registry

variable {κ α : Type}

theorem getElem?_keys (r : Registry κ α) (id : Nat) : r.keys[id]? = r.entries[id]?.map Prod.fst := by
  rw [keys, List.getElem?_map]

theorem get?_eq (r : Registry κ α) (id : Nat) : r.get? id = r.entries[id]?.map Prod.snd := by
  rw [get?, values, List.getElem?_map]

theorem get?_of_entry {r : Registry κ α} {id : Nat} {e : κ × α} (h : r.entries[id]? = some e) :
    r.get? id = some e.2 := by
  rw [get?_eq, h]
  rfl

theorem key_of_entry {r : Registry κ α} {id : Nat} {e : κ × α} (h : r.entries[id]? = some e) :
    r.keys[id]? = some e.1 := by
  rw [getElem?_keys, h]
  rfl

theorem exists_entry_of_key {r : Registry κ α} {id : Nat} {key : κ} (h : r.keys[id]? = some key) :
    ∃ v, r.entries[id]? = some (key, v) := by
  rw [getElem?_keys, Option.map_eq_some_iff] at h
  obtain ⟨⟨k, v⟩, he, rfl⟩ := h
  exact ⟨v, he⟩

theorem exists_entry_of_get? {r : Registry κ α} {id : Nat} {v : α} (h : r.get? id = some v) :
    ∃ key, r.entries[id]? = some (key, v) := by
  rw [get?_eq, Option.map_eq_some_iff] at h
  obtain ⟨⟨k, w⟩, he, rfl⟩ := h
  exact ⟨k, he⟩

theorem getElem?_keys_mono {r r' : Registry κ α} (h : r.entries <+: r'.entries) {id : Nat}
    {key : κ} (hk : r.keys[id]? = some key) : r'.keys[id]? = some key := by
  obtain ⟨v, hv⟩ := exists_entry_of_key hk
  exact key_of_entry (getElem?_mono h hv)

theorem exists_get?_of_lt {r : Registry κ α} {id : Nat} (h : id < r.size) :
    ∃ v, r.get? id = some v := by
  rw [← length_values] at h
  exact ⟨_, List.getElem?_eq_getElem h⟩

section Find

variable [BEq κ]

/-- Entering a record under a key leads to this registry, with this number for the key. -/
inductive Entered (r : Registry κ α) (key : κ) (value : α) : Registry κ α → Nat → Prop where
  | found {id : Nat} : r.find? key = some id → Entered r key value r id
  | added : r.find? key = none → Entered r key value (r.push key value) r.size

namespace Entered

variable {r r' : Registry κ α} {key : κ} {value : α} {id : Nat}

theorem entries_mono (h : Entered r key value r' id) : r.entries <+: r'.entries := by
  cases h with
  | found _ => exact List.prefix_rfl
  | added _ => exact List.prefix_append _ _

/-- Every entry was there before or is the new one. -/
theorem entry (h : Entered r key value r' id) {j : Nat} {e : κ × α}
    (he : r'.entries[j]? = some e) :
    r.entries[j]? = some e ∨ r.find? key = none ∧ e = (key, value) ∧ j = id := by
  cases h with
  | found _ => exact .inl he
  | added hf =>
    rcases getElem?_concat he with he | ⟨rfl, rfl⟩
    · exact .inl he
    · exact .inr ⟨hf, rfl, rfl⟩

theorem mem_values (h : Entered r key value r' id) {v : α} (hv : v ∈ r'.values) :
    v ∈ r.values ∨ v = value := by
  cases h with
  | found _ => exact .inl hv
  | added _ => simpa using hv

end Entered

variable [LawfulBEq κ]

theorem getElem?_keys_of_find? {r : Registry κ α} {key : κ} {id : Nat}
    (h : r.find? key = some id) : r.keys[id]? = some key := by
  rw [find?, List.findIdx?_eq_some_iff_getElem] at h
  obtain ⟨hlt, hk, _⟩ := h
  rw [List.getElem?_eq_getElem hlt, eq_of_beq hk]

theorem find?_eq_none_iff {r : Registry κ α} {key : κ} : r.find? key = none ↔ key ∉ r.keys := by
  rw [find?, List.findIdx?_eq_none_iff]
  constructor
  · intro h hm
    have hk := h key hm
    rw [beq_self_eq_true] at hk
    cases hk
  · intro h k hk
    exact beq_false_of_ne fun e => h (e ▸ hk)

theorem find?_of_getElem?_keys {r : Registry κ α} (hn : r.keys.Nodup) {key : κ} {id : Nat}
    (h : r.keys[id]? = some key) : r.find? key = some id := by
  cases hf : r.find? key with
  | none => exact absurd (List.mem_of_getElem? h) (find?_eq_none_iff.1 hf)
  | some id' => rw [(position_inj hn h (getElem?_keys_of_find? hf)).2 rfl]

theorem lookup_of_entry {r : Registry κ α} (hn : r.keys.Nodup) {id : Nat} {key : κ} {v : α}
    (h : r.entries[id]? = some (key, v)) : r.entries.lookup key = some v := by
  cases hl : r.entries.lookup key with
  | none =>
    have hk := List.lookup_eq_none_iff.1 hl _ (List.mem_of_getElem? h)
    simp at hk
  | some w =>
    obtain ⟨before, rest, he, _⟩ := List.lookup_eq_some_iff.1 hl
    have hw : r.entries[before.length]? = some (key, w) := by simp [he]
    obtain rfl := (position_inj hn (key_of_entry h) (key_of_entry hw)).2 rfl
    rw [h] at hw
    cases hw
    rfl

namespace Entered

variable {r r' : Registry κ α} {key : κ} {value : α} {id : Nat}

theorem getElem?_keys (h : Entered r key value r' id) : r'.keys[id]? = some key := by
  cases h with
  | found hf => exact getElem?_keys_of_find? hf
  | added _ =>
    rw [keys_push, ← length_keys]
    exact getElem?_concat_length _ _

/-- The answer is an old number, or the number after all of those. -/
theorem size (h : Entered r key value r' id) :
    r'.size = r.size ∧ id < r.size ∨ r'.size = r.size + 1 ∧ id = r.size := by
  cases h with
  | found hf =>
    have hk := (List.getElem?_eq_some_iff.1 (getElem?_keys_of_find? hf)).1
    rw [length_keys] at hk
    exact .inl ⟨rfl, hk⟩
  | added _ => exact .inr ⟨size_push _ _ _, rfl⟩

theorem nodup (h : Entered r key value r' id) (hn : r.keys.Nodup) : r'.keys.Nodup := by
  cases h with
  | found _ => exact hn
  | added hf =>
    rw [keys_push]
    exact nodup_concat hn (find?_eq_none_iff.1 hf)

/-- Under its key a record is found where there was none. -/
theorem lookup (h : Entered r key value r' id) (k : κ) :
    r'.entries.lookup k = (r.entries.lookup k).or (if k == key then some value else none) := by
  cases h with
  | found hf =>
    cases hl : r.entries.lookup k with
    | some v => rfl
    | none =>
      obtain ⟨v, hv⟩ := exists_entry_of_key (getElem?_keys_of_find? hf)
      have hk := List.lookup_eq_none_iff.1 hl _ (List.mem_of_getElem? hv)
      rw [if_neg (by simpa using hk)]
      rfl
  | added _ =>
    rw [push, List.lookup_append, List.lookup_cons, List.lookup_nil]
    cases k == key <;> rfl

/-- If records are the same exactly when their keys are, what is computed from the records follows
what was offered, each the first time. -/
theorem mapM_values (h : Entered r key value r' id) {ε β : Type} {same : β → β → Bool}
    {f : α → Except ε β} {ys : List β} {y : β} (hys : r.values.mapM f = .ok (ys.eraseDupsBy same))
    (hy : f value = .ok y)
    (hsame : ∀ {j : Nat} {k : κ} {v : α} {z : β}, r.entries[j]? = some (k, v) → f v = .ok z →
      (same y z = true ↔ k = key)) :
    r'.values.mapM f = .ok ((ys ++ [y]).eraseDupsBy same) := by
  rw [eraseDupsBy_concat]
  cases h with
  | found hf =>
    obtain ⟨v, hv⟩ := exists_entry_of_key (getElem?_keys_of_find? hf)
    obtain ⟨z, hz, hvz⟩ := exists_mem_of_mapM_ok hys (List.mem_of_getElem? (get?_of_entry hv))
    rw [if_pos (List.any_eq_true.2 ⟨z, hz, (hsame hv hvz).2 rfl⟩)]
    exact hys
  | added hf =>
    have hnew : ¬(ys.eraseDupsBy same).any (same y) = true := by
      rw [List.any_eq_true]
      rintro ⟨z, hz, hyz⟩
      obtain ⟨v, hv, hvz⟩ := exists_of_mem_mapM_ok hys hz
      obtain ⟨j, hj⟩ := List.mem_iff_getElem?.1 hv
      obtain ⟨k, hk⟩ := exists_entry_of_get? hj
      rw [(hsame hk hvz).1 hyz] at hk
      exact find?_eq_none_iff.1 hf (List.mem_of_getElem? (key_of_entry hk))
    rw [if_neg hnew, values_push, List.mapM_append, hys]
    simp [hy, bind, Except.bind, pure, Except.pure]

end Entered

end Find

/-! ## Changing a record in place -/

theorem getElem?_entries_modify (r : Registry κ α) (id : Nat) (f : α → α) (j : Nat) :
    (r.modify id f).entries[j]? =
      r.entries[j]?.map fun e => if id = j then (e.1, f e.2) else e := by
  rw [modify, List.getElem?_modify]
  cases r.entries[j]? <;> rfl

@[simp] theorem size_modify (r : Registry κ α) (id : Nat) (f : α → α) :
    (r.modify id f).size = r.size := by
  simp [size, modify]

end Registry
end Monomorph
