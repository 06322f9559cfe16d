/-!
# Monomorph.Registry

A table of records under keys, numbered in the order in which they were entered. A record is
looked up by its key or by its number; nothing is ever removed or moved.
-/

namespace Monomorph

/-- Records with their keys, oldest first. -/
structure Registry (κ α : Type) where
  entries : List (κ × α)

namespace Registry

variable {κ α : Type}

def empty : Registry κ α :=
  ⟨[]⟩

instance : EmptyCollection (Registry κ α) := ⟨empty⟩

def size (r : Registry κ α) : Nat :=
  r.entries.length

def keys (r : Registry κ α) : List κ :=
  r.entries.map Prod.fst

def values (r : Registry κ α) : List α :=
  r.entries.map Prod.snd

def get? (r : Registry κ α) (index : Nat) : Option α :=
  r.values[index]?

/-- The number of the first record under a key. -/
def find? [BEq κ] (r : Registry κ α) (key : κ) : Option Nat :=
  r.keys.findIdx? (· == key)

/-- The registry with one more record; its number is the former size. -/
def push (r : Registry κ α) (key : κ) (value : α) : Registry κ α :=
  ⟨r.entries ++ [(key, value)]⟩

def modify (r : Registry κ α) (index : Nat) (f : α → α) : Registry κ α :=
  ⟨r.entries.modify index fun e => (e.1, f e.2)⟩

@[simp] theorem keys_push (r : Registry κ α) (key : κ) (value : α) :
    (r.push key value).keys = r.keys ++ [key] := by
  simp [keys, push]

@[simp] theorem values_push (r : Registry κ α) (key : κ) (value : α) :
    (r.push key value).values = r.values ++ [value] := by
  simp [values, push]

@[simp] theorem size_push (r : Registry κ α) (key : κ) (value : α) :
    (r.push key value).size = r.size + 1 := by
  simp [size, push]

@[simp] theorem length_keys (r : Registry κ α) : r.keys.length = r.size := by
  simp [keys, size]

@[simp] theorem length_values (r : Registry κ α) : r.values.length = r.size := by
  simp [values, size]

theorem get?_push_size (r : Registry κ α) (key : κ) (value : α) :
    (r.push key value).get? r.size = some value := by
  simp [get?]

theorem get?_push_of_lt (r : Registry κ α) (key : κ) (value : α) {index : Nat}
    (h : index < r.size) : (r.push key value).get? index = r.get? index := by
  simp [get?, List.getElem?_append_left, h]

@[simp] theorem keys_modify (r : Registry κ α) (index : Nat) (f : α → α) :
    (r.modify index f).keys = r.keys := by
  simp only [keys, modify]
  apply List.ext_getElem?
  intro i
  simp only [List.getElem?_map, List.getElem?_modify]
  cases r.entries[i]? <;> simp
  split <;> rfl

end Registry
end Monomorph
