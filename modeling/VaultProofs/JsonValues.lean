import Mathlib.Data.List.Dedup
import Mathlib.Data.List.Perm.Basic
import VaultProofs.GoStrings

/-!
Go values held in `interface{}`, and what `encoding/json` makes of them: `marshal` is
`json.Marshal`, `unmarshal` decodes with `UseNumber`, and `normalize` is the two in a row. JSON
texts are kept parsed: integer literals and timestamps by value, other numbers by their text. A map
is the list of the writes that built it, in key order.
-/

namespace VaultProofs.JsonValues

open GoStrings

-- Nanoseconds; times are counted from the zero value of `time.Time`.
abbrev Time := Int

abbrev Duration := Int

inductive NumberKind where
  | int
  | float
  | jsonNumber
  deriving DecidableEq

inductive NumberText where
  | int (value : Int)
  | decimal (text : String)
  deriving DecidableEq

/-- A value of type `interface{}`. `time` is a `time.Time` or its RFC 3339 text; `unsupported` is a
value that `json.Marshal` refuses, such as a channel or a NaN. -/
inductive GoValue where
  | null
  | bool (value : Bool)
  | number (kind : NumberKind) (text : NumberText)
  | str (value : GoString)
  | time (value : Time)
  | slice (items : List GoValue)
  | map (entries : List (GoString × GoValue))
  | unsupported

abbrev GoMap := List (GoString × GoValue)

inductive Json where
  | null
  | bool (value : Bool)
  | number (text : NumberText)
  | str (value : String)
  | time (value : Time)
  | array (items : List Json)
  | object (members : List (String × Json))

section Entries

variable {κ ν : Type} [DecidableEq κ]

def lastValue : List (κ × ν) → κ → Option ν
  | [], _ => none
  | (key', value) :: rest, key =>
    (lastValue rest key).or (if key' = key then some value else none)

@[simp] theorem lastValue_nil (key : κ) : lastValue ([] : List (κ × ν)) key = none := rfl

@[simp] theorem lastValue_cons (key' key : κ) (value : ν) (rest : List (κ × ν)) :
    lastValue ((key', value) :: rest) key =
      (lastValue rest key).or (if key' = key then some value else none) := rfl

@[simp] theorem lastValue_append (first second : List (κ × ν)) (key : κ) :
    lastValue (first ++ second) key = (lastValue second key).or (lastValue first key) := by
  induction first with
  | nil => simp
  | cons entry first ih =>
    obtain ⟨key', value⟩ := entry
    simp [ih, Option.or_assoc]

variable {entries : List (κ × ν)}

theorem mem_of_lastValue {key : κ} {value : ν} (h : lastValue entries key = some value) :
    (key, value) ∈ entries := by
  induction entries with
  | nil => simp at h
  | cons entry rest ih =>
    obtain ⟨key', value'⟩ := entry
    simp only [lastValue_cons] at h
    cases hrest : lastValue rest key with
    | some found =>
      rw [hrest, Option.some_or] at h
      exact .tail _ (ih (hrest.trans h))
    | none =>
      rw [hrest, Option.none_or] at h
      split at h
      · rename_i hkey
        simp_all
      · simp at h

theorem lastValue_isSome_of_mem {key : κ} {value : ν} (h : (key, value) ∈ entries) :
    (lastValue entries key).isSome := by
  induction entries with
  | nil => simp at h
  | cons entry rest ih =>
    obtain ⟨key', value'⟩ := entry
    simp only [lastValue_cons, Option.isSome_or]
    rcases List.mem_cons.mp h with heq | hrest
    · simp_all
    · simp [ih hrest]

-- `len(m)` of a map: a key that was written twice counts once.
def size (entries : List (κ × ν)) : Nat :=
  (entries.map Prod.fst).dedup.length

theorem length_le_size (keys : List κ) (hkeys : keys.Nodup)
    (hsub : ∀ key ∈ keys, (lastValue entries key).isSome) : keys.length ≤ size entries := by
  apply List.Subperm.length_le
  apply List.subperm_of_subset hkeys
  intro key hkey
  obtain ⟨value, hvalue⟩ := Option.isSome_iff_exists.mp (hsub key hkey)
  exact List.mem_dedup.mpr (List.mem_map.mpr ⟨(key, value), mem_of_lastValue hvalue, rfl⟩)

end Entries

mutual

def GoValue.marshal : GoValue → Option Json
  | .null => some .null
  | .bool value => some (.bool value)
  | .number _ text => some (.number text)
  | .str value => some (.str (coerceUTF8 value))
  | .time value => some (.time value)
  | .slice items => (marshalItems items).map .array
  | .map entries => (marshalEntries entries).map .object
  | .unsupported => none

def marshalItems : List GoValue → Option (List Json)
  | [] => some []
  | item :: rest => do
      let j ← item.marshal
      let js ← marshalItems rest
      return j :: js

def marshalEntries : List (GoString × GoValue) → Option (List (String × Json))
  | [] => some []
  | (key, value) :: rest => do
      let j ← value.marshal
      let js ← marshalEntries rest
      return (coerceUTF8 key, j) :: js

end

mutual

def Json.unmarshal : Json → GoValue
  | .null => .null
  | .bool value => .bool value
  | .number text => .number .jsonNumber text
  | .str value => .str (ofString value)
  | .time value => .time value
  | .array items => .slice (unmarshalItems items)
  | .object members => .map (unmarshalMembers members)

def unmarshalItems : List Json → List GoValue
  | [] => []
  | item :: rest => item.unmarshal :: unmarshalItems rest

def unmarshalMembers : List (String × Json) → GoMap
  | [] => []
  | (name, value) :: rest => (ofString name, value.unmarshal) :: unmarshalMembers rest

end

mutual

def GoValue.normalize : GoValue → GoValue
  | .number _ text => .number .jsonNumber text
  | .str value => .str (ofString (coerceUTF8 value))
  | .slice items => .slice (normalizeItems items)
  | .map entries => .map (normalizeEntries entries)
  | value => value

def normalizeItems : List GoValue → List GoValue
  | [] => []
  | item :: rest => item.normalize :: normalizeItems rest

def normalizeEntries : GoMap → GoMap
  | [] => []
  | (key, value) :: rest =>
    (ofString (coerceUTF8 key), value.normalize) :: normalizeEntries rest

end

mutual

theorem unmarshal_marshal : ∀ {value : GoValue} {j : Json},
    value.marshal = some j → j.unmarshal = value.normalize
  | .null, j, h | .bool _, j, h | .number _ _, j, h | .str _, j, h | .time _, j, h => by
      rw [GoValue.marshal, Option.some_inj] at h
      simp [← h, Json.unmarshal, GoValue.normalize]
  | .slice items, j, h => by
      obtain ⟨js, hjs, rfl⟩ : ∃ js, marshalItems items = some js ∧ Json.array js = j := by
        simpa [GoValue.marshal] using h
      simp [Json.unmarshal, GoValue.normalize, unmarshalItems_marshalItems hjs]
  | .map entries, j, h => by
      obtain ⟨js, hjs, rfl⟩ : ∃ js, marshalEntries entries = some js ∧ Json.object js = j := by
        simpa [GoValue.marshal] using h
      simp [Json.unmarshal, GoValue.normalize, unmarshalMembers_marshalEntries hjs]
  | .unsupported, j, h => by simp [GoValue.marshal] at h

theorem unmarshalItems_marshalItems : ∀ {items : List GoValue} {js : List Json},
    marshalItems items = some js → unmarshalItems js = normalizeItems items
  | [], js, h => by
      obtain rfl : [] = js := by simpa [marshalItems] using h
      simp [unmarshalItems, normalizeItems]
  | item :: rest, js, h => by
      obtain ⟨j, hj, js', hjs, rfl⟩ : ∃ j, item.marshal = some j ∧
          ∃ js', marshalItems rest = some js' ∧ j :: js' = js := by
        simpa [marshalItems, Option.bind_eq_some_iff] using h
      simp [unmarshalItems, normalizeItems, unmarshal_marshal hj,
        unmarshalItems_marshalItems hjs]

theorem unmarshalMembers_marshalEntries : ∀ {entries : GoMap} {js : List (String × Json)},
    marshalEntries entries = some js → unmarshalMembers js = normalizeEntries entries
  | [], js, h => by
      obtain rfl : [] = js := by simpa [marshalEntries] using h
      simp [unmarshalMembers, normalizeEntries]
  | (key, value) :: rest, js, h => by
      obtain ⟨j, hj, js', hjs, rfl⟩ : ∃ j, value.marshal = some j ∧
          ∃ js', marshalEntries rest = some js' ∧ (coerceUTF8 key, j) :: js' = js := by
        simpa [marshalEntries, Option.bind_eq_some_iff] using h
      simp [unmarshalMembers, normalizeEntries, unmarshal_marshal hj,
        unmarshalMembers_marshalEntries hjs]

end

mutual

theorem marshal_unmarshal : ∀ j : Json, j.unmarshal.marshal = some j
  | .null | .bool _ | .number _ | .str _ | .time _ => by simp [Json.unmarshal, GoValue.marshal]
  | .array items => by simp [Json.unmarshal, GoValue.marshal, marshalItems_unmarshalItems items]
  | .object members => by
      simp [Json.unmarshal, GoValue.marshal, marshalEntries_unmarshalMembers members]

theorem marshalItems_unmarshalItems : ∀ items : List Json,
    marshalItems (unmarshalItems items) = some items
  | [] => by simp [unmarshalItems, marshalItems]
  | item :: rest => by
      simp [unmarshalItems, marshalItems, marshal_unmarshal item,
        marshalItems_unmarshalItems rest]

theorem marshalEntries_unmarshalMembers : ∀ members : List (String × Json),
    marshalEntries (unmarshalMembers members) = some members
  | [] => by simp [unmarshalMembers, marshalEntries]
  | (name, value) :: rest => by
      simp [unmarshalMembers, marshalEntries, marshal_unmarshal value,
        marshalEntries_unmarshalMembers rest]

end

mutual

/-- Forget the Go types of numbers: values that agree after this are the same up to the
representation of JSON numbers. -/
def GoValue.eraseKinds : GoValue → GoValue
  | .number _ text => .number .jsonNumber text
  | .slice items => .slice (eraseKindsItems items)
  | .map entries => .map (eraseKindsEntries entries)
  | value => value

def eraseKindsItems : List GoValue → List GoValue
  | [] => []
  | item :: rest => item.eraseKinds :: eraseKindsItems rest

def eraseKindsEntries : GoMap → GoMap
  | [] => []
  | (key, value) :: rest => (key, value.eraseKinds) :: eraseKindsEntries rest

end

mutual

/-- Every string and every key inside the value is well-formed UTF-8. -/
def GoValue.ValidText : GoValue → Prop
  | .str value => ValidUTF8 value
  | .slice items => validTextItems items
  | .map entries => validTextEntries entries
  | _ => True

def validTextItems : List GoValue → Prop
  | [] => True
  | item :: rest => item.ValidText ∧ validTextItems rest

def validTextEntries : GoMap → Prop
  | [] => True
  | (key, value) :: rest => ValidUTF8 key ∧ value.ValidText ∧ validTextEntries rest

end

mutual

/-- A trip through JSON changes only the types of numbers iff all text in the value is well
formed. -/
theorem normalize_eq_eraseKinds_iff : ∀ {value : GoValue},
    value.normalize = value.eraseKinds ↔ value.ValidText
  | .null | .bool _ | .number _ _ | .time _ | .unsupported => by
      simp [GoValue.normalize, GoValue.eraseKinds, GoValue.ValidText]
  | .str value => by simp [GoValue.normalize, GoValue.eraseKinds, GoValue.ValidText, ValidUTF8]
  | .slice items => by
      simpa [GoValue.normalize, GoValue.eraseKinds, GoValue.ValidText] using
        normalizeItems_eq_eraseKindsItems_iff
  | .map entries => by
      simpa [GoValue.normalize, GoValue.eraseKinds, GoValue.ValidText] using
        normalizeEntries_eq_eraseKindsEntries_iff

theorem normalizeItems_eq_eraseKindsItems_iff : ∀ {items : List GoValue},
    normalizeItems items = eraseKindsItems items ↔ validTextItems items
  | [] => by simp [normalizeItems, eraseKindsItems, validTextItems]
  | item :: rest => by
      simp only [normalizeItems, eraseKindsItems, validTextItems, List.cons.injEq]
      rw [normalize_eq_eraseKinds_iff, normalizeItems_eq_eraseKindsItems_iff]

theorem normalizeEntries_eq_eraseKindsEntries_iff : ∀ {entries : GoMap},
    normalizeEntries entries = eraseKindsEntries entries ↔ validTextEntries entries
  | [] => by simp [normalizeEntries, eraseKindsEntries, validTextEntries]
  | (key, value) :: rest => by
      simp only [normalizeEntries, eraseKindsEntries, validTextEntries, List.cons.injEq,
        Prod.mk.injEq, and_assoc]
      rw [normalize_eq_eraseKinds_iff, normalizeEntries_eq_eraseKindsEntries_iff]
      rfl

end

mutual

theorem eraseKinds_normalize : ∀ value : GoValue, value.normalize.eraseKinds = value.normalize
  | .null | .bool _ | .number _ _ | .str _ | .time _ | .unsupported => by
      simp [GoValue.normalize, GoValue.eraseKinds]
  | .slice items => by
      simp [GoValue.normalize, GoValue.eraseKinds, eraseKindsItems_normalizeItems items]
  | .map entries => by
      simp [GoValue.normalize, GoValue.eraseKinds, eraseKindsEntries_normalizeEntries entries]

theorem eraseKindsItems_normalizeItems : ∀ items : List GoValue,
    eraseKindsItems (normalizeItems items) = normalizeItems items
  | [] => by simp [normalizeItems, eraseKindsItems]
  | item :: rest => by
      simp [normalizeItems, eraseKindsItems, eraseKinds_normalize item,
        eraseKindsItems_normalizeItems rest]

theorem eraseKindsEntries_normalizeEntries : ∀ entries : GoMap,
    eraseKindsEntries (normalizeEntries entries) = normalizeEntries entries
  | [] => by simp [normalizeEntries, eraseKindsEntries]
  | (key, value) :: rest => by
      simp [normalizeEntries, eraseKindsEntries, eraseKinds_normalize value,
        eraseKindsEntries_normalizeEntries rest]

end

theorem eraseKinds_normalize_eq_iff {value : GoValue} :
    value.normalize.eraseKinds = value.eraseKinds ↔ value.ValidText := by
  rw [eraseKinds_normalize, normalize_eq_eraseKinds_iff]

mutual

theorem normalize_normalize : ∀ value : GoValue, value.normalize.normalize = value.normalize
  | .null | .bool _ | .number _ _ | .str _ | .time _ | .unsupported => by simp [GoValue.normalize]
  | .slice items => by simp [GoValue.normalize, normalizeItems_normalizeItems items]
  | .map entries => by simp [GoValue.normalize, normalizeEntries_normalizeEntries entries]

theorem normalizeItems_normalizeItems : ∀ items : List GoValue,
    normalizeItems (normalizeItems items) = normalizeItems items
  | [] => by simp [normalizeItems]
  | item :: rest => by
      simp [normalizeItems, normalize_normalize item, normalizeItems_normalizeItems rest]

theorem normalizeEntries_normalizeEntries : ∀ entries : GoMap,
    normalizeEntries (normalizeEntries entries) = normalizeEntries entries
  | [] => by simp [normalizeEntries]
  | (key, value) :: rest => by
      simp [normalizeEntries, normalize_normalize value, normalizeEntries_normalizeEntries rest]

end

theorem validUTF8_of_mem_normalizeEntries {entries : GoMap} {key : GoString} {value : GoValue}
    (h : (key, value) ∈ normalizeEntries entries) : ValidUTF8 key := by
  induction entries with
  | nil => simp [normalizeEntries] at h
  | cons entry rest ih =>
    simp only [normalizeEntries, List.mem_cons, Prod.mk.injEq] at h
    rcases h with ⟨rfl, -⟩ | hrest
    · exact validUTF8_ofString _
    · exact ih hrest

theorem lastValue_normalizeEntries {entries : GoMap} (key : GoString)
    (h : ∀ entry ∈ entries, ValidUTF8 entry.1) :
    lastValue (normalizeEntries entries) key = (lastValue entries key).map GoValue.normalize := by
  induction entries with
  | nil => rfl
  | cons entry rest ih =>
    obtain ⟨key', value⟩ := entry
    have hkey : ofString (coerceUTF8 key') = key' := h (key', value) (by simp)
    have hrest := ih fun other hother => h other (.tail _ hother)
    simp only [normalizeEntries, lastValue_cons, hkey, hrest, Option.map_or]
    split <;> rfl

end VaultProofs.JsonValues
