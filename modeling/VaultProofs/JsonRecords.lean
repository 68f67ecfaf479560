import VaultProofs.JsonValues

/-!
How `encoding/json` writes and reads the fields of a struct: the tag `omitempty`, the zero value of
a field that is absent or `null`, and how a record written field by field reads back.
-/

namespace VaultProofs.JsonValues

open GoStrings

variable {α : Type}

/-- `isEmptyValue` of `encoding/json`: what `omitempty` leaves out. A timestamp is a struct and
never empty. -/
def Json.isEmptyValue : Json → Bool
  | .null => true
  | .bool value => !value
  | .number text => text == .int 0
  | .str value => value == ""
  | .time _ => false
  | .array items => items.isEmpty
  | .object members => members.isEmpty

def member (name : String) (j : Json) : List (String × Json) :=
  [(name, j)]

def memberOmitEmpty (name : String) (j : Json) : List (String × Json) :=
  if j.isEmptyValue then [] else [(name, j)]

-- The members a struct is decoded from; `null` leaves the struct as it is.
def Json.members? : Json → Option (List (String × Json))
  | .object members => some members
  | .null => some []
  | _ => none

/-- Decode one field. A member that is absent or `null` leaves the zero value. -/
def readField (members : List (String × Json)) (name : String)
    (read : Json → Option α) (zero : α) : Option α :=
  match lastValue members name with
  | none => some zero
  | some .null => some zero
  | some j => read j

def Json.readString : Json → Option String
  | .str value => some value
  | _ => none

def Json.readText (j : Json) : Option GoString :=
  j.readString.map ofString

def Json.readInt : Json → Option Int
  | .number (.int value) => some value
  | _ => none

def Json.readBool : Json → Option Bool
  | .bool value => some value
  | _ => none

def Json.readTime : Json → Option Time
  | .time value => some value
  | _ => none

def Json.readList (read : Json → Option α) : Json → Option (List α)
  | .array items => items.mapM read
  | _ => none

def Json.readMap : Json → Option (Option GoMap)
  | .object members => some (some (unmarshalMembers members))
  | _ => none

-- A map field, whose zero value is the nil map.
def marshalMap : Option GoMap → Option Json
  | none => some .null
  | some entries => (marshalEntries entries).map .object

theorem bind_eq_some {β : Type} {a : Option α} {f : α → Option β} {value : α} {result : β}
    (ha : a = some value) (hf : f value = some result) : (a >>= f) = some result := by
  subst ha
  exact hf

theorem exists_of_bind_eq_some {β : Type} {a : Option α} {f : α → Option β} {result : β}
    (h : (a >>= f) = some result) : ∃ value, a = some value ∧ f value = some result :=
  Option.bind_eq_some_iff.mp h

section fields

variable {members : List (String × Json)} {name : String} {read : Json → Option α} {zero : α}

theorem readField_eq (j : Json) (value : α) (hread : read j = some value)
    (hlast : lastValue members name = some j := by simp) (hnull : j ≠ .null := by simp) :
    readField members name read zero = some value := by
  unfold readField
  rw [hlast]
  cases j <;> simp_all

/-- A member written with `omitempty` reads back when the values it leaves out
are the zero value. -/
theorem readField_omitEmpty_eq (j : Json) (value : α)
    (hread : j.isEmptyValue = false → read j = some value := by exact fun _ => rfl)
    (hzero : j.isEmptyValue = true → value = zero := by simp [Json.isEmptyValue])
    (hlast : lastValue members name = if j.isEmptyValue = false then some j else none := by simp) :
    readField members name read zero = some value := by
  cases hempty : j.isEmptyValue with
  | false =>
    have hnull : j ≠ .null := by
      rintro rfl
      simp [Json.isEmptyValue] at hempty
    exact readField_eq j value (hread hempty) (by simpa [hempty] using hlast) hnull
  | true =>
    have hnone : lastValue members name = none := by simpa [hempty] using hlast
    simp [readField, hnone, hzero hempty]

theorem readField_str (value : String) (hlast : lastValue members name = some (.str value) := by simp)
    {zero : String} : readField members name Json.readString zero = some value :=
  readField_eq _ value rfl hlast

theorem readField_time (value : Time) (hlast : lastValue members name = some (.time value) := by simp)
    {zero : Time} : readField members name Json.readTime zero = some value :=
  readField_eq _ value rfl hlast

end fields

@[simp] theorem lastValue_member (name key : String) (j : Json) :
    lastValue (member name j) key = if name = key then some j else none := by
  simp [member]

@[simp] theorem lastValue_memberOmitEmpty (name key : String) (j : Json) :
    lastValue (memberOmitEmpty name j) key =
      if name = key ∧ j.isEmptyValue = false then some j else none := by
  unfold memberOmitEmpty
  split <;> simp_all

theorem mapM_map_eq_some {β γ : Type} {encode : β → γ} {read : γ → Option α} {value : β → α}
    (h : ∀ b, read (encode b) = some (value b)) (items : List β) :
    (items.map encode).mapM read = some (items.map value) := by
  induction items with
  | nil => rfl
  | cons item items ih => simp [h, ih]

end VaultProofs.JsonValues
