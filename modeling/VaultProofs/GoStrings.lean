import Mathlib.Data.List.Basic

/-!
Go strings: sequences of bytes that need not be UTF-8; text that is known to be well formed is a
Lean `String`. Ranging over a Go string yields runes, with U+FFFD for every byte that starts no
well-formed rune.
-/

namespace VaultProofs.GoStrings

abbrev GoString := List UInt8

instance instLawfulBEqGoString : LawfulBEq GoString := inferInstance

def ofString (s : String) : GoString :=
  s.toByteArray.data.toList

def firstRune (bytes : GoString) : Option Char :=
  ByteArray.utf8DecodeChar? ⟨bytes.toArray⟩ 0

def runeError : Char := Char.ofNat 0xFFFD

def runesUpTo : Nat → GoString → List Char
  | 0, _ => []
  | _ + 1, [] => []
  | fuel + 1, byte :: rest =>
    match firstRune (byte :: rest) with
    | some rune => rune :: runesUpTo fuel ((byte :: rest).drop rune.utf8Size)
    | none => runeError :: runesUpTo fuel rest

/-- The runes that `for _, r := range s` visits. -/
def runes (bytes : GoString) : List Char :=
  runesUpTo bytes.length bytes

/-- The bytes written by `WriteRune` for each rune in turn. -/
def ofRunes (text : List Char) : GoString :=
  text.flatMap String.utf8EncodeChar

/-- The text `encoding/json` writes for a string: bytes outside well-formed UTF-8 are replaced by
U+FFFD. -/
def coerceUTF8 (bytes : GoString) : String :=
  String.ofList (runes bytes)

def ValidUTF8 (bytes : GoString) : Prop :=
  ofString (coerceUTF8 bytes) = bytes

instance (bytes : GoString) : Decidable (ValidUTF8 bytes) :=
  inferInstanceAs (Decidable (ofString (coerceUTF8 bytes) = bytes))

theorem ofString_eq_ofRunes (s : String) : ofString s = ofRunes s.toList := by
  unfold ofString ofRunes
  rw [← String.utf8Encode_toList]
  simp [List.utf8Encode]

theorem ofString_injective : Function.Injective ofString := by
  intro s t h
  apply String.toByteArray_inj.mp
  apply ByteArray.ext
  exact Array.toList_inj.mp h

@[simp] theorem ofString_inj {s t : String} : ofString s = ofString t ↔ s = t :=
  ofString_injective.eq_iff

theorem firstRune_encode (rune : Char) (rest : GoString) :
    firstRune (String.utf8EncodeChar rune ++ rest) = some rune := by
  have hbytes : (⟨(String.utf8EncodeChar rune ++ rest).toArray⟩ : ByteArray) =
      [rune].utf8Encode ++ ⟨rest.toArray⟩ := by
    apply ByteArray.ext
    apply Array.toList_inj.mp
    simp [List.utf8Encode_singleton]
  unfold firstRune
  rw [hbytes]
  exact List.utf8DecodeChar?_utf8Encode_singleton_append

theorem runesUpTo_ofRunes (text : List Char) (fuel : Nat)
    (hfuel : (ofRunes text).length ≤ fuel) : runesUpTo fuel (ofRunes text) = text := by
  induction text generalizing fuel with
  | nil => cases fuel <;> rfl
  | cons rune text ih =>
    have hcons : ofRunes (rune :: text) = String.utf8EncodeChar rune ++ ofRunes text := rfl
    have hfirst := firstRune_encode rune (ofRunes text)
    have hdrop : (String.utf8EncodeChar rune ++ ofRunes text).drop rune.utf8Size =
        ofRunes text := by
      rw [← String.length_utf8EncodeChar]
      exact List.drop_left
    have hsize := String.length_utf8EncodeChar rune
    have hpos := rune.utf8Size_pos
    rw [hcons] at hfuel ⊢
    rw [List.length_append] at hfuel
    obtain ⟨fuel, rfl⟩ : ∃ n, fuel = n + 1 := ⟨fuel - 1, by omega⟩
    obtain ⟨byte, tail, hbytes⟩ : ∃ byte tail,
        String.utf8EncodeChar rune ++ ofRunes text = byte :: tail := by
      apply List.exists_cons_of_ne_nil
      intro hnil
      have := congrArg List.length hnil
      simp only [List.length_append, List.length_nil] at this
      omega
    rw [hbytes] at hfirst hdrop ⊢
    simp only [runesUpTo, hfirst, hdrop]
    rw [ih fuel (by omega)]

@[simp] theorem runes_ofRunes (text : List Char) : runes (ofRunes text) = text :=
  runesUpTo_ofRunes text _ (Nat.le_refl _)

@[simp] theorem coerceUTF8_ofString (s : String) : coerceUTF8 (ofString s) = s := by
  unfold coerceUTF8
  rw [ofString_eq_ofRunes, runes_ofRunes, String.ofList_toList]

@[simp] theorem validUTF8_ofString (s : String) : ValidUTF8 (ofString s) := by
  simp [ValidUTF8]

def hasPrefix (s start : GoString) : Bool := start.isPrefixOf s

def hasSuffix (s ending : GoString) : Bool := ending.isSuffixOf s

def trimPrefix (s start : GoString) : GoString :=
  if hasPrefix s start then s.drop start.length else s

def trimSuffix (s ending : GoString) : GoString :=
  if hasSuffix s ending then s.take (s.length - ending.length) else s

def containsText : GoString → GoString → Bool
  | [], text => text.isEmpty
  | byte :: rest, text => text.isPrefixOf (byte :: rest) || containsText rest text

theorem hasPrefix_iff {s start : GoString} : hasPrefix s start = true ↔ start <+: s :=
  List.isPrefixOf_iff_prefix

theorem hasSuffix_iff {s ending : GoString} : hasSuffix s ending = true ↔ ending <:+ s :=
  List.isSuffixOf_iff_suffix

theorem trimSuffix_append {s ending : GoString} (h : hasSuffix s ending = true) :
    trimSuffix s ending ++ ending = s := by
  obtain ⟨start, rfl⟩ := hasSuffix_iff.mp h
  simp [trimSuffix, h]

theorem containsText_iff {s text : GoString} : containsText s text = true ↔ text <:+: s := by
  induction s with
  | nil => simp [containsText]
  | cons byte rest ih => simp [containsText, ih, List.infix_cons_iff]

/-- `strings.Index` for a single byte. -/
def indexByte (s : GoString) (byte : UInt8) : Int :=
  match s.findIdx? (· == byte) with
  | some i => i
  | none => -1

/-- `strings.Split` at a single byte. -/
def splitByte (sep : UInt8) : GoString → List GoString
  | [] => [[]]
  | byte :: rest =>
    if byte = sep then [] :: splitByte sep rest
    else
      match splitByte sep rest with
      | [] => [[byte]]
      | part :: parts => (byte :: part) :: parts

theorem splitByte_ne_nil (sep : UInt8) (s : GoString) : splitByte sep s ≠ [] := by
  cases s with
  | nil => simp [splitByte]
  | cons byte rest =>
    unfold splitByte
    split
    · simp
    · split <;> simp

/-- `strings.Join` with a single byte. -/
def joinByte (sep : UInt8) (parts : List GoString) : GoString :=
  [sep].intercalate parts

theorem joinByte_splitByte (sep : UInt8) (s : GoString) : joinByte sep (splitByte sep s) = s := by
  induction s with
  | nil => rfl
  | cons byte rest ih =>
    unfold joinByte at ih ⊢
    obtain ⟨part, parts, hparts⟩ := List.exists_cons_of_ne_nil (splitByte_ne_nil sep rest)
    rw [hparts] at ih
    by_cases hsep : byte = sep
    · rw [splitByte, if_pos hsep, hparts, List.intercalate_cons_cons, ih, hsep]
      rfl
    rw [splitByte, if_neg hsep, hparts]
    cases parts with
    | nil => simpa using ih
    | cons next parts =>
      simpa using ih

theorem suffix_joinByte (sep : UInt8) (init : List GoString) (last : GoString) :
    last <:+ joinByte sep (init ++ [last]) := by
  unfold joinByte
  induction init with
  | nil => simp
  | cons part init ih =>
    obtain ⟨next, parts, hparts⟩ := List.exists_cons_of_ne_nil
      (show init ++ [last] ≠ [] by simp)
    rw [List.cons_append, hparts, List.intercalate_cons_cons]
    rw [hparts] at ih
    exact ih.trans (List.suffix_append _ _)

theorem splitByte_append (sep : UInt8) (s t : GoString) :
    splitByte sep (s ++ sep :: t) = splitByte sep s ++ splitByte sep t := by
  induction s with
  | nil => simp [splitByte]
  | cons byte rest ih =>
    obtain ⟨part, parts, hparts⟩ := List.exists_cons_of_ne_nil (splitByte_ne_nil sep rest)
    by_cases hsep : byte = sep
    · simp [splitByte, hsep, ih, hparts]
    · simp [splitByte, hsep, ih, hparts]

variable {sep : UInt8}

theorem splitByte_of_not_mem {s : GoString} (h : sep ∉ s) : splitByte sep s = [s] := by
  induction s with
  | nil => rfl
  | cons byte rest ih =>
    rw [List.mem_cons, not_or] at h
    rw [splitByte, if_neg (Ne.symm h.1), ih h.2]

theorem not_mem_of_mem_splitByte {s part : GoString} (h : part ∈ splitByte sep s) : sep ∉ part := by
  induction s generalizing part with
  | nil =>
    obtain rfl := List.mem_singleton.mp h
    exact List.not_mem_nil
  | cons byte rest ih =>
    obtain ⟨first, parts, hparts⟩ := List.exists_cons_of_ne_nil (splitByte_ne_nil sep rest)
    rw [hparts] at ih
    by_cases hsep : byte = sep
    · rw [splitByte, if_pos hsep, hparts, List.mem_cons] at h
      rcases h with rfl | h
      · exact List.not_mem_nil
      · exact ih h
    rw [splitByte, if_neg hsep, hparts, List.mem_cons] at h
    rcases h with rfl | h
    · rw [List.mem_cons, not_or]
      exact ⟨Ne.symm hsep, ih (.head _)⟩
    · exact ih (.tail _ h)

theorem splitByte_joinByte {parts : List GoString} (hne : parts ≠ [])
    (hparts : ∀ part ∈ parts, sep ∉ part) : splitByte sep (joinByte sep parts) = parts := by
  induction parts with
  | nil => exact (hne rfl).elim
  | cons part parts ih =>
    have hpart := splitByte_of_not_mem (hparts part (.head _))
    cases parts with
    | nil =>
      show splitByte sep ([sep].intercalate [part]) = [part]
      rw [List.intercalate_singleton, hpart]
    | cons next parts =>
      have hrest := ih (List.cons_ne_nil _ _) fun part' hmem =>
        hparts part' (.tail _ hmem)
      have hjoin : joinByte sep (part :: next :: parts) =
          part ++ sep :: joinByte sep (next :: parts) := by
        simp [joinByte, List.intercalate_cons_cons]
      rw [hjoin, splitByte_append, hpart, hrest]
      rfl

theorem containsText_of_last_segment {s : GoString} {init : List GoString}
    (hstar : hasSuffix s (ofString "*") = true)
    (hsplit : splitByte 0x2f (trimSuffix s (ofString "*")) = init ++ [ofString "+"]) :
    containsText s (ofString "+*") = true := by
  have hplus : ofString "+" <:+ trimSuffix s (ofString "*") := by
    rw [← joinByte_splitByte 0x2f (trimSuffix s (ofString "*")), hsplit]
    exact suffix_joinByte _ _ _
  obtain ⟨start, hstart⟩ := hplus
  refine containsText_iff.mpr ⟨start, [], ?_⟩
  rw [List.append_nil, ← trimSuffix_append hstar, ← hstart, List.append_assoc]
  rfl

-- Strings are compared byte by byte, bytes as numbers.
def stringLess (s t : GoString) : Bool :=
  decide (s.map UInt8.toNat < t.map UInt8.toNat)

/-- `strings.EqualFold`, over the representative `fold` of each orbit of
Unicode simple case folding. -/
def equalFold (fold : Char → Char) (s t : GoString) : Bool :=
  (runes s).map fold == (runes t).map fold

def isSpace (rune : Char) : Bool :=
  rune.toNat ∈ [0x09, 0x0A, 0x0B, 0x0C, 0x0D, 0x20, 0x85, 0xA0, 0x1680, 0x2028, 0x2029,
    0x202F, 0x205F, 0x3000] || (0x2000 ≤ rune.toNat && rune.toNat ≤ 0x200A)

/-- `strings.TrimSpace` on well-formed text. -/
def trimSpace (text : List Char) : List Char :=
  ((text.dropWhile isSpace).reverse.dropWhile isSpace).reverse

end VaultProofs.GoStrings
