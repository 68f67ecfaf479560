import VaultProofs.AclPrecedence

/-!
The paths that a backend declares as special. Patterns without `+` are kept in a radix tree under
their text without a trailing asterisk, and only the longest text that starts a path is consulted. A
radix tree is a finite map with a search for the longest stored start of a key.
-/

namespace VaultProofs.SpecialPaths

open GoStrings LongestPrefixes VaultEffects AclPolicies AclOperations AclPrecedence
open EffectPrograms (bind_eq_ok)
open AclLookup (compareSegments)

abbrev Tree (α : Type) := AList fun _ : GoString => α

def Tree.longestPrefix {α : Type} (tree : Tree α) (key : GoString) : Option (GoString × α) :=
  (longestWith (fun start => (tree.lookup start).isSome) key).bind fun start =>
    (tree.lookup start).map (start, ·)

structure WildcardPath where
  segments : List GoString
  isPrefix : Bool

structure SpecialPathsEntry where
  paths : Tree Bool := ∅
  wildcardPaths : List WildcardPath := []

structure Paths where
  root : List GoString := []
  unauthenticated : List GoString := []
  binary : List GoString := []
  limited : List GoString := []
  allowSnapshotRead : List GoString := []

structure RouteEntry where
  rootPaths : Tree Bool
  loginPaths : SpecialPathsEntry
  binaryPaths : SpecialPathsEntry
  limitedPaths : SpecialPathsEntry
  allowSnapshotReadPaths : SpecialPathsEntry

structure Router where
  root : Tree RouteEntry := ∅

/-! Parsing -/

-- The regular expression \+[^/]|[^/]\+ finds a match.
def wcAdjacentNonSlash : GoString → Bool
  | first :: second :: rest =>
    (first == 0x2b && second != 0x2f) || (first != 0x2f && second == 0x2b) ||
      wcAdjacentNonSlash (second :: rest)
  | _ => false

def wildcardError (lib : Library) (path msg : GoString) : GoError :=
  .message (ofString "path " ++ lib.quote path ++ ofString ": invalid use of wildcards " ++ msg)

def isValidSpecialPath (lib : Library) (path : GoString) : Except GoError Unit :=
  if 1 < path.count 0x2a then
    .error (wildcardError lib path (ofString "(multiple '*' is forbidden)"))
  else if containsText path (ofString "+*") then
    .error (wildcardError lib path (ofString "('+*' is forbidden)"))
  else if containsText path (ofString "*") && !hasSuffix path (ofString "*") then
    .error (wildcardError lib path (ofString "('*' is only allowed at the end of a path)"))
  else if wcAdjacentNonSlash path then
    .error (wildcardError lib path (ofString "('+' is not allowed next to a non-slash)"))
  else .ok ()

def text (path : GoString) : GoString :=
  trimSuffix path (ofString "*")

def pathsToRadix (paths : List GoString) : Tree Bool :=
  paths.foldl (fun tree path => tree.insert (text path) (hasSuffix path (ofString "*"))) ∅

def wildcardPath (path : GoString) : WildcardPath where
  segments := splitByte 0x2f (text path)
  isPrefix := hasSuffix path (ofString "*")

def hasPlus (path : GoString) : Bool :=
  containsText path (ofString "+")

/-- The loop over the declared paths, with those gathered so far. -/
def sortPaths (lib : Library) : List GoString → List GoString → List WildcardPath →
    Except GoError (List GoString × List WildcardPath)
  | [], tempPaths, tempWildcardPaths => .ok (tempPaths, tempWildcardPaths)
  | path :: paths, tempPaths, tempWildcardPaths => do
      isValidSpecialPath lib path
      if hasPlus path then
        sortPaths lib paths tempPaths (tempWildcardPaths ++ [wildcardPath path])
      else sortPaths lib paths (tempPaths ++ [path]) tempWildcardPaths

def parseSpecialPaths (lib : Library) (paths : List GoString) :
    Except GoError SpecialPathsEntry := do
  let (tempPaths, tempWildcardPaths) ← sortPaths lib paths [] []
  return { paths := pathsToRadix tempPaths, wildcardPaths := tempWildcardPaths }

def routeEntry (lib : Library) (paths : Paths) : Except GoError RouteEntry := do
  let loginPaths ← parseSpecialPaths lib paths.unauthenticated
  let binaryPaths ← parseSpecialPaths lib paths.binary
  let limitedPaths ← parseSpecialPaths lib paths.limited
  let allowSnapshotReadPaths ← parseSpecialPaths lib paths.allowSnapshotRead
  return {
    rootPaths := pathsToRadix paths.root
    loginPaths := loginPaths
    binaryPaths := binaryPaths
    limitedPaths := limitedPaths
    allowSnapshotReadPaths := allowSnapshotReadPaths }

/-! Matching -/

/-- The loop over the segments of a wildcard path, which is not longer than the path. -/
def segmentsAgree (isPrefix : Bool) : List GoString → List GoString → Bool
  | [], _ => true
  | _ :: _, [] => false
  | wcPathPart :: wcPath, part :: path =>
    (wcPathPart == ofString "+" || wcPathPart == part ||
        (isPrefix && wcPath.isEmpty && hasPrefix part wcPathPart)) &&
      segmentsAgree isPrefix wcPath path

def pathMatchesWildcardPath (path wcPath : List GoString) (isPrefix : Bool) : Bool :=
  if wcPath.isEmpty then false
  else if path.length < wcPath.length then false
  else if !isPrefix && wcPath.length != path.length then false
  else segmentsAgree isPrefix wcPath path

def remaining (space : Namespace) (path mount : GoString) : GoString :=
  trimPrefix (space.path ++ path) mount

def rootPath (router : Router) (space : Namespace) (path : GoString) : Bool :=
  match router.root.longestPrefix (space.path ++ path) with
  | none => false
  | some (mount, re) =>
    let remain := remaining space path mount
    match re.rootPaths.longestPrefix remain with
    | none => false
    | some (found, prefixMatch) =>
      if prefixMatch then hasPrefix remain found else found == remain

def specialPath (router : Router) (space : Namespace) (path : GoString)
    (lookup : RouteEntry → SpecialPathsEntry) : Bool :=
  match router.root.longestPrefix (space.path ++ path) with
  | none => false
  | some (mount, re) =>
    let remain := remaining space path mount
    let pe := lookup re
    let wildcard := pe.wildcardPaths.any fun w =>
      pathMatchesWildcardPath (splitByte 0x2f remain) w.segments w.isPrefix
    match pe.paths.longestPrefix remain with
    | none => wildcard
    | some (found, prefixMatch) =>
      if prefixMatch then hasPrefix remain found
      else if found == remain then true
      else wildcard

def loginPath (router : Router) (space : Namespace) (path : GoString) : Bool :=
  specialPath router space path (·.loginPaths)

def binaryPath (router : Router) (space : Namespace) (path : GoString) : Bool :=
  specialPath router space path (·.binaryPaths)

def limitedPath (router : Router) (space : Namespace) (path : GoString) : Bool :=
  specialPath router space path (·.limitedPaths)

def allowSnapshotReadPath (router : Router) (space : Namespace) (path : GoString) : Bool :=
  specialPath router space path (·.allowSnapshotReadPaths)

/-! What the patterns mean -/

/-- A trailing asterisk stands for any rest. -/
def MatchesText (pattern remain : GoString) : Prop :=
  if hasSuffix pattern (ofString "*") then text pattern <+: remain else pattern = remain

def MatchesSpecial (pattern remain : GoString) : Prop :=
  if hasPlus pattern then
    Covers (hasSuffix pattern (ofString "*")) (splitByte 0x2f (text pattern))
      (splitByte 0x2f remain)
  else MatchesText pattern remain

/-- The last of the patterns with the longest text that starts the path. -/
def Consulted (patterns : List GoString) (remain pattern : GoString) : Prop :=
  text pattern <+: remain ∧
    (∀ other ∈ patterns, text other <+: remain → (text other).length ≤ (text pattern).length) ∧
    ∃ before after, patterns = before ++ pattern :: after ∧
      ∀ later ∈ after, text later ≠ text pattern

/-- A pattern with an asterisk starts the path, but an exact pattern that is not the path is
consulted instead. -/
def Hidden (patterns : List GoString) (remain : GoString) : Prop :=
  (∃ pattern ∈ patterns, hasSuffix pattern (ofString "*") = true ∧ text pattern <+: remain) ∧
    ∃ pattern, Consulted patterns remain pattern ∧ hasSuffix pattern (ofString "*") = false ∧
      pattern ≠ remain

/-! The radix tree -/

theorem longestPrefix_cases {α : Type} (tree : Tree α) (key : GoString) :
    (tree.longestPrefix key = none ∧ ∀ start ∈ tree, ¬ start <+: key) ∨
      ∃ start value, tree.longestPrefix key = some (start, value) ∧
        tree.lookup start = some value ∧ start <+: key ∧
        ∀ other ∈ tree, other <+: key → other.length ≤ start.length := by
  unfold Tree.longestPrefix
  cases hlongest : longestWith (fun start => (tree.lookup start).isSome) key with
  | none =>
    refine .inl ⟨rfl, fun start hmem hstarts => ?_⟩
    have hnone := longestWith_eq_none hlongest hstarts
    rw [AList.lookup_isSome.mpr hmem] at hnone
    cases hnone
  | some start =>
    obtain ⟨hstarts, hsome, hlongest⟩ := longestWith_eq_some hlongest
    obtain ⟨value, hvalue⟩ := Option.isSome_iff_exists.mp hsome
    refine .inr ⟨start, value, ?_, hvalue, hstarts, fun other hmem hother => ?_⟩
    · rw [Option.bind_some, hvalue]
      rfl
    · exact hlongest other hother (AList.lookup_isSome.mpr hmem)

variable {paths : List GoString} {remain pattern : GoString}

theorem lookup_pathsToRadix (paths : List GoString) (key : GoString) :
    (pathsToRadix paths).lookup key =
      (paths.reverse.find? (text · = key)).map (hasSuffix · (ofString "*")) := by
  induction paths using List.reverseRecOn with
  | nil => rfl
  | append_singleton paths path ih =>
    unfold pathsToRadix at ih ⊢
    rw [List.foldl_append, List.reverse_append, List.foldl_cons, List.foldl_nil]
    show AList.lookup key (AList.insert _ _ _) = ((path :: paths.reverse).find? _).map _
    by_cases hkey : text path = key
    · subst hkey
      rw [AList.lookup_insert, List.find?_cons_of_pos (by simp)]
      rfl
    · rw [AList.lookup_insert_ne (Ne.symm hkey), ih, List.find?_cons_of_neg (by simpa using hkey)]

theorem find_reverse_iff {key : GoString} :
    paths.reverse.find? (text · = key) = some pattern ↔
      text pattern = key ∧ ∃ before after, paths = before ++ pattern :: after ∧
        ∀ later ∈ after, text later ≠ key := by
  rw [List.find?_eq_some_iff_append]
  simp only [decide_eq_true_eq, Bool.not_eq_true', decide_eq_false_iff_not]
  refine and_congr_right fun _ => ?_
  constructor
  · rintro ⟨after, before, hsplit, hlater⟩
    refine ⟨before.reverse, after.reverse, ?_, by simpa using hlater⟩
    rw [← List.reverse_reverse paths, hsplit]
    simp
  · rintro ⟨before, after, rfl, hlater⟩
    exact ⟨after.reverse, before.reverse, by simp, by simpa using hlater⟩

theorem Consulted.mem (h : Consulted paths remain pattern) : pattern ∈ paths := by
  obtain ⟨_, _, before, after, rfl, _⟩ := h
  simp

theorem Consulted.unique {other : GoString} (h : Consulted paths remain pattern)
    (h' : Consulted paths remain other) : pattern = other := by
  have hlength : (text pattern).length = (text other).length :=
    le_antisymm (h'.2.1 pattern h.mem h.1) (h.2.1 other h'.mem h'.1)
  have htext : text pattern = text other :=
    (List.prefix_of_prefix_length_le h.1 h'.1 hlength.le).eq_of_length hlength
  have hfirst := find_reverse_iff.mpr ⟨rfl, h.2.2⟩
  have hsecond := find_reverse_iff.mpr ⟨rfl, h'.2.2⟩
  rw [htext, hsecond] at hfirst
  exact (Option.some.inj hfirst).symm

theorem longestPrefix_pathsToRadix (paths : List GoString) (remain : GoString) :
    ((pathsToRadix paths).longestPrefix remain = none ∧
        ∀ pattern ∈ paths, ¬ text pattern <+: remain) ∨
      ∃ pattern, Consulted paths remain pattern ∧
        (pathsToRadix paths).longestPrefix remain =
          some (text pattern, hasSuffix pattern (ofString "*")) := by
  have hstored : ∀ pattern ∈ paths, text pattern ∈ pathsToRadix paths := by
    intro pattern hmem
    rw [← AList.lookup_isSome, lookup_pathsToRadix, Option.isSome_map, List.find?_isSome]
    exact ⟨pattern, List.mem_reverse.mpr hmem, by simp⟩
  rcases longestPrefix_cases (pathsToRadix paths) remain with
    ⟨hnone, hall⟩ | ⟨start, mark, hfound, hmark, hstarts, hlongest⟩
  · exact .inl ⟨hnone, fun pattern hmem => hall _ (hstored pattern hmem)⟩
  rw [lookup_pathsToRadix] at hmark
  obtain ⟨pattern, hfind, rfl⟩ := Option.map_eq_some_iff.mp hmark
  obtain ⟨rfl, hlast⟩ := find_reverse_iff.mp hfind
  refine .inr ⟨pattern, ⟨hstarts, ?_, hlast⟩, hfound⟩
  exact fun other hmem hother => hlongest _ (hstored other hmem) hother

theorem text_eq_self (h : hasSuffix pattern (ofString "*") = false) : text pattern = pattern := by
  rw [text, trimSuffix, h]
  rfl

theorem text_of_matchesText (h : MatchesText pattern remain) : text pattern <+: remain := by
  unfold MatchesText at h
  split at h
  · exact h
  · rename_i hstar
    rw [text_eq_self (Bool.eq_false_iff.mpr hstar), h]

theorem matchesText_consulted_iff (h : Consulted paths remain pattern) :
    MatchesText pattern remain ↔
      (∃ other ∈ paths, MatchesText other remain) ∧ ¬ Hidden paths remain := by
  constructor
  · intro hmatches
    refine ⟨⟨pattern, h.mem, hmatches⟩, ?_⟩
    rintro ⟨_, other, hother, hstar, hne⟩
    obtain rfl := h.unique hother
    rw [MatchesText, hstar] at hmatches
    exact hne hmatches
  rintro ⟨⟨other, hmem, hmatches⟩, hhidden⟩
  unfold MatchesText
  split
  · exact h.1
  rename_i hstar
  rw [Bool.not_eq_true] at hstar
  by_contra hne
  apply hhidden
  refine ⟨⟨other, hmem, ?_, text_of_matchesText hmatches⟩, pattern, h, hstar, hne⟩
  -- An exact pattern equal to the path would be at least as long as the one consulted.
  by_contra hother
  rw [Bool.not_eq_true] at hother
  have hsame : other = remain := by
    rw [MatchesText, hother] at hmatches
    exact hmatches
  have hlonger := h.2.1 other hmem (text_of_matchesText hmatches)
  rw [text_eq_self hother, hsame] at hlonger
  apply hne
  rw [← text_eq_self hstar]
  exact h.1.eq_of_length_le hlonger

/-! Wildcard segments -/

theorem compareSegments_eq (isPrefix : Bool) (wcPath path : List GoString) (wildcards : Nat)
    (collected : List GoString) :
    compareSegments false isPrefix wcPath path wildcards collected =
      if segmentsAgree isPrefix wcPath path then .matched (wildcards + wcPath.count (ofString "+"))
      else .mismatch := by
  induction wcPath generalizing path wildcards collected with
  | nil => rfl
  | cons wcPathPart wcPath ih =>
    cases path with
    | nil => rfl
    | cons part path =>
      simp only [compareSegments, segmentsAgree, ih]
      grind

theorem segmentsAgree_iff {isPrefix : Bool} {wcPath path : List GoString}
    (hlen : wcPath.length ≤ path.length)
    (hexact : isPrefix = false → wcPath.length = path.length)
    (hlast : isPrefix = true → ∃ init last, wcPath = init ++ [last] ∧ last ≠ ofString "+") :
    segmentsAgree isPrefix wcPath path = true ↔ Covers isPrefix wcPath path := by
  have hspec := compareSegments_spec hlen hexact hlast 0 []
  rw [compareSegments_eq] at hspec
  rcases hspec with ⟨hcovers, hmatched⟩ | ⟨hcovers, hmismatch⟩
  · grind
  · grind

theorem pathMatchesWildcardPath_iff {pattern : GoString}
    (hvalid : containsText pattern (ofString "+*") = false) (path : List GoString) :
    pathMatchesWildcardPath path (splitByte 0x2f (text pattern))
        (hasSuffix pattern (ofString "*")) = true ↔
      Covers (hasSuffix pattern (ofString "*")) (splitByte 0x2f (text pattern)) path := by
  have hne := splitByte_ne_nil 0x2f (text pattern)
  rw [pathMatchesWildcardPath, if_neg (by simpa using hne)]
  by_cases hshort : path.length < (splitByte 0x2f (text pattern)).length
  · rw [if_pos hshort]
    simpa using fun hcovers : Covers _ _ _ => absurd hcovers.length_le (Nat.not_le.mpr hshort)
  rw [if_neg hshort]
  by_cases hother : hasSuffix pattern (ofString "*") = false ∧
      (splitByte 0x2f (text pattern)).length ≠ path.length
  · rw [if_pos (by simpa using hother), hother.1]
    simpa using fun hcovers : Covers false _ _ => hother.2 hcovers.length_eq
  rw [if_neg (by simpa using hother)]
  apply segmentsAgree_iff (Nat.le_of_not_lt hshort)
  · exact fun hb => by_contra fun hlength => hother ⟨hb, hlength⟩
  intro hb
  have hsplit := (List.dropLast_append_getLast hne).symm
  refine ⟨_, _, hsplit, fun hplus => ?_⟩
  rw [hplus] at hsplit
  rw [containsText_of_last_segment hb hsplit] at hvalid
  cases hvalid

/-! Declared lists -/

variable {lib : Library}

theorem no_plus_star_of_valid {path : GoString} (h : isValidSpecialPath lib path = .ok ()) :
    containsText path (ofString "+*") = false := by
  unfold isValidSpecialPath at h
  split at h
  · cases h
  split at h
  · cases h
  · rename_i hplus
    exact Bool.eq_false_iff.mpr hplus

theorem sortPaths_eq_ok {paths tempPaths tempPaths' : List GoString}
    {tempWildcardPaths tempWildcardPaths' : List WildcardPath}
    (h : sortPaths lib paths tempPaths tempWildcardPaths =
      .ok (tempPaths', tempWildcardPaths')) :
    tempPaths' = tempPaths ++ paths.filter (!hasPlus ·) ∧
      tempWildcardPaths' = tempWildcardPaths ++ (paths.filter hasPlus).map wildcardPath ∧
      ∀ path ∈ paths, isValidSpecialPath lib path = .ok () := by
  induction paths generalizing tempPaths tempWildcardPaths with
  | nil =>
    cases h
    simp
  | cons path paths ih =>
    obtain ⟨_, hvalid, h⟩ := bind_eq_ok.mp h
    have hcheck : isValidSpecialPath lib path = .ok () := hvalid
    by_cases hplus : hasPlus path = true
    · rw [if_pos hplus] at h
      obtain ⟨hplain, hwild, hall⟩ := ih h
      exact ⟨by simpa [hplus] using hplain, by simpa [hplus] using hwild,
        List.forall_mem_cons.mpr ⟨hcheck, hall⟩⟩
    rw [if_neg hplus] at h
    obtain ⟨hplain, hwild, hall⟩ := ih h
    exact ⟨by simpa [hplus] using hplain, by simpa [hplus] using hwild,
      List.forall_mem_cons.mpr ⟨hcheck, hall⟩⟩

theorem parseSpecialPaths_eq_ok {paths : List GoString} {pe : SpecialPathsEntry}
    (h : parseSpecialPaths lib paths = .ok pe) :
    pe.paths = pathsToRadix (paths.filter (!hasPlus ·)) ∧
      pe.wildcardPaths = (paths.filter hasPlus).map wildcardPath ∧
      ∀ path ∈ paths, isValidSpecialPath lib path = .ok () := by
  obtain ⟨⟨tempPaths, tempWildcardPaths⟩, hsort, h⟩ := bind_eq_ok.mp h
  obtain ⟨hplain, hwild, hvalid⟩ := sortPaths_eq_ok hsort
  cases h
  exact ⟨congrArg pathsToRadix hplain, hwild, hvalid⟩

/-! The answers -/

theorem matchesText_iff {pattern remain : GoString} :
    (if hasSuffix pattern (ofString "*") then hasPrefix remain (text pattern)
      else text pattern == remain) = true ↔ MatchesText pattern remain := by
  unfold MatchesText
  cases hstar : hasSuffix pattern (ofString "*") with
  | true => simp [hasPrefix_iff]
  | false => simp [text_eq_self hstar]

variable {router : Router} {space : Namespace} {path mount : GoString} {re : RouteEntry}
  {patterns : List GoString}

theorem rootPath_iff (hroute : router.root.longestPrefix (space.path ++ path) = some (mount, re))
    (hroot : re.rootPaths = pathsToRadix patterns) :
    rootPath router space path = true ↔
      (∃ pattern ∈ patterns, MatchesText pattern (remaining space path mount)) ∧
        ¬ Hidden patterns (remaining space path mount) := by
  simp only [rootPath, hroute, hroot]
  rcases longestPrefix_pathsToRadix patterns (remaining space path mount) with
    ⟨hnone, hall⟩ | ⟨pattern, hconsulted, hfound⟩
  · rw [hnone]
    simp only [Bool.false_eq_true, false_iff, not_and]
    rintro ⟨pattern, hmem, hmatches⟩
    exact (hall pattern hmem (text_of_matchesText hmatches)).elim
  · rw [← matchesText_consulted_iff hconsulted, hfound]
    exact matchesText_iff

theorem specialPath_iff {lib : Library} {lookup : RouteEntry → SpecialPathsEntry}
    (hroute : router.root.longestPrefix (space.path ++ path) = some (mount, re))
    (hparse : parseSpecialPaths lib patterns = .ok (lookup re)) :
    specialPath router space path lookup = true ↔
      (∃ pattern ∈ patterns, hasPlus pattern = true ∧
          MatchesSpecial pattern (remaining space path mount)) ∨
        (∃ pattern ∈ patterns.filter (!hasPlus ·),
            MatchesText pattern (remaining space path mount)) ∧
          ¬ Hidden (patterns.filter (!hasPlus ·)) (remaining space path mount) := by
  obtain ⟨hpaths, hwildcards, hvalid⟩ := parseSpecialPaths_eq_ok hparse
  have hwild : ((lookup re).wildcardPaths.any fun w =>
      pathMatchesWildcardPath (splitByte 0x2f (remaining space path mount)) w.segments
        w.isPrefix) = true ↔
      ∃ pattern ∈ patterns, hasPlus pattern = true ∧
        MatchesSpecial pattern (remaining space path mount) := by
    rw [hwildcards, List.any_map, List.any_eq_true]
    simp only [List.mem_filter, and_assoc]
    refine exists_congr fun pattern => and_congr_right fun hmem => and_congr_right fun hplus => ?_
    rw [MatchesSpecial, if_pos hplus]
    exact pathMatchesWildcardPath_iff (no_plus_star_of_valid (hvalid pattern hmem)) _
  simp only [specialPath, hroute]
  rw [hpaths]
  rcases longestPrefix_pathsToRadix (patterns.filter (!hasPlus ·)) (remaining space path mount)
    with ⟨hnone, hall⟩ | ⟨pattern, hconsulted, hfound⟩
  · rw [hnone]
    refine hwild.trans ⟨.inl, ?_⟩
    rintro (h | ⟨⟨pattern, hmem, hmatches⟩, _⟩)
    · exact h
    · exact (hall pattern hmem (text_of_matchesText hmatches)).elim
  rw [hfound, ← matchesText_consulted_iff hconsulted, ← hwild, ← matchesText_iff]
  have hstarts := hasPrefix_iff.mpr hconsulted.1
  cases hstar : hasSuffix pattern (ofString "*") with
  | true => simp [hstarts]
  | false => by_cases hsame : text pattern = remaining space path mount <;> simp [hsame]

/-- The answer is true exactly for the paths that a pattern matches. -/
def Exact (answer : Bool) (patterns : List GoString) (means : GoString → GoString → Prop)
    (remain : GoString) : Prop :=
  answer = true ↔ ∃ pattern ∈ patterns, means pattern remain

/-- A hidden pattern does no harm where a pattern with `+` matches. -/
def NothingHidden (patterns : List GoString) (remain : GoString) : Prop :=
  Hidden (patterns.filter (!hasPlus ·)) remain →
    ∃ pattern ∈ patterns, hasPlus pattern = true ∧ MatchesSpecial pattern remain

theorem Hidden.matches {patterns : List GoString} {remain : GoString}
    (h : Hidden patterns remain) : ∃ pattern ∈ patterns, MatchesText pattern remain := by
  obtain ⟨⟨pattern, hmem, hstar, hstarts⟩, _⟩ := h
  refine ⟨pattern, hmem, ?_⟩
  rw [MatchesText, if_pos hstar]
  exact hstarts

theorem exact_rootPath_iff
    (hroute : router.root.longestPrefix (space.path ++ path) = some (mount, re))
    (hroot : re.rootPaths = pathsToRadix patterns) :
    Exact (rootPath router space path) patterns MatchesText (remaining space path mount) ↔
      ¬ Hidden patterns (remaining space path mount) := by
  rw [Exact, rootPath_iff hroute hroot]
  constructor
  · intro h hhidden
    exact (h.mpr hhidden.matches).2 hhidden
  · intro hhidden
    exact and_iff_left hhidden

theorem exact_specialPath_iff {lib : Library} {lookup : RouteEntry → SpecialPathsEntry}
    (hroute : router.root.longestPrefix (space.path ++ path) = some (mount, re))
    (hparse : parseSpecialPaths lib patterns = .ok (lookup re)) :
    Exact (specialPath router space path lookup) patterns MatchesSpecial
        (remaining space path mount) ↔
      NothingHidden patterns (remaining space path mount) := by
  rw [Exact, specialPath_iff hroute hparse, NothingHidden]
  have hplain : (∃ pattern ∈ patterns.filter (!hasPlus ·),
      MatchesText pattern (remaining space path mount)) ↔
        ∃ pattern ∈ patterns, hasPlus pattern = false ∧
          MatchesSpecial pattern (remaining space path mount) := by
    simp only [List.mem_filter, Bool.not_eq_true', and_assoc]
    refine exists_congr fun pattern => and_congr_right fun _ => and_congr_right fun hplus => ?_
    rw [MatchesSpecial, if_neg (Bool.eq_false_iff.mp hplus)]
  constructor
  · intro h hhidden
    obtain ⟨pattern, hmem, _, hmatches⟩ := hplain.mp hhidden.matches
    rcases h.mpr ⟨pattern, hmem, hmatches⟩ with hplus | ⟨_, hnot⟩
    · exact hplus
    · exact (hnot hhidden).elim
  intro h
  constructor
  · rintro (⟨pattern, hmem, _, hmatches⟩ | ⟨hmatches, _⟩)
    · exact ⟨pattern, hmem, hmatches⟩
    · obtain ⟨pattern, hmem, _, hmatches⟩ := hplain.mp hmatches
      exact ⟨pattern, hmem, hmatches⟩
  rintro ⟨pattern, hmem, hmatches⟩
  by_cases hhidden : Hidden (patterns.filter (!hasPlus ·)) (remaining space path mount)
  · exact .inl (h hhidden)
  · cases hplus : hasPlus pattern with
    | true => exact .inl ⟨pattern, hmem, hplus, hmatches⟩
    | false => exact .inr ⟨hplain.mpr ⟨pattern, hmem, hplus, hmatches⟩, hhidden⟩

/-- Each of the five questions is answered as the declared patterns mean iff no pattern with an
asterisk is hidden behind a longer exact one. -/
theorem special_paths_exact_iff {lib : Library} {router : Router} {space : Namespace}
    {path mount : GoString} {re : RouteEntry} {paths : Paths}
    (hroute : router.root.longestPrefix (space.path ++ path) = some (mount, re))
    (hentry : routeEntry lib paths = .ok re) :
    let remain := remaining space path mount
    (Exact (loginPath router space path) paths.unauthenticated MatchesSpecial remain ↔
        NothingHidden paths.unauthenticated remain) ∧
      (Exact (binaryPath router space path) paths.binary MatchesSpecial remain ↔
        NothingHidden paths.binary remain) ∧
      (Exact (limitedPath router space path) paths.limited MatchesSpecial remain ↔
        NothingHidden paths.limited remain) ∧
      (Exact (allowSnapshotReadPath router space path) paths.allowSnapshotRead MatchesSpecial
          remain ↔
        NothingHidden paths.allowSnapshotRead remain) ∧
      (Exact (rootPath router space path) paths.root MatchesText remain ↔
        ¬ Hidden paths.root remain) := by
  obtain ⟨login, hlogin, hentry⟩ := bind_eq_ok.mp hentry
  obtain ⟨binary, hbinary, hentry⟩ := bind_eq_ok.mp hentry
  obtain ⟨limited, hlimited, hentry⟩ := bind_eq_ok.mp hentry
  obtain ⟨snapshot, hsnapshot, hentry⟩ := bind_eq_ok.mp hentry
  cases hentry
  refine ⟨?_, ?_, ?_, ?_, ?_⟩
  · exact exact_specialPath_iff hroute hlogin
  · exact exact_specialPath_iff hroute hbinary
  · exact exact_specialPath_iff hroute hlimited
  · exact exact_specialPath_iff hroute hsnapshot
  · exact exact_rootPath_iff hroute rfl

/-! One mount -/

-- The same patterns need sudo and are open without a token.
def bothPaths (patterns : List String) : Paths where
  root := patterns.map ofString
  unauthenticated := patterns.map ofString

def oneMount (re : RouteEntry) : Router where
  root := AList.singleton (ofString "kv/") re

theorem route_oneMount (re : RouteEntry) :
    (oneMount re).root.longestPrefix (rootSpace.path ++ ofString "kv/foo/bar/x") =
      some (ofString "kv/", re) :=
  rfl

/-- Below an exact pattern the shorter pattern with an asterisk is not found. -/
theorem exact_pattern_hides :
    ∃ re, routeEntry plainLibrary (bothPaths ["foo/*", "foo/bar"]) = .ok re ∧
      (oneMount re).root.longestPrefix (rootSpace.path ++ ofString "kv/foo/bar/x") =
        some (ofString "kv/", re) ∧
      (∃ pattern ∈ (bothPaths ["foo/*", "foo/bar"]).unauthenticated,
        MatchesSpecial pattern
          (remaining rootSpace (ofString "kv/foo/bar/x") (ofString "kv/"))) ∧
      loginPath (oneMount re) rootSpace (ofString "kv/foo/bar/x") = false ∧
      (∃ pattern ∈ (bothPaths ["foo/*", "foo/bar"]).root,
        MatchesText pattern (remaining rootSpace (ofString "kv/foo/bar/x") (ofString "kv/"))) ∧
      rootPath (oneMount re) rootSpace (ofString "kv/foo/bar/x") = false := by
  have hstarts : ofString "foo/" <+: ofString "foo/bar/x" := by decide
  exact ⟨_, rfl, rfl, ⟨_, (.head _), hstarts⟩, rfl, ⟨_, (.head _), hstarts⟩, rfl⟩

theorem longer_asterisk_found :
    ∃ re, routeEntry plainLibrary (bothPaths ["foo", "foo/bar/*"]) = .ok re ∧
      Exact (rootPath (oneMount re) rootSpace (ofString "kv/foo/bar/x"))
        (bothPaths ["foo", "foo/bar/*"]).root MatchesText
        (remaining rootSpace (ofString "kv/foo/bar/x") (ofString "kv/")) := by
  obtain ⟨re, hentry⟩ : ∃ re, routeEntry plainLibrary (bothPaths ["foo", "foo/bar/*"]) = .ok re :=
    ⟨_, rfl⟩
  refine ⟨re, hentry, ?_⟩
  apply (special_paths_exact_iff (route_oneMount re) hentry).2.2.2.2.mpr
  rintro ⟨_, pattern, hconsulted, hstar, _⟩
  have hlonger := hconsulted.2.1 (ofString "foo/bar/*") (by decide) (by decide)
  have hmem := hconsulted.mem
  obtain rfl | rfl : pattern = ofString "foo" ∨ pattern = ofString "foo/bar/*" := by
    simpa [bothPaths] using hmem
  · exact absurd hlonger (by decide)
  · cases hstar

end VaultProofs.SpecialPaths
