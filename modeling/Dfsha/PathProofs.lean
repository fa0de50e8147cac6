import Mathlib.Data.List.Basic

/-! # Errors and virtual paths

    The exceptions a mutation can raise, and the path code every operation
    starts with: `_parts` cuts a virtual path into names, `_canonical_path`
    writes the names back as the key of the lock table.

    The one fact the rest of the development needs is that the round trip is
    lossless: a canonical path parses to the names it was written from
    (`parts_pathKey`), so a lock, a reservation and a commit that agree on the
    key agree on the file. -/

namespace DfshaPath

/-- The exception classes that the control plane can raise or record. -/
inductive ErrorClass where
  | dfshaError
  | invalidPathError
  | pathNotFoundError
  | pathExistsError
  | notEmptyError
  | notAFileError
  | notADirectoryError
  | conflictError
  | accessDeniedError
  -- raised by the interpreter itself, not subclasses of DFShaError
  | zeroDivisionError
  | indexError
  | valueError
  | typeError
  | attributeError
deriving DecidableEq

/-- Whether `except DFShaError` catches the class. -/
def ErrorClass.isDomain : ErrorClass → Bool
  | .zeroDivisionError => false
  | .indexError => false
  | .valueError => false
  | .typeError => false
  | .attributeError => false
  | _ => true

structure PyError where
  cls : ErrorClass
  message : String
deriving DecidableEq

/-! ## Text formatting of the messages -/

/-- `repr` of a string: quoted, with the quote, the backslash and what is not
    printable escaped.  Only up to U+00FF: which characters beyond it are
    printable is a table of Unicode, and they all stand as they are. -/
def pyRepr (s : String) : String :=
  let single := Char.ofNat 39
  let double := Char.ofNat 34
  let backslash := Char.ofNat 92
  let quote := if single ∈ s.toList ∧ double ∉ s.toList then double else single
  let hex := fun n => Nat.digitChar (n % 16)
  let escape := fun c : Char =>
    if c = quote ∨ c = backslash then [backslash, c]
    else if c.toNat = 10 then [backslash, 'n']
    else if c.toNat = 13 then [backslash, 'r']
    else if c.toNat = 9 then [backslash, 't']
    else if c.toNat < 32 ∨ (127 ≤ c.toNat ∧ c.toNat ≤ 160) ∨ c.toNat = 173 then
      [backslash, 'x', hex (c.toNat / 16), hex c.toNat]
    else [c]
  String.ofList (quote :: (s.toList.flatMap escape ++ [quote]))

/-- `repr` of a list of strings. -/
def pyReprList (l : List String) : String :=
  "[" ++ ", ".intercalate (l.map pyRepr) ++ "]"

/-! ## Splitting and joining at slashes -/

/-- `text.split("/")` on the characters. -/
def splitSlash : List Char → List (List Char)
  | [] => [[]]
  | c :: cs =>
      if c = '/' then [] :: splitSlash cs
      else match splitSlash cs with
        | [] => [[c]]
        | w :: ws => (c :: w) :: ws

/-- `text.strip("/")` on the characters. -/
def stripSlash (cs : List Char) : List Char :=
  ((cs.dropWhile (· = '/')).reverse.dropWhile (· = '/')).reverse

/-- `"/".join(words)` on the characters. -/
def joinSlash : List (List Char) → List Char
  | [] => []
  | [w] => w
  | w :: w₂ :: ws => w ++ '/' :: joinSlash (w₂ :: ws)

/-- `"/".join(parts)`. -/
def joinParts (parts : List String) : String :=
  String.ofList (joinSlash (parts.map String.toList))

/-- `_parts`: the names of a virtual path, or an error if it climbs. -/
def parts (virtualPath : String) : Except PyError (List String) :=
  if ['.', '.'] ∈ splitSlash virtualPath.toList then
    .error ⟨.invalidPathError, s!"la ruta contiene '..': {pyRepr virtualPath}"⟩
  else
    .ok (((splitSlash (stripSlash virtualPath.toList)).filter (· ≠ [])).map
      String.ofList)

/-- The key under which a list of names is written: `"/" + "/".join(parts)`. -/
def pathKey (parts : List String) : String :=
  String.ofList ('/' :: joinSlash (parts.map String.toList))

/-- `_canonical_path`. -/
def canonicalPath (virtualPath : String) : Except PyError String := do
  let ps ← parts virtualPath
  pure (pathKey ps)

/-- A name that `_parts` can produce. -/
structure CleanName (name : String) : Prop where
  nonempty : name.toList ≠ []
  noSlash : '/' ∉ name.toList
  noClimb : name.toList ≠ ['.', '.']

theorem splitSlash_ne_nil (cs : List Char) : splitSlash cs ≠ [] := by
  cases cs with
  | nil => exact List.cons_ne_nil _ _
  | cons c cs =>
      rw [splitSlash]
      by_cases hc : c = '/'
      · rw [if_pos hc]
        exact List.cons_ne_nil _ _
      · rw [if_neg hc]
        cases splitSlash cs <;> exact List.cons_ne_nil _ _

theorem splitSlash_slash (cs : List Char) :
    splitSlash ('/' :: cs) = [] :: splitSlash cs := by
  rw [splitSlash, if_pos rfl]

theorem splitSlash_cons {c : Char} (hc : c ≠ '/') (cs : List Char) :
    ∃ w ws, splitSlash cs = w :: ws ∧ splitSlash (c :: cs) = (c :: w) :: ws := by
  cases h : splitSlash cs with
  | nil => exact absurd h (splitSlash_ne_nil cs)
  | cons w ws => exact ⟨w, ws, rfl, by rw [splitSlash, if_neg hc, h]⟩

/-- A slash separates the words on its two sides. -/
theorem splitSlash_append (a b : List Char) :
    splitSlash (a ++ '/' :: b) = splitSlash a ++ splitSlash b := by
  induction a with
  | nil => exact splitSlash_slash b
  | cons c a ih =>
      by_cases hc : c = '/'
      · rw [hc, List.cons_append, splitSlash_slash, splitSlash_slash, ih]
        rfl
      · obtain ⟨w, ws, hw, hcw⟩ := splitSlash_cons hc a
        obtain ⟨w', ws', hw', hcw'⟩ := splitSlash_cons hc (a ++ '/' :: b)
        rw [ih, hw] at hw'
        obtain ⟨rfl, rfl⟩ := List.cons.inj hw'
        rw [List.cons_append, hcw, hcw']
        rfl

theorem splitSlash_word {w : List Char} (hw : '/' ∉ w) : splitSlash w = [w] := by
  induction w with
  | nil => rfl
  | cons c w ih =>
      rw [List.mem_cons, not_or] at hw
      obtain ⟨v, vs, hv, hcv⟩ := splitSlash_cons (fun h => hw.1 h.symm) w
      rw [ih hw.2] at hv
      obtain ⟨rfl, rfl⟩ := List.cons.inj hv
      exact hcv

theorem slash_not_mem_splitSlash {cs w : List Char} (h : w ∈ splitSlash cs) :
    '/' ∉ w := by
  induction cs generalizing w with
  | nil =>
      rw [splitSlash, List.mem_singleton] at h
      rw [h]
      exact List.not_mem_nil
  | cons c cs ih =>
      by_cases hc : c = '/'
      · rw [hc, splitSlash_slash] at h
        rcases List.mem_cons.mp h with heq | hmem
        · rw [heq]
          exact List.not_mem_nil
        · exact ih hmem
      · obtain ⟨v, vs, hv, hcv⟩ := splitSlash_cons hc cs
        rw [hcv] at h
        rcases List.mem_cons.mp h with heq | hmem
        · rw [heq, List.mem_cons, not_or]
          exact ⟨fun hs => hc hs.symm, ih (hv ▸ List.mem_cons_self)⟩
        · exact ih (hv ▸ List.mem_cons_of_mem _ hmem)

/-- The words of a text: its nonempty pieces between slashes. -/
def words (cs : List Char) : List (List Char) :=
  (splitSlash cs).filter (· ≠ [])

theorem words_slash (cs : List Char) : words ('/' :: cs) = words cs := by
  rw [words, splitSlash_slash]
  rfl

theorem words_append_slash (cs : List Char) : words (cs ++ ['/']) = words cs := by
  rw [words, splitSlash_append, List.filter_append]
  exact List.append_nil _

theorem words_dropWhile (cs : List Char) :
    words (cs.dropWhile (· = '/')) = words cs := by
  induction cs with
  | nil => rfl
  | cons c cs ih =>
      by_cases hc : c = '/'
      · rw [List.dropWhile_cons_of_pos (by simp [hc]), ih, hc, words_slash]
      · rw [List.dropWhile_cons_of_neg (by simp [hc])]

/-- Stripping the slashes at both ends changes no word. -/
theorem words_stripSlash (cs : List Char) : words (stripSlash cs) = words cs := by
  have htail : ∀ l : List Char,
      words (l.dropWhile (· = '/')).reverse = words l.reverse := by
    intro l
    induction l with
    | nil => rfl
    | cons c l ih =>
        by_cases hc : c = '/'
        · rw [List.dropWhile_cons_of_pos (by simp [hc]), ih, hc,
            List.reverse_cons, words_append_slash]
        · rw [List.dropWhile_cons_of_neg (by simp [hc])]
  rw [stripSlash, htail, List.reverse_reverse, words_dropWhile]

theorem words_joinSlash {ws : List (List Char)}
    (h : ∀ w ∈ ws, w ≠ [] ∧ '/' ∉ w) : words (joinSlash ws) = ws := by
  induction ws with
  | nil => rfl
  | cons w ws ih =>
      obtain ⟨hne, hns⟩ := h w List.mem_cons_self
      have hword : words w = [w] := by
        rw [words, splitSlash_word hns]
        simp [hne]
      cases ws with
      | nil => exact hword
      | cons w₂ ws =>
          have hrest := ih fun v hv => h v (List.mem_cons_of_mem _ hv)
          rw [joinSlash, words, splitSlash_append, List.filter_append]
          show words w ++ words (joinSlash (w₂ :: ws)) = _
          rw [hword, hrest]
          rfl

/-- What a successful `_parts` returns, and what it has checked. -/
theorem parts_ok_iff {v : String} {ps : List String} :
    parts v = .ok ps ↔
      ['.', '.'] ∉ splitSlash v.toList ∧ ps = (words v.toList).map String.ofList := by
  rw [parts]
  have hw : (splitSlash (stripSlash v.toList)).filter (· ≠ []) = words v.toList :=
    words_stripSlash v.toList
  by_cases hc : ['.', '.'] ∈ splitSlash v.toList
  · simp [hc]
  · rw [if_neg hc, hw]
    constructor
    · intro h
      injection h with h
      exact ⟨hc, h.symm⟩
    · rintro ⟨-, h⟩
      rw [h]

theorem cleanName_of_parts {v : String} {ps : List String}
    (h : parts v = .ok ps) : ∀ n ∈ ps, CleanName n := by
  obtain ⟨hc, rfl⟩ := parts_ok_iff.mp h
  intro n hn
  obtain ⟨w, hw, rfl⟩ := List.mem_map.mp hn
  rw [words, List.mem_filter] at hw
  refine ⟨?_, ?_, ?_⟩
  · rw [String.toList_ofList]
    simpa using hw.2
  · rw [String.toList_ofList]
    exact slash_not_mem_splitSlash hw.1
  · rw [String.toList_ofList]
    intro hdots
    exact hc (hdots ▸ hw.1)

/-- **THE ROUND TRIP**: a key parses to the names it was written from. -/
theorem parts_pathKey {ps : List String} (h : ∀ n ∈ ps, CleanName n) :
    parts (pathKey ps) = .ok ps := by
  have hclean : ∀ w ∈ ps.map String.toList, w ≠ [] ∧ '/' ∉ w := by
    intro w hw
    obtain ⟨n, hn, rfl⟩ := List.mem_map.mp hw
    exact ⟨(h n hn).nonempty, (h n hn).noSlash⟩
  have hwords : words (pathKey ps).toList = ps.map String.toList := by
    rw [pathKey, String.toList_ofList, words_slash, words_joinSlash hclean]
  refine parts_ok_iff.mpr ⟨?_, ?_⟩
  · intro hdots
    have hmem : ['.', '.'] ∈ words (pathKey ps).toList :=
      List.mem_filter.mpr ⟨hdots, by simp⟩
    rw [hwords] at hmem
    obtain ⟨n, hn, heq⟩ := List.mem_map.mp hmem
    exact (h n hn).noClimb heq
  · rw [hwords, List.map_map]
    have hid : String.ofList ∘ String.toList = id := by
      funext s
      exact String.ofList_toList
    rw [hid, List.map_id]

theorem canonicalPath_of_parts {p : String} {ps : List String} (h : parts p = .ok ps) :
    canonicalPath p = .ok (pathKey ps) := by
  rw [canonicalPath, h]
  rfl

theorem canonicalPath_ok {v c : String} (h : canonicalPath v = .ok c) :
    ∃ ps, parts v = .ok ps ∧ c = pathKey ps ∧ parts c = .ok ps := by
  rw [canonicalPath] at h
  cases hp : parts v with
  | error e => rw [hp] at h; exact nomatch h
  | ok ps =>
      rw [hp] at h
      have hc : pathKey ps = c := Except.ok.inj h
      exact ⟨ps, rfl, hc.symm, hc ▸ parts_pathKey (cleanName_of_parts hp)⟩

/-- Keys identify paths. -/
theorem pathKey_inj {ps qs : List String} (hp : ∀ n ∈ ps, CleanName n)
    (hq : ∀ n ∈ qs, CleanName n) (h : pathKey ps = pathKey qs) : ps = qs := by
  have h1 := parts_pathKey hp
  rw [h, parts_pathKey hq] at h1
  exact (Except.ok.inj h1).symm

example : parts "/docs//a.txt/" = .ok ["docs", "a.txt"] := by decide

end DfshaPath
