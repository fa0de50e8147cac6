import Dfsha.PathNamesProofs

/-! # Paths in the shell

    The shell has a current directory, and its commands take paths relative to
    it.  `resolve_relative` joins and normalises them as POSIX does: it drops
    `.`, and `..` takes the name before it away, up to the root.  The control
    node does neither: it refuses every path with `..`.

    What comes out of the shell is absolute and has no `.` or `..` left
    (`Settled`), so the control node reads off it the names that a walk from
    the current directory ends at.  POSIX keeps two slashes at the start of a
    path; for the control node they are one. -/

namespace DfshaShellPaths

open DfshaPath DfshaPathNames

/-! ## The code -/

/-- `posixpath.join(a, b)`. -/
def join (a b : List Char) : List Char :=
  if b.head? = some '/' then b
  else if a = [] ∨ a.getLast? = some '/' then a ++ b
  else a ++ '/' :: b

/-- The slashes that `normpath` keeps at the start: two stay, more are one. -/
def initialSlashes : List Char → Nat
  | '/' :: '/' :: '/' :: _ => 1
  | '/' :: '/' :: _ => 2
  | '/' :: _ => 1
  | _ => 0

/-- A turn of the loop of `normpath`. -/
def normStep (slashes : Nat) (comps : List (List Char)) (comp : List Char) :
    List (List Char) :=
  if comp = [] ∨ comp = ['.'] then comps
  else if comp ≠ ['.', '.'] ∨ (slashes = 0 ∧ comps = []) ∨
      comps.getLast? = some ['.', '.'] then comps ++ [comp]
  else comps.dropLast

/-- `posixpath.normpath`. -/
def normpath (path : List Char) : List Char :=
  if path = [] then ['.']
  else
    let slashes := initialSlashes path
    let comps := (splitSlash path).foldl (normStep slashes) []
    let text := List.replicate slashes '/' ++ joinSlash comps
    if text = [] then ['.'] else text

def resolveRelative (currentDir target : String) : String :=
  let joined :=
    if target.toList.head? = some '/' then target.toList
    else join currentDir.toList target.toList
  let normalized := normpath joined
  if normalized = ['.'] then "/" else String.ofList normalized

/-! ## Walking -/

/-- From the directory of these names, follow one component of a path. -/
def follow (at' : List (List Char)) (comp : List Char) : List (List Char) :=
  if comp = [] ∨ comp = ['.'] then at'
  else if comp = ['.', '.'] then at'.dropLast
  else at' ++ [comp]

/-- Where a path leads from a directory. -/
def walk (at' : List (List Char)) (path : List Char) : List (List Char) :=
  (splitSlash path).foldl follow (if path.head? = some '/' then [] else at')

/-- A name that is none of the special ones. -/
structure PlainName (w : List Char) : Prop where
  nonempty : w ≠ []
  noSlash : '/' ∉ w
  noDot : w ≠ ['.']
  noClimb : w ≠ ['.', '.']

/-- The path is absolute and spells its names out. -/
def Settled (path : String) : Prop :=
  ∃ slashes ws, (slashes = 1 ∨ slashes = 2) ∧ (∀ w ∈ ws, PlainName w) ∧
    path.toList = List.replicate slashes '/' ++ joinSlash ws

theorem settled_root : Settled "/" := ⟨1, [], .inl rfl, by simp, rfl⟩

theorem plain_follow {ws : List (List Char)} {comp : List Char}
    (hws : ∀ w ∈ ws, PlainName w) (hcomp : '/' ∉ comp) :
    ∀ w ∈ follow ws comp, PlainName w := by
  unfold follow
  by_cases hdot : comp = [] ∨ comp = ['.']
  · rw [if_pos hdot]
    exact hws
  · rw [if_neg hdot]
    by_cases hclimb : comp = ['.', '.']
    · rw [if_pos hclimb]
      exact fun w hw => hws w (List.mem_of_mem_dropLast hw)
    · rw [if_neg hclimb]
      intro w hw
      rcases List.mem_append.mp hw with hold | hnew
      · exact hws w hold
      · obtain rfl := List.mem_singleton.mp hnew
        rw [not_or] at hdot
        exact ⟨hdot.1, hcomp, hdot.2, hclimb⟩

theorem plain_foldl {comps ws : List (List Char)} (hws : ∀ w ∈ ws, PlainName w)
    (hcomps : ∀ comp ∈ comps, '/' ∉ comp) : ∀ w ∈ comps.foldl follow ws, PlainName w := by
  induction comps generalizing ws with
  | nil => exact hws
  | cons comp comps ih =>
      rw [List.foldl_cons]
      exact ih (plain_follow hws (hcomps comp List.mem_cons_self))
        fun comp' h => hcomps comp' (List.mem_cons_of_mem _ h)

/-! ## What `normpath` does -/

/-- Below a slash, the loop walks. -/
theorem normStep_eq_follow {slashes : Nat} {comps : List (List Char)} {comp : List Char}
    (hslashes : slashes ≠ 0) (hplain : ∀ w ∈ comps, PlainName w) :
    normStep slashes comps comp = follow comps comp := by
  have hlast : comps.getLast? ≠ some ['.', '.'] := fun h =>
    (hplain _ (List.mem_of_getLast? h)).noClimb rfl
  unfold normStep follow
  by_cases hdot : comp = [] ∨ comp = ['.']
  · rw [if_pos hdot, if_pos hdot]
  · rw [if_neg hdot, if_neg hdot]
    by_cases hclimb : comp = ['.', '.']
    · rw [if_pos hclimb, if_neg]
      rintro (h | ⟨h, _⟩ | h)
      · exact h hclimb
      · exact hslashes h
      · exact hlast h
    · rw [if_neg hclimb, if_pos (.inl hclimb)]

theorem foldl_normStep {slashes : Nat} {comps ws : List (List Char)} (hslashes : slashes ≠ 0)
    (hws : ∀ w ∈ ws, PlainName w) (hcomps : ∀ comp ∈ comps, '/' ∉ comp) :
    comps.foldl (normStep slashes) ws = comps.foldl follow ws := by
  induction comps generalizing ws with
  | nil => rfl
  | cons comp comps ih =>
      rw [List.foldl_cons, List.foldl_cons, normStep_eq_follow hslashes hws]
      exact ih (plain_follow hws (hcomps comp List.mem_cons_self))
        fun comp' h => hcomps comp' (List.mem_cons_of_mem _ h)

theorem initialSlashes_slash (cs : List Char) :
    initialSlashes ('/' :: cs) = 1 ∨ initialSlashes ('/' :: cs) = 2 := by
  unfold initialSlashes
  split <;> simp_all

/-- **AN ABSOLUTE PATH IS NORMALISED BY WALKING IT.** -/
theorem normpath_slash (cs : List Char) :
    normpath ('/' :: cs) = List.replicate (initialSlashes ('/' :: cs)) '/' ++
      joinSlash ((splitSlash ('/' :: cs)).foldl follow []) := by
  have hslashes := initialSlashes_slash cs
  have hfold : (splitSlash ('/' :: cs)).foldl (normStep (initialSlashes ('/' :: cs))) []
      = (splitSlash ('/' :: cs)).foldl follow [] := by
    refine foldl_normStep ?_ (by simp) fun comp h => slash_not_mem_splitSlash h
    omega
  rw [normpath, if_neg (List.cons_ne_nil _ _)]
  dsimp only
  rw [hfold, if_neg]
  intro h
  have hnil := (List.append_eq_nil_iff.mp h).1
  rw [List.replicate_eq_nil_iff] at hnil
  omega

/-! ## What the shell makes of a path -/

/-- A settled path starts with a slash. -/
theorem Settled.slash {path : String} (h : Settled path) : ∃ cs, path.toList = '/' :: cs := by
  obtain ⟨slashes, ws, hslashes, _, hlist⟩ := h
  rcases hslashes with rfl | rfl
  · exact ⟨_, hlist⟩
  · exact ⟨_, hlist⟩

/-- A settled path walks to its own names. -/
theorem foldl_follow_plain {ws before : List (List Char)} (hws : ∀ w ∈ ws, PlainName w) :
    ws.foldl follow before = before ++ ws := by
  induction ws generalizing before with
  | nil => rw [List.foldl_nil, List.append_nil]
  | cons w ws ih =>
      have hw := hws w List.mem_cons_self
      have hfollow : follow before w = before ++ [w] := by
        rw [follow, if_neg (by simp [hw.nonempty, hw.noDot]), if_neg hw.noClimb]
      rw [List.foldl_cons, hfollow, ih fun v h => hws v (List.mem_cons_of_mem _ h),
        List.append_assoc]
      rfl

/-- The empty components lead nowhere. -/
theorem foldl_follow_words (cs : List Char) (before : List (List Char)) :
    (splitSlash cs).foldl follow before = (words cs).foldl follow before := by
  rw [words]
  induction splitSlash cs generalizing before with
  | nil => rfl
  | cons w ws ih =>
      by_cases hw : w = []
      · subst hw
        rw [List.foldl_cons, List.filter_cons_of_neg (by simp)]
        exact ih _
      · rw [List.foldl_cons, List.filter_cons_of_pos (by simp [hw]), List.foldl_cons]
        exact ih _

theorem words_replicate_slash (n : Nat) (cs : List Char) :
    words (List.replicate n '/' ++ cs) = words cs := by
  induction n with
  | zero => rfl
  | succ n ih => rw [List.replicate_succ, List.cons_append, words_slash, ih]

theorem words_settled {slashes : Nat} {ws : List (List Char)} (hws : ∀ w ∈ ws, PlainName w) :
    words (List.replicate slashes '/' ++ joinSlash ws) = ws := by
  rw [words_replicate_slash]
  exact words_joinSlash fun w h => ⟨(hws w h).nonempty, (hws w h).noSlash⟩

/-- The control node reads the names of a settled path. -/
theorem parts_settled {slashes : Nat} {ws : List (List Char)} {path : String}
    (hws : ∀ w ∈ ws, PlainName w)
    (hpath : path.toList = List.replicate slashes '/' ++ joinSlash ws) :
    parts path = .ok (ws.map String.ofList) := by
  refine parts_ok_iff.mpr ⟨?_, ?_⟩
  · intro hclimbs
    have hmem : ['.', '.'] ∈ words path.toList := List.mem_filter.mpr ⟨hclimbs, by simp⟩
    rw [hpath, words_settled hws] at hmem
    exact (hws _ hmem).noClimb rfl
  · rw [hpath, words_settled hws]

/-- The names of a settled path. -/
def names (path : String) : List (List Char) := words path.toList

theorem plain_names {path : String} (h : Settled path) : ∀ w ∈ names path, PlainName w := by
  obtain ⟨slashes, ws, _, hws, hlist⟩ := h
  rw [names, hlist, words_settled hws]
  exact hws

/-- The text that `resolve_relative` normalises, for a path that is not
    absolute: it walks to the current directory first. -/
theorem foldl_join {currentDir target : List Char} (hdir : ∃ cs, currentDir = '/' :: cs)
    (htarget : target.head? ≠ some '/') :
    (∃ cs, join currentDir target = '/' :: cs) ∧
      (splitSlash (join currentDir target)).foldl follow []
        = (splitSlash target).foldl follow ((splitSlash currentDir).foldl follow []) := by
  obtain ⟨cs, rfl⟩ := hdir
  unfold join
  rw [if_neg htarget]
  by_cases hlast : ('/' :: cs) = [] ∨ ('/' :: cs).getLast? = some '/'
  · rw [if_pos hlast]
    refine ⟨⟨_, List.cons_append⟩, ?_⟩
    -- the directory ends in the slash that separates the two
    have hslash := hlast.resolve_left (List.cons_ne_nil _ _)
    obtain ⟨init, hinit⟩ := List.getLast?_eq_some_iff.mp hslash
    rw [hinit, List.append_assoc, List.singleton_append, splitSlash_append, List.foldl_append,
      splitSlash_append, List.foldl_append]
    rfl
  · rw [if_neg hlast]
    refine ⟨⟨_, List.cons_append⟩, ?_⟩
    rw [splitSlash_append, List.foldl_append]

/-- **A PATH OF THE SHELL LEADS WHERE WALKING IT LEADS**: what the shell makes
    of it is absolute, has no `.` or `..`, and names for the control node what
    a walk from the current directory ends at. -/
theorem resolve_follows_the_names {currentDir : String} (hdir : Settled currentDir)
    (target : String) :
    Settled (resolveRelative currentDir target) ∧
      names (resolveRelative currentDir target) = walk (names currentDir) target.toList := by
  have hresolved : ∀ cs : List Char, ∀ ws : List (List Char),
      (splitSlash ('/' :: cs)).foldl follow [] = ws →
      Settled (String.ofList (normpath ('/' :: cs))) ∧
        names (String.ofList (normpath ('/' :: cs))) = ws ∧ normpath ('/' :: cs) ≠ ['.'] := by
    rintro cs ws rfl
    have hplain : ∀ w ∈ (splitSlash ('/' :: cs)).foldl follow [], PlainName w :=
      plain_foldl (by simp) fun comp h => slash_not_mem_splitSlash h
    refine ⟨⟨_, _, initialSlashes_slash cs, hplain, ?_⟩, ?_, ?_⟩
    · rw [String.toList_ofList, normpath_slash]
    · rw [names, String.toList_ofList, normpath_slash, words_settled hplain]
    · rw [normpath_slash]
      rcases initialSlashes_slash cs with hone | htwo
      · rw [hone]
        exact fun h => absurd (List.cons.inj h).1 (by decide)
      · rw [htwo]
        exact fun h => absurd (List.cons.inj h).1 (by decide)
  have hnames : (splitSlash currentDir.toList).foldl follow [] = names currentDir := by
    rw [foldl_follow_words]
    exact (foldl_follow_plain (plain_names hdir)).trans (List.nil_append _)
  unfold resolveRelative walk
  by_cases habsolute : target.toList.head? = some '/'
  · rw [if_pos habsolute, if_pos habsolute]
    obtain ⟨cs, hcs⟩ := List.head?_eq_some_iff.mp habsolute
    rw [hcs]
    obtain ⟨hsettled, hwalk, hne⟩ := hresolved cs _ rfl
    dsimp only
    rw [if_neg hne]
    exact ⟨hsettled, hwalk⟩
  · rw [if_neg habsolute, if_neg habsolute]
    obtain ⟨⟨cs, hcs⟩, hfold⟩ := foldl_join hdir.slash habsolute
    rw [hnames] at hfold
    rw [hcs] at hfold ⊢
    obtain ⟨hsettled, hwalk, hne⟩ := hresolved cs _ hfold
    dsimp only
    rw [if_neg hne]
    exact ⟨hsettled, hwalk⟩

/-- What the control node makes of a path of the shell. -/
theorem parts_resolveRelative {currentDir : String} (hdir : Settled currentDir)
    (target : String) :
    parts (resolveRelative currentDir target)
      = .ok ((walk (names currentDir) target.toList).map String.ofList) := by
  obtain ⟨⟨slashes, ws, hslashes, hws, hlist⟩, hnames⟩ := resolve_follows_the_names hdir target
  rw [parts_settled hws hlist, ← hnames, names, hlist, words_settled hws]

theorem walk_append {at' : List (List Char)} {a b : List Char} (ha : a ≠ [])
    (hb : b.head? ≠ some '/') : walk (walk at' a) b = walk at' (a ++ '/' :: b) := by
  have hhead : (a ++ '/' :: b).head? = a.head? := by
    cases a with
    | nil => exact absurd rfl ha
    | cons c a => rfl
  unfold walk
  rw [if_neg hb, hhead, splitSlash_append, List.foldl_append]

/-- **`cd a` AND THEN `b` IS `a/b`**, for the control node. -/
theorem resolve_resolve {currentDir a b : String} (hdir : Settled currentDir) (ha : a ≠ "")
    (hb : b.toList.head? ≠ some '/') :
    parts (resolveRelative (resolveRelative currentDir a) b)
      = parts (resolveRelative currentDir (a ++ "/" ++ b)) := by
  obtain ⟨hsettled, hnames⟩ := resolve_follows_the_names hdir a
  have hne : a.toList ≠ [] := fun h => ha (String.toList_eq_nil_iff.mp h)
  have htext : (a ++ "/" ++ b).toList = a.toList ++ '/' :: b.toList := by
    rw [String.toList_append, String.toList_append, List.append_assoc]
    rfl
  rw [parts_resolveRelative hsettled, parts_resolveRelative hdir, hnames, htext,
    walk_append hne hb]

/-- The working directory after these `cd`. -/
def workingDirectory (targets : List String) : String := targets.foldl resolveRelative "/"

/-- Where walking the same targets from the root ends. -/
def walked (targets : List String) : List (List Char) :=
  targets.foldl (fun at' target => walk at' target.toList) []

theorem workingDirectory_spec (targets : List String) :
    Settled (workingDirectory targets) ∧ names (workingDirectory targets) = walked targets := by
  induction targets using List.reverseRecOn with
  | nil => exact ⟨settled_root, rfl⟩
  | append_singleton targets target ih =>
      obtain ⟨hsettled, hnames⟩ := ih
      obtain ⟨hsettled', hnames'⟩ := resolve_follows_the_names hsettled target
      rw [workingDirectory, walked, List.foldl_append, List.foldl_append]
      refine ⟨hsettled', hnames'.trans ?_⟩
      rw [hnames]
      rfl

/-- **EVERY WORKING DIRECTORY** that `cd` leads to from the root is settled, the
    control node reads off it what walking the same targets from the root ends
    at, and `cd a` and then `b` is `a/b`, if `a` is not empty. -/
theorem cds_lead_where_walking_leads (targets : List String) :
    Settled (workingDirectory targets) ∧
      parts (workingDirectory targets) = .ok ((walked targets).map String.ofList) ∧
      ∀ a b : String, a ≠ "" → b.toList.head? ≠ some '/' →
        parts (resolveRelative (resolveRelative (workingDirectory targets) a) b)
          = parts (resolveRelative (workingDirectory targets) (a ++ "/" ++ b)) := by
  obtain ⟨hsettled, hnames⟩ := workingDirectory_spec targets
  refine ⟨hsettled, ?_, fun a b ha hb => resolve_resolve hsettled ha hb⟩
  obtain ⟨slashes, ws, _, hws, hlist⟩ := hsettled
  rw [parts_settled hws hlist, ← hnames, names, hlist, words_settled hws]

example : resolveRelative "/docs/a" "../b/./c" = "/docs/b/c" := by decide

end DfshaShellPaths
