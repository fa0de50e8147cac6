import Mathlib.Data.List.Basic

/-! # The command line of the shell

    `split_command` cuts a line into arguments with `shlex`, with quotes and
    without an escape character, because a backslash separates the names of a
    Windows path.  `scan` is the automaton of `shlex` in that configuration:
    between words, in a word, or inside a quotation.

    `Line` says the same without an automaton: words between blanks, each word
    a sequence of characters and quotations.  The automaton accepts a line
    exactly when it is one of those, with the arguments that it writes, every
    other line breaks off inside a quotation, and every list of arguments can
    be written. -/

namespace DfshaCommandLine

/-! ## The code -/

/-- `shlex.whitespace`. -/
def isBlank (c : Char) : Bool := c = ' ' || c = '\t' || c = '\r' || c = '\n'

/-- `shlex.quotes`. -/
def isQuote (c : Char) : Bool := c = '\'' || c = '"'

/-- `shlex.state`: `' '`, `'a'`, or the quote that is open. -/
inductive LexState where
  | between
  | word
  | quotation (q : Char)
deriving DecidableEq

def noClosing : String := "No closing quotation"

/-- `list(lexer)`: the state, the token so far, and whether it has had a
    quotation, which makes it a token even if it is empty. -/
def scan : LexState → List Char → Bool → List Char → Except String (List (List Char))
  | .quotation _, _, _, [] => .error noClosing
  | _, token, quoted, [] => .ok (if token = [] ∧ quoted = false then [] else [token])
  | .quotation q, token, _, c :: cs =>
      if c = q then scan .word token true cs else scan (.quotation q) (token ++ [c]) true cs
  | .between, token, quoted, c :: cs =>
      if isBlank c then
        if token ≠ [] ∨ quoted = true then (scan .between [] false cs).map (token :: ·)
        else scan .between token quoted cs
      else if isQuote c then scan (.quotation c) token quoted cs
      else scan .word [c] quoted cs
  | .word, token, quoted, c :: cs =>
      if isBlank c then
        if token ≠ [] ∨ quoted = true then (scan .between [] false cs).map (token :: ·)
        else scan .between token quoted cs
      else if isQuote c then scan (.quotation c) token quoted cs
      else scan .word (token ++ [c]) quoted cs

def splitCommand (line : String) : Except String (List String) :=
  (scan .between [] false line.toList).map (List.map String.ofList)

/-! ## Lines -/

/-- A character that stands for itself, or a quotation. -/
inductive Piece : List Char → List Char → Prop
  | plain {c : Char} (hblank : isBlank c = false) (hquote : isQuote c = false) : Piece [c] [c]
  | quotation {q : Char} {text : List Char} (hq : isQuote q = true) (htext : q ∉ text) :
      Piece text (q :: (text ++ [q]))

/-- The argument and the text of a word: pieces with nothing between them. -/
inductive Word : List Char → List Char → Prop
  | one {arg text : List Char} (h : Piece arg text) : Word arg text
  | cons {arg text arg' text' : List Char} (h : Piece arg text) (hrest : Word arg' text') :
      Word (arg ++ arg') (text ++ text')

/-- What can follow a word: the end, or a blank. -/
def Ends (rest : List Char) : Prop := rest = [] ∨ ∃ c cs, rest = c :: cs ∧ isBlank c = true

/-- The arguments and the text of a line: words, with blanks around them. -/
inductive Line : List (List Char) → List Char → Prop
  | nil : Line [] []
  | blank {args : List (List Char)} {c : Char} {text : List Char} (hc : isBlank c = true)
      (h : Line args text) : Line args (c :: text)
  | word {arg text : List Char} {args : List (List Char)} {rest : List Char}
      (h : Word arg text) (hends : Ends rest) (hrest : Line args rest) :
      Line (arg :: args) (text ++ rest)

/-! ## The automaton reads a line -/

section Reading

variable {token text cs : List Char} {quoted : Bool}

theorem scan_quotation {q : Char} (h : q ∉ text) (flag : Bool) :
    scan (.quotation q) token flag (text ++ q :: cs) = scan .word (token ++ text) true cs := by
  induction text generalizing token flag with
  | nil => rw [List.nil_append, scan, if_pos rfl, List.append_nil]
  | cons c text ih =>
      rw [List.mem_cons, not_or] at h
      rw [List.cons_append, scan, if_neg fun hc => h.1 hc.symm, ih h.2, List.append_assoc]
      rfl

/-- A piece inside a word. -/
theorem scan_word_piece {arg : List Char} (h : Piece arg text) :
    ∃ quoted', (token ++ arg ≠ [] ∨ quoted' = true) ∧
      scan .word token quoted (text ++ cs) = scan .word (token ++ arg) quoted' cs := by
  cases h with
  | @plain c hblank hquote =>
      refine ⟨quoted, .inl (by simp), ?_⟩
      rw [List.singleton_append, scan, hblank, hquote]
      rfl
  | @quotation q text hq htext =>
      have hblank : isBlank q = false := by
        unfold isQuote at hq
        rw [Bool.or_eq_true, decide_eq_true_eq, decide_eq_true_eq] at hq
        rcases hq with rfl | rfl <;> rfl
      refine ⟨true, .inr rfl, ?_⟩
      rw [List.cons_append, List.append_assoc, List.singleton_append, scan, hblank, hq]
      exact scan_quotation htext quoted

/-- A piece that opens a word. -/
theorem scan_between_piece {arg : List Char} (h : Piece arg text) :
    ∃ quoted', (arg ≠ [] ∨ quoted' = true) ∧
      scan .between [] false (text ++ cs) = scan .word arg quoted' cs := by
  cases h with
  | @plain c hblank hquote =>
      refine ⟨false, .inl (by simp), ?_⟩
      rw [List.singleton_append, scan, hblank, hquote]
      rfl
  | @quotation q text hq htext =>
      have hblank : isBlank q = false := by
        unfold isQuote at hq
        rw [Bool.or_eq_true, decide_eq_true_eq, decide_eq_true_eq] at hq
        rcases hq with rfl | rfl <;> rfl
      refine ⟨true, .inr rfl, ?_⟩
      rw [List.cons_append, List.append_assoc, List.singleton_append, scan, hblank, hq]
      exact scan_quotation htext false

theorem scan_word_word {arg : List Char} (h : Word arg text) :
    ∃ quoted', (token ++ arg ≠ [] ∨ quoted' = true) ∧
      scan .word token quoted (text ++ cs) = scan .word (token ++ arg) quoted' cs := by
  induction h generalizing token quoted with
  | one h => exact scan_word_piece h
  | cons h _ ih =>
      obtain ⟨flag, _, hpiece⟩ := scan_word_piece h
      obtain ⟨flag', hopen, hrest⟩ := ih
      refine ⟨flag', ?_, ?_⟩
      · rw [← List.append_assoc]
        exact hopen
      · rw [List.append_assoc, hpiece, hrest, List.append_assoc]

/-- A word, between blanks. -/
theorem scan_between_word {arg : List Char} (h : Word arg text) :
    ∃ quoted', (arg ≠ [] ∨ quoted' = true) ∧
      scan .between [] false (text ++ cs) = scan .word arg quoted' cs := by
  cases h with
  | one h => exact scan_between_piece h
  | cons h hrest =>
      obtain ⟨flag, _, hpiece⟩ := scan_between_piece h
      obtain ⟨flag', hopen, hword⟩ := scan_word_word hrest
      exact ⟨flag', hopen, by rw [List.append_assoc, hpiece, hword]⟩

/-- Where a word ends, it is given out. -/
theorem scan_word_ends (hopen : token ≠ [] ∨ quoted = true) (hends : Ends cs) :
    scan .word token quoted cs = (scan .between [] false cs).map (token :: ·) := by
  rcases hends with rfl | ⟨c, cs, rfl, hc⟩
  · rw [scan, scan, if_neg, if_pos ⟨rfl, rfl⟩]
    · rfl
    · rintro ⟨htoken, hquoted⟩
      rcases hopen with h | h
      · exact h htoken
      · rw [hquoted] at h
        cases h
    · exact fun q h => by cases h
    · exact fun q h => by cases h
  · rw [scan, scan, if_pos hc, if_pos hopen, if_pos hc, if_neg (by simp)]

theorem scan_of_line {args : List (List Char)} {line : List Char} (h : Line args line) :
    scan .between [] false line = .ok args := by
  induction h with
  | nil => rfl
  | blank hc _ ih => rw [scan, if_pos hc, if_neg (by simp), ih]
  | word hword hends _ ih =>
      obtain ⟨flag, hopen, hscan⟩ := scan_between_word hword
      rw [hscan, scan_word_ends hopen hends, ih]
      rfl

end Reading

/-! ## What it accepts is a line -/

/-- A quotation that ends well has been closed. -/
theorem closed_of_scan {q : Char} {token cs : List Char} {quoted : Bool}
    {args : List (List Char)} (h : scan (.quotation q) token quoted cs = .ok args) :
    ∃ text rest, cs = text ++ q :: rest ∧ q ∉ text ∧
      scan .word (token ++ text) true rest = .ok args := by
  induction cs generalizing token quoted with
  | nil => cases h
  | cons c cs ih =>
      rw [scan] at h
      by_cases hc : c = q
      · rw [if_pos hc] at h
        exact ⟨[], cs, by rw [hc]; rfl, List.not_mem_nil, by rw [List.append_nil]; exact h⟩
      · rw [if_neg hc] at h
        obtain ⟨text, rest, rfl, htext, hrest⟩ := ih h
        refine ⟨c :: text, rest, rfl, ?_, ?_⟩
        · rw [List.mem_cons, not_or]
          exact ⟨fun h => hc h.symm, htext⟩
        · rw [← hrest, List.append_assoc]
          rfl

/-- The rest of an open word, and the line after it. -/
inductive Continues : List Char → List (List Char) → List Char → Prop
  | ends {args : List (List Char)} {rest : List Char} (hends : Ends rest)
      (hrest : Line args rest) : Continues [] args rest
  | word {arg text rest : List Char} {args : List (List Char)} (h : Word arg text)
      (hends : Ends rest) (hrest : Line args rest) : Continues arg args (text ++ rest)

theorem Continues.piece {arg text arg' rest : List Char} {args : List (List Char)}
    (h : Piece arg text) (hrest : Continues arg' args rest) :
    Continues (arg ++ arg') args (text ++ rest) := by
  cases hrest with
  | ends hends hline =>
      rw [List.append_nil]
      exact .word (.one h) hends hline
  | word hword hends hline =>
      rw [← List.append_assoc]
      exact .word (.cons h hword) hends hline

theorem Continues.line {arg rest text arg' : List Char} {args : List (List Char)}
    (h : Piece arg text) (hrest : Continues arg' args rest) :
    Line ((arg ++ arg') :: args) (text ++ rest) := by
  cases hrest with
  | ends hends hline =>
      rw [List.append_nil]
      exact .word (.one h) hends hline
  | word hword hends hline =>
      rw [← List.append_assoc]
      exact .word (.cons h hword) hends hline

theorem map_cons_eq_ok {token : List Char} {r : Except String (List (List Char))}
    {args : List (List Char)} (h : r.map (token :: ·) = .ok args) :
    ∃ args', r = .ok args' ∧ args = token :: args' := by
  cases r with
  | error e => cases h
  | ok args' => exact ⟨args', rfl, (Except.ok.inj h).symm⟩

/-- Both ways in which the automaton is outside of a quotation, by induction on
    how much is left: a quotation in between is read as a whole. -/
theorem line_of_scan (n : Nat) : ∀ cs : List Char, cs.length ≤ n →
    (∀ args, scan .between [] false cs = .ok args → Line args cs) ∧
    (∀ token quoted args, token ≠ [] ∨ quoted = true → scan .word token quoted cs = .ok args →
      ∃ arg args', args = (token ++ arg) :: args' ∧ Continues arg args' cs) := by
  induction n with
  | zero =>
      intro cs hlen
      obtain rfl := List.length_eq_zero_iff.mp (Nat.le_zero.mp hlen)
      constructor
      · intro args h
        rw [← Except.ok.inj h]
        exact .nil
      · intro token quoted args hopen h
        rw [scan_word_ends hopen (.inl rfl)] at h
        obtain rfl := Except.ok.inj h
        exact ⟨[], [], by rw [List.append_nil]; rfl, .ends (.inl rfl) .nil⟩
  | succ n ih =>
      intro cs hlen
      cases cs with
      | nil =>
          exact ih [] (Nat.zero_le _)
      | cons c cs =>
          have hcs : cs.length ≤ n := Nat.le_of_succ_le_succ hlen
          obtain ⟨hbetween, hword⟩ := ih cs hcs
          -- a quotation, in both states
          have hquotation : ∀ token quoted args, isQuote c = true →
              scan (.quotation c) token quoted cs = .ok args →
              ∃ arg text arg' args' rest, c :: cs = text ++ rest ∧ Piece arg text ∧
                args = (token ++ arg ++ arg') :: args' ∧ Continues arg' args' rest := by
            intro token quoted args hc h
            obtain ⟨text, rest, rfl, htext, hrest⟩ := closed_of_scan h
            have hlen' : rest.length ≤ n := by
              rw [List.length_append, List.length_cons] at hcs
              omega
            obtain ⟨arg', args', rfl, hcontinues⟩ :=
              (ih rest hlen').2 _ _ _ (.inr rfl) hrest
            exact ⟨text, _, arg', args', rest, by simp, .quotation hc htext, rfl, hcontinues⟩
          constructor
          · intro args h
            rw [scan] at h
            by_cases hblank : isBlank c = true
            · rw [if_pos hblank, if_neg (by simp)] at h
              exact .blank hblank (hbetween args h)
            · rw [if_neg hblank] at h
              by_cases hquote : isQuote c = true
              · rw [if_pos hquote] at h
                obtain ⟨arg, text, arg', args', rest, htext, hpiece, rfl, hcontinues⟩ :=
                  hquotation _ _ _ hquote h
                rw [htext]
                exact hcontinues.line hpiece
              · rw [if_neg hquote] at h
                obtain ⟨arg, args', rfl, hcontinues⟩ := hword _ _ _ (.inl (by simp)) h
                exact hcontinues.line
                  (.plain (Bool.eq_false_iff.mpr hblank) (Bool.eq_false_iff.mpr hquote))
          · intro token quoted args hopen h
            by_cases hblank : isBlank c = true
            · rw [scan_word_ends hopen (.inr ⟨c, cs, rfl, hblank⟩)] at h
              obtain ⟨args', hrest, rfl⟩ := map_cons_eq_ok h
              refine ⟨[], args', by rw [List.append_nil], ?_⟩
              rw [scan, if_pos hblank, if_neg (by simp)] at hrest
              exact .ends (.inr ⟨c, cs, rfl, hblank⟩) (.blank hblank (hbetween args' hrest))
            · rw [scan, if_neg hblank] at h
              by_cases hquote : isQuote c = true
              · rw [if_pos hquote] at h
                obtain ⟨arg, text, arg', args', rest, htext, hpiece, rfl, hcontinues⟩ :=
                  hquotation _ _ _ hquote h
                rw [htext]
                exact ⟨arg ++ arg', args', by rw [List.append_assoc], hcontinues.piece hpiece⟩
              · rw [if_neg hquote] at h
                obtain ⟨arg, args', rfl, hcontinues⟩ := hword _ _ _ (.inl (by simp)) h
                refine ⟨[c] ++ arg, args', by rw [List.append_assoc], ?_⟩
                exact hcontinues.piece
                  (.plain (Bool.eq_false_iff.mpr hblank) (Bool.eq_false_iff.mpr hquote))

/-- **WHAT THE SHELL READS IS WHAT THE LINE WRITES.** -/
theorem splitCommand_eq_ok_iff (line : String) (args : List String) :
    splitCommand line = .ok args ↔ Line (args.map String.toList) line.toList := by
  have hid : String.toList ∘ String.ofList = id := funext fun _ => String.toList_ofList
  have hid' : String.ofList ∘ String.toList = id := funext fun _ => String.ofList_toList
  unfold splitCommand
  constructor
  · intro h
    cases hscan : scan .between [] false line.toList with
    | error e =>
        rw [hscan] at h
        cases h
    | ok words =>
        rw [hscan] at h
        rw [← Except.ok.inj h, List.map_map, hid, List.map_id]
        exact (line_of_scan _ _ (Nat.le_refl _)).1 words hscan
  · intro h
    rw [scan_of_line h]
    show Except.ok ((args.map String.toList).map String.ofList) = Except.ok args
    rw [List.map_map, hid', List.map_id]

/-! ## Everything can be written -/

/-- A character, in quotes if it has to be. -/
theorem exists_piece (c : Char) : ∃ text, Piece [c] text := by
  by_cases hquote : c = '"'
  · exact ⟨_, .quotation (q := '\'') rfl (by rw [hquote]; decide)⟩
  · exact ⟨_, .quotation (q := '"') rfl (by
      rw [List.mem_singleton]
      exact fun h => hquote h.symm)⟩

theorem exists_word (arg : List Char) : ∃ text, Word arg text := by
  induction arg with
  | nil => exact ⟨_, .one (.quotation (q := '"') rfl List.not_mem_nil)⟩
  | cons c arg ih =>
      obtain ⟨text, h⟩ := exists_piece c
      obtain ⟨text', hrest⟩ := ih
      exact ⟨text ++ text', .cons h hrest⟩

/-- **EVERY LIST OF ARGUMENTS CAN BE TYPED.** -/
theorem exists_splitCommand (args : List String) : ∃ line, splitCommand line = .ok args := by
  suffices h : ∀ words : List (List Char), ∃ text, Line words text by
    obtain ⟨text, hline⟩ := h (args.map String.toList)
    refine ⟨String.ofList text, (splitCommand_eq_ok_iff _ _).mpr ?_⟩
    rw [String.toList_ofList]
    exact hline
  intro words
  induction words with
  | nil => exact ⟨[], .nil⟩
  | cons word words ih =>
      obtain ⟨text, hword⟩ := exists_word word
      obtain ⟨rest, hrest⟩ := ih
      exact ⟨text ++ ' ' :: rest, .word hword (.inr ⟨' ', rest, rfl, rfl⟩) (.blank rfl hrest)⟩

/-! ## What it refuses has an open quotation -/

/-- A line that breaks off inside a quotation: up to the quote that opens it, it is
    a line of its own, and the quote does not come again. -/
def LeftOpen (line : List Char) : Prop :=
  ∃ args before q rest, line = before ++ q :: rest ∧ Line args before ∧ isQuote q = true ∧
    q ∉ rest

section Refusing

variable {st st' : LexState} {token token' cs : List Char} {quoted quoted' : Bool} {c : Char}

theorem map_eq_error {α β : Type} {f : α → β} {x : Except String α} {e : String}
    (h : x.map f = .error e) : x = .error e := by
  cases x with
  | ok a => cases h
  | error e' => rw [Except.error.inj h]

/-- The automaton is in a quotation that does not end, or it comes to one. -/
def Breaks (st : LexState) (token : List Char) (quoted : Bool) (cs : List Char) : Prop :=
  (∃ q, st = .quotation q ∧ q ∉ cs) ∨ ∃ args before q rest, cs = before ++ q :: rest ∧
    scan st token quoted before = .ok args ∧ isQuote q = true ∧ q ∉ rest

/-- One character before. -/
theorem Breaks.step (h : Breaks st' token' quoted' cs)
    (hread : ∀ before args, scan st' token' quoted' before = .ok args →
      ∃ args', scan st token quoted (c :: before) = .ok args')
    (hquotation : ∀ q, st' = .quotation q → q ∉ cs → Breaks st token quoted (c :: cs)) :
    Breaks st token quoted (c :: cs) := by
  rcases h with ⟨q, hst, hq⟩ | ⟨args, before, q, rest, rfl, hbefore, hq, hrest⟩
  · exact hquotation q hst hq
  · obtain ⟨args', hargs'⟩ := hread before args hbefore
    exact .inr ⟨args', c :: before, q, rest, rfl, hargs', hq, hrest⟩

/-- The only error is a quotation that is not closed. -/
theorem breaks_of_scan {e : String} (h : scan st token quoted cs = .error e) :
    e = noClosing ∧ Breaks st token quoted cs := by
  fun_induction scan st token quoted cs with
  | case1 q => exact ⟨(Except.error.inj h).symm, .inl ⟨q, rfl, List.not_mem_nil⟩⟩
  | case2 => cases h
  | case3 token quoted c cs ih =>
      obtain ⟨he, hbreaks⟩ := ih h
      refine ⟨he, hbreaks.step (fun before args hargs => ⟨args, ?_⟩) fun q hst => by cases hst⟩
      rw [scan, if_pos rfl]
      exact hargs
  | case4 q token quoted c cs hc ih =>
      obtain ⟨he, hbreaks⟩ := ih h
      refine ⟨he, hbreaks.step (fun before args hargs => ⟨args, ?_⟩) fun q' hst hq' => ?_⟩
      · rw [scan, if_neg hc]
        exact hargs
      · obtain rfl := LexState.quotation.inj hst
        refine .inl ⟨q, rfl, ?_⟩
        rw [List.mem_cons, not_or]
        exact ⟨fun heq => hc heq.symm, hq'⟩
  | case5 token quoted c cs hblank hopen ih | case9 token quoted c cs hblank hopen ih =>
      obtain ⟨he, hbreaks⟩ := ih (map_eq_error h)
      refine ⟨he, hbreaks.step (fun before args hargs => ⟨token :: args, ?_⟩)
        fun q hst => by cases hst⟩
      rw [scan, if_pos hblank, if_pos hopen, hargs]
      rfl
  | case6 token quoted c cs hblank hopen ih | case10 token quoted c cs hblank hopen ih =>
      obtain ⟨he, hbreaks⟩ := ih h
      refine ⟨he, hbreaks.step (fun before args hargs => ⟨args, ?_⟩) fun q hst => by cases hst⟩
      rw [scan, if_pos hblank, if_neg hopen]
      exact hargs
  | case7 token quoted c cs hblank hquote ih | case11 token quoted c cs hblank hquote ih =>
      obtain ⟨he, hbreaks⟩ := ih h
      refine ⟨he, hbreaks.step (fun before args hargs => ⟨args, ?_⟩) fun q hst hq => ?_⟩
      · rw [scan, if_neg hblank, if_pos hquote]
        exact hargs
      · obtain rfl := LexState.quotation.inj hst
        exact .inr ⟨_, [], c, cs, rfl, rfl, hquote, hq⟩
  | case8 token quoted c cs hblank hquote ih | case12 token quoted c cs hblank hquote ih =>
      obtain ⟨he, hbreaks⟩ := ih h
      refine ⟨he, hbreaks.step (fun before args hargs => ⟨args, ?_⟩) fun q hst => by cases hst⟩
      rw [scan, if_neg hblank, if_neg hquote]
      exact hargs

theorem scan_unclosed {q : Char} {rest : List Char} (h : q ∉ rest) :
    scan (.quotation q) token quoted rest = .error noClosing := by
  induction rest generalizing token quoted with
  | nil => rfl
  | cons c rest ih =>
      rw [List.mem_cons, not_or] at h
      rw [scan, if_neg fun hc => h.1 hc.symm]
      exact ih h.2

/-- What is a line so far is none with an open quotation behind it. -/
theorem scan_leftOpen {args : List (List Char)} {q : Char} {rest : List Char}
    (h : scan st token quoted cs = .ok args) (hq : isQuote q = true) (hrest : q ∉ rest) :
    scan st token quoted (cs ++ q :: rest) = .error noClosing := by
  have hblank : ¬isBlank q = true := by
    unfold isQuote at hq
    rw [Bool.or_eq_true, decide_eq_true_eq, decide_eq_true_eq] at hq
    rcases hq with rfl | rfl <;> decide
  fun_induction scan st token quoted cs generalizing args with
  | case1 => cases h
  | case2 st token quoted hout =>
      cases st with
      | quotation q' => exact (hout q' rfl).elim
      | between | word =>
          rw [List.nil_append, scan, if_neg hblank, if_pos hq]
          exact scan_unclosed hrest
  | case3 token quoted c cs ih =>
      rw [List.cons_append, scan, if_pos rfl]
      exact ih h
  | case4 q' token quoted c cs hc ih =>
      rw [List.cons_append, scan, if_neg hc]
      exact ih h
  | case5 token quoted c cs hspace hopen ih | case9 token quoted c cs hspace hopen ih =>
      obtain ⟨args', hargs', _⟩ := map_cons_eq_ok h
      rw [List.cons_append, scan, if_pos hspace, if_pos hopen, ih hargs']
      rfl
  | case6 token quoted c cs hspace hopen ih | case10 token quoted c cs hspace hopen ih =>
      rw [List.cons_append, scan, if_pos hspace, if_neg hopen]
      exact ih h
  | case7 token quoted c cs hspace hquote ih | case11 token quoted c cs hspace hquote ih =>
      rw [List.cons_append, scan, if_neg hspace, if_pos hquote]
      exact ih h
  | case8 token quoted c cs hspace hquote ih | case12 token quoted c cs hspace hquote ih =>
      rw [List.cons_append, scan, if_neg hspace, if_neg hquote]
      exact ih h

end Refusing

/-- **WHAT THE SHELL REFUSES IS LEFT OPEN.** -/
theorem splitCommand_eq_error_iff (line e : String) :
    splitCommand line = .error e ↔ e = noClosing ∧ LeftOpen line.toList := by
  constructor
  · intro h
    obtain ⟨he, ⟨_, hst, _⟩ | ⟨args, before, q, rest, hline, hbefore, hq, hrest⟩⟩ :=
      breaks_of_scan (map_eq_error h)
    · cases hst
    · have hwritten := (line_of_scan _ before (Nat.le_refl _)).1 args hbefore
      exact ⟨he, args, before, q, rest, hline, hwritten, hq, hrest⟩
  · rintro ⟨rfl, args, before, q, rest, hline, hbefore, hq, hrest⟩
    rw [splitCommand, hline, scan_leftOpen (scan_of_line hbefore) hq hrest]
    rfl

/-- **THE LINES OF THE SHELL**: a line is read as the arguments that it writes, the
    others break off inside a quotation, and every list of arguments can be
    typed. -/
theorem reads_what_is_written :
    (∀ (line : String) (args : List String),
      splitCommand line = .ok args ↔ Line (args.map String.toList) line.toList) ∧
    (∀ line e : String, splitCommand line = .error e ↔ e = noClosing ∧ LeftOpen line.toList) ∧
    ∀ args : List String, ∃ line, splitCommand line = .ok args :=
  ⟨splitCommand_eq_ok_iff, splitCommand_eq_error_iff, exists_splitCommand⟩

example : splitCommand "send \"C:\\mis docs\\a.pdf\" a.pdf"
    = .ok ["send", "C:\\mis docs\\a.pdf", "a.pdf"] := by decide

end DfshaCommandLine
