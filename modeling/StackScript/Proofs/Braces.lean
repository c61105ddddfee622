import StackScript.Repl
import StackScript.Proofs.Lexemes

/-!
# The braces of an entry of several lines

A session reads an entry of several lines until its braces balance.  It counts them line by
line (`countBraces`): outside string literals and before a `//`, and every line from outside a
string.  The lexer reads the entry as one text, where a string literal may run over a line break.

* `Repl.feed` hands lines to a session one after another.  Once a line opens an entry, the entry
  runs at the first later line after which the count of its lines (`Repl.entryBalance`) is at
  most zero, and not before (`Repl.feed_withEntry`, `Repl.handleLine_runs_entry_at_balance`).
* The count agrees with the lexer when no string literal of the entry runs over a line break:
  it is then the number of `{` tokens less the number of `}` tokens (`Lexer.braceCount`,
  `Repl.entryBalance_eq_braceCount`).  The proof counts the whole text as the session does, one
  line after another (`Lexer.lineCount`), and follows the lexer's cutting of the text (`Cuts`).
* Where a string literal does run over a line break the two part: the lines `{ print "` and `}";`
  run as an entry whose tokens open one brace more than they close
  (`string_across_lines_runs_early`).
-/

namespace StackScript

namespace Lexer

/-- What a token adds to the count of braces: one for `{`, minus one for `}`. -/
def braceWeight : TokenKind → Int
  | .leftBrace => 1
  | .rightBrace => -1
  | _ => 0

/-- The number of `{` tokens less the number of `}` tokens. -/
def braceCount (toks : List Token) : Int := (toks.map fun t => braceWeight t.kind).sum

/-- No string literal among the tokens runs over a line break. -/
def StringsInLine (toks : List Token) : Prop :=
  ∀ t ∈ toks, ∀ s, t.kind = .string s → '\n' ∉ s.toList

/-- Where a count of braces stands in a text: in code, in a string literal, or in a comment. -/
inductive Place where
  | code
  | string
  | comment
deriving DecidableEq

/-- The place a line is counted from: in a string literal or in code. -/
def Place.ofString (inString : Bool) : Place := if inString then .string else .code

/-- Braces opened less braces closed in a text of several lines, counted as the session counts
an entry: each line as `braceBalance` counts it, from outside a string. -/
def lineCount : List Char → Place → Int
  | [], _ => 0
  | '\n' :: cs, _ => lineCount cs .code
  | _ :: cs, .comment => lineCount cs .comment
  | '"' :: cs, .code => lineCount cs .string
  | '"' :: cs, .string => lineCount cs .code
  | '/' :: '/' :: cs, .code => lineCount cs .comment
  | '{' :: cs, .code => lineCount cs .code + 1
  | '}' :: cs, .code => lineCount cs .code - 1
  | _ :: cs, p => lineCount cs p

/-- A character that the count passes over in every place, other than a line break. -/
def Plain (c : Char) : Prop := c ≠ '\n' ∧ c ≠ '"' ∧ c ≠ '{' ∧ c ≠ '}' ∧ c ≠ '/'

instance (c : Char) : Decidable (Plain c) :=
  inferInstanceAs (Decidable (c ≠ '\n' ∧ c ≠ '"' ∧ c ≠ '{' ∧ c ≠ '}' ∧ c ≠ '/'))

theorem lineCount_plain {c : Char} (hc : Plain c) (cs : List Char) (p : Place) :
    lineCount (c :: cs) p = lineCount cs p := by
  obtain ⟨h₁, h₂, h₃, h₄, h₅⟩ := hc
  cases p with
  | comment => simp [lineCount]
  | _ => simp [lineCount, h₂, h₃, h₄, h₅]

theorem lineCount_plain_append {xs : List Char} (hxs : ∀ c ∈ xs, Plain c) (cs : List Char)
    (p : Place) : lineCount (xs ++ cs) p = lineCount cs p := by
  induction xs with
  | nil => rfl
  | cons x xs ih =>
    rw [List.cons_append, lineCount_plain (hxs x (by simp)), ih fun c hc => hxs c (by simp [hc])]

theorem lineCount_string_append {xs : List Char} (hxs : ∀ c ∈ xs, c ≠ '\n' ∧ c ≠ '"')
    (cs : List Char) : lineCount (xs ++ cs) .string = lineCount cs .string := by
  induction xs with
  | nil => rfl
  | cons x xs ih =>
    obtain ⟨h₁, h₂⟩ := hxs x (by simp)
    rw [List.cons_append, ← ih fun c hc => hxs c (by simp [hc])]
    simp [lineCount, h₂]

theorem lineCount_comment_append {xs : List Char} (hxs : '\n' ∉ xs) (cs : List Char) :
    lineCount (xs ++ cs) .comment = lineCount cs .comment := by
  induction xs with
  | nil => rfl
  | cons x xs ih =>
    simp only [List.mem_cons, not_or] at hxs
    rw [List.cons_append, ← ih hxs.2]
    simp [lineCount, Ne.symm hxs.1]

theorem lineCount_at_break {cs : List Char} (h : ∀ d ∈ cs.head?, d = '\n') (p : Place) :
    lineCount cs p = lineCount cs .code := by
  cases cs with
  | nil => rfl
  | cons d cs =>
    obtain rfl := h d rfl
    simp [lineCount]

theorem lineCount_slash {cs : List Char} (h : cs.head? ≠ some '/') :
    lineCount ('/' :: cs) .code = lineCount cs .code := by
  cases cs with
  | nil => rfl
  | cons d cs =>
    have hd : d ≠ '/' := fun hd => h (by rw [hd]; rfl)
    simp [lineCount, hd]

theorem braceBalance_slash {cs : List Char} (h : cs.head? ≠ some '/') :
    braceBalance ('/' :: cs) false = braceBalance cs false := by
  cases cs with
  | nil => rfl
  | cons d cs =>
    have hd : d ≠ '/' := fun hd => h (by rw [hd]; rfl)
    simp [braceBalance, hd]

theorem lineCount_line {l t : List Char} (hl : '\n' ∉ l) (ht : ∀ d ∈ t.head?, d = '\n')
    (q : Bool) : lineCount (l ++ t) (Place.ofString q) = braceBalance l q + lineCount t .code := by
  induction l generalizing q with
  | nil =>
    rw [List.nil_append, lineCount_at_break ht]
    simp [braceBalance]
  | cons c rest ih =>
    simp only [List.mem_cons, not_or] at hl
    have hc : c ≠ '\n' := Ne.symm hl.1
    rw [List.cons_append]
    by_cases hq : c = '"'
    · -- a quote opens or closes a string literal
      subst hq
      have hp : lineCount ('"' :: (rest ++ t)) (Place.ofString q) =
          lineCount (rest ++ t) (Place.ofString !q) := by
        cases q <;> simp [lineCount, Place.ofString]
      rw [hp, ih hl.2]
      simp [braceBalance]
    cases q with
    | true =>
      have hp : lineCount (c :: (rest ++ t)) (Place.ofString true) =
          lineCount (rest ++ t) (Place.ofString true) := by
        simp [lineCount, Place.ofString, hq]
      rw [hp, ih hl.2]
      simp [braceBalance]
    | false =>
      have ih' := ih hl.2 false
      simp only [Place.ofString, Bool.false_eq_true, ↓reduceIte] at ih' ⊢
      by_cases hopen : c = '{'
      · subst hopen
        simp [lineCount, braceBalance, ih']
        omega
      by_cases hclose : c = '}'
      · subst hclose
        simp [lineCount, braceBalance, ih']
        omega
      by_cases hcomment : c = '/' ∧ rest.head? = some '/'
      · -- a comment runs to the end of the line
        obtain ⟨rfl, hr⟩ := hcomment
        obtain ⟨rest, rfl⟩ : ∃ r, rest = '/' :: r := by
          cases rest with
          | nil => cases hr
          | cons d r => cases hr; exact ⟨r, rfl⟩
        simp only [List.mem_cons, not_or] at hl
        rw [List.cons_append, lineCount, lineCount_comment_append hl.2.2, lineCount_at_break ht]
        simp [braceBalance]
      · -- anything else is passed over
        by_cases hslash : c = '/'
        · subst hslash
          have hr : rest.head? ≠ some '/' := fun h => hcomment ⟨rfl, h⟩
          have hnext : (rest ++ t).head? ≠ some '/' := by
            cases rest with
            | nil =>
              intro h
              cases ht '/' h
            | cons d r => exact hr
          rw [lineCount_slash hnext, braceBalance_slash hr, ih']
        · rw [lineCount_plain ⟨hc, hq, hopen, hclose, hslash⟩, ih']
          simp [braceBalance, hopen, hclose, hslash]

/-! ## The lexemes -/

theorem plain_of_class {p : Char → Bool}
    (hp : p '\n' = false ∧ p '"' = false ∧ p '{' = false ∧ p '}' = false ∧ p '/' = false)
    {c : Char} (h : p c = true) : Plain c := by
  refine ⟨?_, ?_, ?_, ?_, ?_⟩ <;> rintro rfl <;> simp_all

theorem plain_of_digits {ds : List Char} (h : Digits ds) : ∀ c ∈ ds, Plain c :=
  fun c hc => plain_of_class (p := Char.isDigit) (by decide) (h.2 c hc)

theorem braceWeight_word (n : String) :
    braceWeight ((TokenKind.keyword? n).getD (.identifier n)) = 0 := by
  unfold TokenKind.keyword?
  split <;> rfl

/-- A lexeme read in code adds its brace weight to the count: the count passes over the
characters of a word, a number or a string literal without a line break, and takes a brace
for a brace. -/
theorem lineCount_lexeme {lx cs : List Char} {k : TokenKind} (h : Lexeme lx k)
    (hc : ¬ ['/', '/'] <+: lx ++ cs) (hs : ∀ s, k = .string s → '\n' ∉ s.toList) :
    lineCount (lx ++ cs) .code = braceWeight k + lineCount cs .code := by
  cases h with
  | symbol hk =>
    cases k <;> simp [TokenKind.isSymbol] at hk
    case slash =>
      have hcs : cs.head? ≠ some '/' := by
        intro hd
        apply hc
        cases cs with
        | nil => cases hd
        | cons d r =>
          obtain rfl : d = '/' := by simpa using hd
          exact ⟨r, by simp [TokenKind.lexeme]⟩
      simpa [TokenKind.lexeme, braceWeight] using lineCount_slash hcs
    case leftBrace | rightBrace =>
      simp [TokenKind.lexeme, lineCount, braceWeight]
      omega
    all_goals simp [TokenKind.lexeme, lineCount, braceWeight]
  | @word c cs' hstart hchars =>
    have hplain : ∀ d ∈ c :: cs', Plain d := by
      simp only [List.mem_cons, forall_eq_or_imp]
      exact ⟨plain_of_class (by decide) hstart,
        fun d hd => plain_of_class (by decide) (hchars d hd)⟩
    rw [lineCount_plain_append hplain, braceWeight_word, Int.zero_add]
  | @string body hb =>
    have hline : ∀ c ∈ body, c ≠ '\n' ∧ c ≠ '"' := fun c hc =>
      ⟨fun h => hs _ rfl (by simpa [h] using hc), fun h => hb (h ▸ hc)⟩
    simp only [List.cons_append, List.append_assoc]
    rw [lineCount, lineCount_string_append hline]
    simp [lineCount, braceWeight]
  | whole hd =>
    rw [lineCount_plain_append (plain_of_digits hd)]
    simp [braceWeight]
  | @fraction ds fs hd hf =>
    have hplain : ∀ c ∈ ds ++ '.' :: fs, Plain c := by
      simp only [List.mem_append, List.mem_cons]
      rintro c (hc | rfl | hc)
      · exact plain_of_digits hd c hc
      · decide
      · exact plain_of_digits hf c hc
    rw [lineCount_plain_append hplain]
    simp [braceWeight]

/-- The lexer's cutting of a text, with no string literal over a line break, has as its brace
count the count of the text line after line. -/
theorem braceCount_of_cuts {before cs : List Char} {toks : List Token} (h : Cuts before cs toks)
    (hs : StringsInLine toks) : braceCount toks = lineCount cs .code := by
  induction h with
  | finish => simp [braceCount, braceWeight, lineCount]
  | blank hc _ ih =>
    rcases blank_cases hc with rfl | rfl | rfl | rfl <;> simp [lineCount, ih hs]
  | @comment before body cs toks hbody hnext _ ih =>
    have hbody' : '\n' ∉ body := fun h => hbody _ h rfl
    rw [List.cons_append, List.cons_append, lineCount, lineCount_comment_append hbody',
      lineCount_at_break hnext, ih hs]
  | @token before lx cs toks k hnc hl _ ih =>
    have hhead := hs _ List.mem_cons_self
    have htail : StringsInLine toks := fun t ht => hs t (List.mem_cons_of_mem _ ht)
    simp only [braceCount, List.map_cons, List.sum_cons] at ih ⊢
    rw [lineCount_lexeme hl.lexeme hnc hhead, ih htail]

end Lexer

namespace Repl

/-- The text of an entry of several lines: its lines joined by line breaks. -/
def entryText (lines : List String) : String := "\n".intercalate lines

/-- The brace count of an entry as the session counts it: line by line. -/
def entryBalance (lines : List String) : Int := (lines.map countBraces).sum

/-- Counting an entry's text line after line is counting each of its lines. -/
theorem lineCount_entryText {lines : List String} (h : ∀ x ∈ lines, '\n' ∉ x.toList) :
    Lexer.lineCount (entryText lines).toList .code = entryBalance lines := by
  induction lines with
  | nil => simp [entryText, entryBalance, Lexer.lineCount]
  | cons x rest ih =>
    cases rest with
    | nil =>
      simpa [entryText, entryBalance, countBraces, Lexer.Place.ofString, Lexer.lineCount] using
        Lexer.lineCount_line (t := []) (h x (by simp)) (by simp) false
    | cons y rest =>
      have hrest := ih fun z hz => h z (List.mem_cons_of_mem x hz)
      have hline := Lexer.lineCount_line (t := '\n' :: (entryText (y :: rest)).toList)
        (h x (by simp)) (by simp) false
      simp only [Lexer.Place.ofString, Bool.false_eq_true, ↓reduceIte, Lexer.lineCount] at hline
      simp only [entryText, String.intercalate_cons_cons, String.toList_append] at hline hrest ⊢
      have hbreak : "\n".toList = ['\n'] := rfl
      rw [hbreak, List.append_assoc, List.singleton_append, hline, hrest]
      simp [entryBalance, countBraces]

/-! ## Lines handed to a session -/

/-- Hand lines to a session one after another, as a caller of `handleLine` does: the session
afterwards and what each step wrote, in order. -/
def feed (r : Repl) : List String → Repl × List Event
  | [] => (r, [])
  | line :: rest =>
    let (r₁, evs) := (r.handleLine line).2
    let (r₂, evs') := r₁.feed rest
    (r₂, evs ++ evs')

/-- The session `r` inside an entry whose lines so far are `ps`. -/
def withEntry (r : Repl) (ps : List String) : Repl :=
  { r with pending := entryText ps, balance := entryBalance ps }

theorem entryText_singleton (line : String) : entryText [line] = line := rfl

theorem ne_nil_of_entryText_ne {ps : List String} (hne : entryText ps ≠ "") : ps ≠ [] := by
  rintro rfl
  exact hne rfl

@[simp] theorem execute_pending (r : Repl) (source : String) :
    (r.execute source).1.pending = r.pending := rfl

@[simp] theorem command_pending (r : Repl) (cmd : String) :
    (r.command cmd).2.1.pending = r.pending := by
  unfold command
  split_ifs <;> rfl

theorem entryText_append {ps : List String} (hps : ps ≠ []) (line : String) :
    entryText (ps ++ [line]) = entryText ps ++ "\n" ++ line := by
  rw [entryText, String.intercalate_append_of_ne_nil hps (by simp), String.intercalate_singleton]
  rfl

theorem entryBalance_append (ps : List String) (line : String) :
    entryBalance (ps ++ [line]) = entryBalance ps + countBraces line := by
  simp [entryBalance]

/-- A line inside an entry, other than `.break`: the entry runs once the count of its lines is at
most zero, and takes the line otherwise. -/
theorem handleLine_withEntry (r : Repl) {ps : List String} (hne : entryText ps ≠ "")
    {line : String} (hb : line ≠ ".break") :
    (r.withEntry ps).handleLine line =
      if entryBalance (ps ++ [line]) ≤ 0 then
        (.continue, { r with pending := "", balance := 0 }.execute (entryText (ps ++ [line])))
      else (.continue, r.withEntry (ps ++ [line]), []) := by
  have hm : (r.withEntry ps).isMultiline = true := by
    simpa [isMultiline, withEntry, String.isEmpty_iff] using hne
  rw [handleLine, if_pos hm, if_neg hb]
  dsimp only [withEntry]
  rw [entryText_append (ne_nil_of_entryText_ne hne), entryBalance_append]

/-- A line that opens an entry, in a session outside one: the line, trimmed, goes to the history
and is the entry's first line, and its count is above zero. -/
theorem handleLine_opens {r : Repl} {line : String} (hr : r.isMultiline = false)
    (ho : (r.handleLine line).2.1.isMultiline = true) :
    0 < countBraces (Text.trimBlank line) ∧
      (r.handleLine line).2 = ({ r with history := r.history.push (Text.trimBlank line) }.withEntry
        [Text.trimBlank line], []) := by
  have hp : r.pending = "" := by simpa [isMultiline, String.isEmpty_iff] using hr
  rw [handleLine, if_neg (by simp [hr])] at ho ⊢
  dsimp only at ho ⊢
  split_ifs at ho ⊢ with he hq hc hb
  · simp [hr] at ho
  · simp [isMultiline, hp] at ho
  · simp [isMultiline, hp] at ho
  · exact ⟨hb, by simp [withEntry, entryText, entryBalance]⟩
  · simp [isMultiline, hp] at ho

theorem entryText_append_ne {ps : List String} (hne : entryText ps ≠ "") (line : String) :
    entryText (ps ++ [line]) ≠ "" := by
  rw [entryText_append (ne_nil_of_entryText_ne hne)]
  intro h
  simpa using congrArg String.toList h

/-- Lines handed to an open entry, none of them `.break`: while the count of the entry's lines
stays above zero the entry takes them, and after the last line it runs if its count is at most
zero. -/
theorem feed_withEntry (r : Repl) (ls : List String) {ps : List String} {l : String}
    (hne : entryText ps ≠ "") (hb : ∀ x ∈ ls ++ [l], x ≠ ".break")
    (hwait : ∀ i < ls.length, 0 < entryBalance (ps ++ ls.take (i + 1))) :
    (r.withEntry ps).feed (ls ++ [l]) =
      if entryBalance (ps ++ ls ++ [l]) ≤ 0 then
        { r with pending := "", balance := 0 }.execute (entryText (ps ++ ls ++ [l]))
      else (r.withEntry (ps ++ ls ++ [l]), []) := by
  -- on the lines before the last, generalizing the entry read so far
  induction ls generalizing ps with
  | nil =>
    rw [List.nil_append, List.append_nil, feed, handleLine_withEntry r hne (hb l (by simp))]
    split_ifs <;> simp [feed]
  | cons x ls ih =>
    have hx : 0 < entryBalance (ps ++ [x]) := by simpa using hwait 0 (by simp)
    have hwait' : ∀ i < ls.length, 0 < entryBalance (ps ++ [x] ++ ls.take (i + 1)) :=
      fun i hi => by simpa using hwait (i + 1) (by simpa using hi)
    rw [List.cons_append, List.append_cons ps x ls, feed,
      handleLine_withEntry r hne (hb x (by simp)), if_neg (by omega)]
    dsimp only
    rw [ih (entryText_append_ne hne x) (fun y hy => hb y (by simp_all)) hwait']
    split_ifs <;> simp

/-- Where no string literal of an entry runs over a line break, the session's count of the
entry's lines is the number of `{` tokens less the number of `}` tokens in its text. -/
theorem entryBalance_eq_braceCount {lines : List String} {toks : List Token}
    (hl : ∀ x ∈ lines, '\n' ∉ x.toList) (h : tokenize (entryText lines) = .ok toks)
    (hs : Lexer.StringsInLine toks) : Lexer.braceCount toks = entryBalance lines := by
  rw [Lexer.braceCount_of_cuts (tokenize_eq_ok_iff_cuts.mp h) hs, lineCount_entryText hl]

/-- Lines handed to a session after one that opens an entry, none of them `.break`: the entry
takes each line while the summed `countBraces` of its lines stays above zero, and runs as one
text at the first line that brings the sum to zero or below. The summed count is the lexer's count
of `{` less `}` in the entry's text whenever the text lexes with no string literal running over a
line break. -/
theorem handleLine_runs_entry_at_balance {r : Repl} {l₀ l : String} {ls : List String}
    (hr : r.isMultiline = false) (hopen : (r.handleLine l₀).2.1.isMultiline = true)
    (hb : ∀ x ∈ ls ++ [l], x ≠ ".break")
    (hwait : ∀ i < ls.length, 0 < entryBalance (Text.trimBlank l₀ :: ls.take (i + 1))) :
    let entry := Text.trimBlank l₀ :: ls ++ [l]
    let r₁ := (r.handleLine l₀).2.1
    r₁.feed (ls ++ [l]) =
        (if entryBalance entry ≤ 0 then
          { r₁ with pending := "", balance := 0 }.execute (entryText entry)
        else (r₁.withEntry entry, [])) ∧
      ((∀ x ∈ entry, '\n' ∉ x.toList) → ∀ toks, tokenize (entryText entry) = .ok toks →
        Lexer.StringsInLine toks → Lexer.braceCount toks = entryBalance entry) := by
  intro entry r₁
  obtain ⟨hpos, hstep⟩ := handleLine_opens hr hopen
  have hr₁ : r₁ = { r with history := r.history.push (Text.trimBlank l₀) }.withEntry
      [Text.trimBlank l₀] := congrArg Prod.fst hstep
  have hne : entryText [Text.trimBlank l₀] ≠ "" := by
    rw [entryText_singleton]
    intro h
    rw [h] at hpos
    exact absurd hpos (by decide)
  refine ⟨?_, fun hl toks h hs => entryBalance_eq_braceCount hl h hs⟩
  rw [hr₁, feed_withEntry _ ls hne hb hwait]
  rfl

/-- A lone `{` closed on the next line runs there. -/
theorem lone_brace_entry_runs :
    let r₁ := ((start Machine.fresh default).handleLine "\x7b").2.1
    (start Machine.fresh default).isMultiline = false ∧ r₁.isMultiline = true ∧
      r₁.feed ["\x7d"] =
        { r₁ with pending := "", balance := 0 }.execute (entryText ["\x7b", "\x7d"]) := by
  intro r₁
  have hopen : r₁.isMultiline = true := by decide +kernel
  have ht : Text.trimBlank "\x7b" = "\x7b" := by decide +kernel
  have h := (@handleLine_runs_entry_at_balance (start Machine.fresh default) "\x7b" "\x7d" []
    rfl hopen (by simp) (by simp)).1
  rw [List.nil_append, ht, if_pos (by decide +kernel)] at h
  exact ⟨rfl, hopen, h⟩

/-- A string literal that runs over a line break. The entry `{ print "` then `}";` lexes as a
`{`, a word, the string and a `;`, so its `{` stays open; yet `countBraces`, which starts every
line outside a string, counts the second line's `}` and the entry runs there. -/
theorem string_across_lines_runs_early :
    let r₁ := ((start Machine.fresh default).handleLine "\x7b print \"").2.1
    r₁.isMultiline = true ∧ (r₁.handleLine "\x7d\";").2.1.isMultiline = false ∧
      (tokenize (entryText ["\x7b print \"", "\x7d\";"])).toOption.map Lexer.braceCount =
        some 1 := by
  intro r₁
  have hopen : r₁.isMultiline = true := by decide +kernel
  have ht : Text.trimBlank "\x7b print \"" = "\x7b print \"" := by decide +kernel
  have hr₁ := congrArg Prod.fst (handleLine_opens (r := start Machine.fresh default) rfl hopen).2
  rw [ht] at hr₁
  change r₁ = _ at hr₁
  refine ⟨hopen, ?_, by decide +kernel⟩
  rw [hr₁, handleLine_withEntry _ (by decide +kernel) (by simp), if_pos (by decide +kernel)]
  simp [isMultiline]

end Repl

end StackScript
