import PipeQuery.Ast.Name
import PipeQuery.Proofs.Places

/-!
# Names in backquotes

Between backquotes a name may have any text, with each of its own backquotes written twice
(`Quoting.quoteName`). Taking the quotes away gives the name back (`unquoteName_quoteName`), and the
lexer pairs the backquotes as they were doubled: it ends the name at its last backquote
(`nameBody_double`), and what it ends is the quoted form of some name (`exists_double_of_nameBody`).

A token has the kind of a quoted name only if it begins with a backquote (`Backquoted`). So quoting
and reading are inverse to each other, in every mode (`quoted_tokenizeFrom`).
-/

namespace PipeQuery

open Lexer

variable {s text tail w : List Char} {n : Nat} {k : Kind} {m : Mode}

namespace Quoting

/-- The quotes around a text are taken away. -/
theorem unwrap?_append (mark inner : List Char) :
    unwrap? mark (mark ++ (inner ++ mark)) = some inner := by
  have hfront : mark.isPrefixOf? (mark ++ (inner ++ mark)) = some (inner ++ mark) :=
    List.isPrefixOf?_eq_some_iff_append_eq.2 rfl
  have hback : mark.isSuffixOf? (inner ++ mark) = some inner :=
    List.isSuffixOf?_eq_some_iff_append_eq.2 rfl
  rw [unwrap?, hfront, Option.bind_some, hback]

/-- Writes each backquote twice. -/
def double : List Char → List Char
  | [] => []
  | c :: s => if c = '\x60' then c :: c :: double s else c :: double s

/-- A name in backquotes. -/
def quoteName (name : List Char) : List Char := '\x60' :: (double name ++ ['\x60'])

/-- Doubled backquotes are paired as they were doubled. -/
theorem undouble_double (s : List Char) : undouble (double s) = s := by
  induction s with
  | nil => rfl
  | cons c s ih =>
    by_cases hc : c = '\x60'
    · subst hc
      rw [double, if_pos rfl, undouble, ih]
    · rw [double, if_neg hc, undouble]
      · rw [ih]
      · intro _ heq
        exact absurd heq hc

theorem unquoteName_quoteName (s : List Char) : unquoteName (quoteName s) = s := by
  have hunwrap : unwrap? ['\x60'] (quoteName s) = some (double s) := unwrap?_append ['\x60'] _
  rw [unquoteName, hunwrap]
  exact undouble_double s

end Quoting

open Quoting

namespace Lexer

/-- The backquotes inside a name do not close it, and the one behind it does. -/
theorem nameBody_double (ht : ∀ c ∈ tail.head?, c ≠ '\x60') :
    nameBody (double s ++ '\x60' :: tail) = .closed ((double s).length + 1) := by
  induction s with
  | nil =>
    cases tail with
    | nil => rfl
    | cons c tail =>
      have hc : c ≠ '\x60' := ht c rfl
      simp [double, nameBody, hc]
  | cons c s ih =>
    by_cases hc : c = '\x60'
    · subst hc
      rw [double, if_pos rfl]
      show (nameBody (double s ++ '\x60' :: tail)).push 2 = _
      rw [ih, Extent.push, List.length_cons, List.length_cons]
      congr 1
      omega
    · rw [double, if_neg hc, List.cons_append, nameBody, ih, Extent.push, List.length_cons]
      · congr 1
        omega
      · intro _ heq
        exact absurd heq hc
      · exact hc

/-- What is closed is a name with its backquotes doubled. -/
theorem exists_double_of_nameBody (h : nameBody text = .closed n) :
    ∃ s, text.take n = double s ++ ['\x60'] := by
  fun_induction nameBody text generalizing n with
  | case1 rest ih =>
    obtain ⟨m, hm, rfl⟩ := Extent.push_eq_closed h
    obtain ⟨s, hs⟩ := ih hm
    refine ⟨'\x60' :: s, ?_⟩
    rw [double, if_pos rfl, Nat.add_comm, List.take_succ_cons, List.take_succ_cons, hs]
    rfl
  | case2 rest hrest =>
    obtain rfl := Extent.closed.inj h
    exact ⟨[], rfl⟩
  | case3 c rest hpair hc ih =>
    obtain ⟨m, hm, rfl⟩ := Extent.push_eq_closed h
    obtain ⟨s, hs⟩ := ih hm
    have hc : c ≠ '\x60' := hc
    refine ⟨c :: s, ?_⟩
    rw [double, if_neg hc, Nat.add_comm, List.take_succ_cons, hs]
    rfl
  | case4 => cases h

/-- The kind of the names in backquotes of a mode. -/
def Mode.quotedKind : Mode → Kind
  | .command | .explain | .expression => .quotedIdentifier
  | .source => .quotedSourceIdentifier
  | .enrich => .quotedEnrichIdentifier

theorem Mode.isQuotedIdentifier_quotedKind (m : Mode) : m.quotedKind.isQuotedIdentifier = true := by
  cases m <;> rfl

/-- A backquote opens a name in every mode. -/
theorem Mode.lexeme_backquote (m : Mode) (text : List Char) :
    m.lexeme ('\x60' :: text) = (nameBody text).lexeme m.quotedKind 1 := by
  cases m <;>
    simp [lexeme, quotedKind, expressionLexeme, sourceLexeme, enrichLexeme, firstOf, blanks?,
      isBlank, comment?, quotedName?]

/-! ## What is read as a quoted name -/

/-- Tokens with the kind of a name in backquotes begin with one. -/
def Backquoted (shape : Shape) (w : List Char) : Prop :=
  ∀ k, shape = .fixed k → k.isQuotedIdentifier = true → w.head? = some '\x60'

theorem backquoted_fixed (hk : k.isQuotedIdentifier = false) (w : List Char) :
    Backquoted (.fixed k) w := by
  rintro _ ⟨⟩ hquoted
  rw [hk] at hquoted
  cases hquoted

theorem lawful_backquoted {kind : Kind} : Lawful expressionBreaks Backquoted (quotedName? kind) :=
  lawful_quotedName? (fun _ _ _ _ => rfl) (backquoted_fixed rfl)

/-- The lexeme at the front of a text is the quoted name that its shape says. -/
theorem Mode.exists_found_backquoted (m : Mode) (hne : text ≠ []) :
    ∃ w, Found patternBreaks Backquoted (fun text => some (m.lexeme text)) text (m.lexeme text)
      w := by
  have herror : ∀ w, Backquoted (.fixed .error) w := backquoted_fixed rfl
  have hblanks : Lawful expressionBreaks Backquoted blanks? := lawful_blanks? (backquoted_fixed rfl)
  have hcomment : Lawful expressionBreaks Backquoted comment? :=
    lawful_comment? (backquoted_fixed rfl) (backquoted_fixed rfl) herror
  have hsingle {table : List (Char × Shape)}
      (h : ∀ entry ∈ table, ∀ k, entry.2 = .fixed k → k.isQuotedIdentifier = false) :
      Lawful expressionBreaks Backquoted (single? table) := by
    apply lawful_single?
    intro entry hentry k hk hquoted
    rw [h entry hentry k hk] at hquoted
    cases hquoted
  have hpatterns {kind : Kind} {shape : Shape} {table : List (Char × Shape)}
      (hs : ∀ w, Backquoted shape w)
      (h : ∀ entry ∈ table, ∀ k, entry.2 = .fixed k → k.isQuotedIdentifier = false) :
      ∀ r ∈ [blanks?, comment?, quotedName? kind, pattern? shape, single? table],
        Lawful patternBreaks Backquoted r := by
    intro r hr
    simp only [List.mem_cons, List.not_mem_nil, or_false] at hr
    rcases hr with rfl | rfl | rfl | rfl | rfl
    · exact hblanks.mono patternBreaks_subset
    · exact hcomment.mono patternBreaks_subset
    · exact lawful_backquoted.mono patternBreaks_subset
    · exact lawful_pattern? fun w _ => hs w
    · exact (hsingle h).mono patternBreaks_subset
  have hword (w : List Char) : Backquoted .word w := by rintro _ ⟨⟩
  cases m with
  | command | explain | expression =>
    apply exists_found_firstOf _ herror hne
    intro r hr
    apply Lawful.mono _ patternBreaks_subset
    simp only [List.mem_cons, List.not_mem_nil, or_false] at hr
    rcases hr with rfl | rfl | rfl | rfl | rfl | rfl | rfl | rfl
    · exact hblanks
    · exact hcomment
    · exact lawful_backquoted
    · exact lawful_string? (backquoted_fixed rfl) herror
    · apply lawful_number?
      rintro k w (_ | _ | _) <;> exact backquoted_fixed rfl _
    · exact lawful_word? fun w _ => hword w
    · exact lawful_comparison? (backquoted_fixed rfl _) fun _ => backquoted_fixed rfl _
    · exact hsingle (by simp [Kind.isQuotedIdentifier])
  | source =>
    exact exists_found_firstOf (hpatterns (backquoted_fixed rfl) (by simp [Kind.isQuotedIdentifier]))
      herror hne
  | enrich =>
    exact exists_found_firstOf (hpatterns hword (by simp [Kind.isQuotedIdentifier])) herror hne

/-- No word is a quoted name. -/
theorem isQuotedIdentifier_of_read_word {fs fs' : Frames} {t : Token}
    (h : fs.read .word t.text = (k, fs')) : k.isQuotedIdentifier = false := by
  have hword := isWordKind_of_read_word h
  revert hword
  cases k <;> decide

/-- A token with the kind of a quoted name is the quoted form of some name. -/
theorem Cut.exists_quoteName {fs fs' : Frames} {shape : Shape} {t : Token}
    (h : Cut fs shape w tail t fs') (hk : t.kind.isQuotedIdentifier = true) :
    ∃ s, w = quoteName s := by
  have hshape : shape = .fixed t.kind := by
    have hread := h.read
    cases shape with
    | fixed k => rw [(Prod.mk.inj hread).1]
    | word => exact absurd hk (by simp [isQuotedIdentifier_of_read_word hread])
    | pipe | leftBracket | rightBracket =>
      rw [← (Prod.mk.inj hread).1] at hk
      cases hk
  have hne : w ++ tail ≠ [] := by simp [h.ne_nil]
  obtain ⟨v, hf⟩ := fs.current.mode.exists_found_backquoted hne
  rw [h.lexeme, hshape] at hf
  obtain ⟨rest, hrest⟩ := hf.front
  obtain ⟨rfl, -⟩ := List.append_inj hrest hf.length
  obtain ⟨inner, rfl⟩ := List.head?_eq_some_iff.1 (hf.spells t.kind rfl hk)
  have hlex := h.lexeme
  rw [hshape, List.cons_append, Mode.lexeme_backquote, List.length_cons] at hlex
  cases hbody : nameBody (inner ++ tail) with
  | closed n =>
    rw [hbody, Extent.lexeme, Lexeme.mk.injEq] at hlex
    obtain rfl : n = inner.length := by omega
    obtain ⟨s, hs⟩ := exists_double_of_nameBody hbody
    rw [List.take_left] at hs
    exact ⟨s, congrArg _ hs⟩
  | unclosed n =>
    rw [hbody, Extent.lexeme, Lexeme.mk.injEq] at hlex
    rw [← Shape.fixed.inj hlex.1] at hk
    cases hk

end Lexer

/-! ## Names in backquotes -/

/-- A name in backquotes as a text. -/
def quoted (name : String) : String := String.ofList (quoteName name.toList)

theorem toList_quoted (name : String) : (quoted name).toList = quoteName name.toList :=
  String.toList_ofList

/-- In every mode the lexeme of a name in backquotes is all of it. -/
theorem Lexer.Mode.lexeme_quoted (m : Mode) (name : String) :
    m.lexeme (quoted name).toList = ⟨.fixed m.quotedKind, (quoted name).length⟩ := by
  have hbody : nameBody (double name.toList ++ ['\x60']) = .closed ((double name.toList).length + 1) :=
    nameBody_double (by simp)
  rw [← String.length_toList, toList_quoted, quoteName, m.lexeme_backquote, hbody, Extent.lexeme,
    List.length_cons, List.length_append, Nat.add_comm]
  rfl

/-- A name in backquotes is read as a single token that gives the name back, whichever mode the text
begins in. And every token that is read as a name in backquotes is just that name in backquotes. -/
theorem quoted_tokenizeFrom :
    (∀ (name : String) (m : Mode), ∃ t e, tokenizeFrom m (quoted name) = [t, e] ∧
      e.kind = .endOfInput ∧ t.kind = m.quotedKind ∧ t.text = quoted name ∧ t.start = 0 ∧
      t.stop = (quoted name).utf8ByteSize ∧
      ∀ span, (Identifier.ofToken t span).quoted = true ∧ (Identifier.ofToken t span).name = name) ∧
    ∀ (m : Mode) (text : String), ∀ t ∈ tokenizeFrom m text, t.kind.isQuotedIdentifier = true →
      ∀ span, t.text = quoted (Identifier.ofToken t span).name := by
  have hname {t : Token} (hk : t.kind.isQuotedIdentifier = true) {name : String}
      (ht : t.text = quoted name) (span : Span) : (Identifier.ofToken t span).name = name := by
    show (if t.kind.isQuotedIdentifier then _ else _) = name
    rw [if_pos hk]
    show String.ofList (unquoteName t.text.toList) = name
    rw [ht, toList_quoted, unquoteName_quoteName, String.ofList_toList]
  constructor
  · intro name m
    have hne : quoted name ≠ "" := by
      intro hnil
      have hlist := toList_quoted name
      rw [hnil] at hlist
      cases hlist
    have hquoted := m.isQuotedIdentifier_quotedKind
    exact ⟨_, _, tokenizeFrom_of_lexeme hne (m.lexeme_quoted name), rfl, rfl, rfl, rfl, rfl,
      fun span => ⟨hquoted, hname hquoted rfl span⟩⟩
  · intro m text t ht hk span
    obtain ⟨ts, e, htokens, he, hcuts⟩ := exists_cuts_tokenizeFrom m text
    have hmem : t ∈ ts := by
      rw [htokens] at ht
      rcases List.mem_append.1 ht with ht | ht
      · exact ht
      · rw [List.mem_singleton.1 ht, he] at hk
        cases hk
    obtain ⟨fs, shape, w, tail, fs', hcut⟩ := hcuts.exists_cut hmem
    obtain ⟨s, rfl⟩ := hcut.exists_quoteName hk
    have htext : t.text = quoted (String.ofList s) := by
      rw [quoted, String.toList_ofList]
      exact hcut.text
    rw [hname hk htext, htext]

theorem quoted_tokenizeFrom_source :
    (⟨.quotedSourceIdentifier, "\x60a\x60\x60\x60", 0, 5, 1, 0⟩ : Token)
        ∈ tokenizeFrom .source "\x60a\x60\x60\x60" ∧
      Kind.quotedSourceIdentifier.isQuotedIdentifier = true ∧
      "\x60a\x60\x60\x60" = quoted (Identifier.ofToken
        ⟨.quotedSourceIdentifier, "\x60a\x60\x60\x60", 0, 5, 1, 0⟩ ⟨0, 1⟩).name := by
  have hmem : (⟨.quotedSourceIdentifier, "\x60a\x60\x60\x60", 0, 5, 1, 0⟩ : Token)
      ∈ tokenizeFrom .source "\x60a\x60\x60\x60" := by decide +kernel
  exact ⟨hmem, rfl, quoted_tokenizeFrom.2 .source _ _ hmem rfl ⟨0, 1⟩⟩

end PipeQuery
