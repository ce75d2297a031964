import PipeQuery.Proofs.Lexemes

/-!
# Lexemes in front of a blank

A blank behind a text changes nothing in the tokens of the text: the lexeme at its front is found
again when the text is followed by a blank and any other text (`Mode.lexeme_append`). A blank ends
names, numbers and operators, and delimited forms that are closed do not look at it. What it does
not end is a run of blanks that reaches to the end of the text, and a line comment, which a line
feed ends. And what is never closed may be closed behind it.

Each recogniser is `Steady` in this sense by itself, and so is the first of them that answers.
-/

namespace PipeQuery.Lexer

variable {text rest : List Char} {l : Lexeme} {p : Char → Bool} {n : Nat} {b : Char}

/-! ## Runs and delimited forms -/

/-- A run that a character behind the text ends does not depend on what is behind the text. -/
theorem run_append_cons {c : Char} (hc : p c = false) :
    run p (text ++ c :: rest) = run p text := by
  obtain ⟨w, after, rfl, hrun, hw, hafter⟩ := exists_run p text
  rw [hrun, List.append_assoc]
  refine run_append hw fun d hd => ?_
  cases after with
  | nil =>
    obtain rfl := Option.some.inj hd
    exact hc
  | cons e after => exact hafter d hd

/-- A comment that is closed is closed whatever follows. -/
theorem commentBody_append (h : commentBody text = .closed n) :
    commentBody (text ++ rest) = .closed n := by
  fun_induction commentBody text generalizing n with
  | case1 text =>
    obtain rfl := Extent.closed.inj h
    simp [commentBody]
  | case2 c text hc ih =>
    obtain ⟨m, hm, rfl⟩ := Extent.push_eq_closed h
    simp [commentBody, ih hm, Extent.push]
  | case4 c text hclose hpair hlast ih =>
    obtain ⟨m, hm, rfl⟩ := Extent.push_eq_closed h
    have hc : c ≠ '*' := by
      cases text with
      | nil => exact fun heq => hlast heq rfl
      | cons d text => exact fun heq => hpair d text heq rfl
    simp [commentBody, ih hm, Extent.push, hc]
  | case3 | case5 => cases h

/-- A quoted name that is closed is closed in front of anything but a backquote. -/
theorem nameBody_append (h : nameBody text = .closed n) (hr : ∀ c ∈ rest.head?, c ≠ '\x60') :
    nameBody (text ++ rest) = .closed n := by
  fun_induction nameBody text generalizing n with
  | case1 text ih =>
    obtain ⟨m, hm, rfl⟩ := Extent.push_eq_closed h
    simp [nameBody, ih hm, Extent.push]
  | case2 text htext =>
    obtain rfl := Extent.closed.inj h
    have hnext : ∀ c ∈ (text ++ rest).head?, c ≠ '\x60' := by
      cases text with
      | nil => exact hr
      | cons d text => exact fun c hc heq => htext text (by simp_all)
    rw [List.cons_append]
    cases hcons : text ++ rest with
    | nil => rfl
    | cons d after =>
      have hd : d ≠ '\x60' := hnext d (by simp [hcons])
      simp [nameBody, hd]
  | case3 c text hpair hc ih =>
    obtain ⟨m, hm, rfl⟩ := Extent.push_eq_closed h
    have hc : c ≠ '\x60' := hc
    simp [nameBody, ih hm, Extent.push, hc]
  | case4 => cases h

/-- A string that is closed is closed whatever follows. -/
theorem stringBody_append (h : stringBody text = .closed n) :
    stringBody (text ++ rest) = .closed n := by
  have hagain : stringBody (text.take n ++ (text.drop n ++ rest)) = .closed n := stringBody_again h
  rwa [← List.append_assoc, List.take_append_drop] at hagain

/-- A verbatim string that is closed is closed whatever follows. -/
theorem verbatimBody_append (h : verbatimBody text = .closed n) :
    verbatimBody (text ++ rest) = .closed n := by
  have hagain : verbatimBody (text.take n ++ (text.drop n ++ rest)) = .closed n :=
    verbatimBody_again h
  rwa [← List.append_assoc, List.take_append_drop] at hagain

/-- A blank belongs to no number, to no word and to no pattern, and it begins and goes on with no
other form. -/
theorem plain_of_isBlank (hb : isBlank b = true) :
    b.isDigit = false ∧ isWordPart b = false ∧ isPatternPart b = false ∧
      b ∉ ['\x60', '"', '/', '+', '-', '=', '.', 'e', 'E'] := by
  simp only [isBlank, Bool.or_eq_true, beq_iff_eq] at hb
  obtain ((rfl | rfl) | rfl) | rfl := hb <;> decide

/-- The exponent of a number does not depend on a blank behind the text. -/
theorem exponentLength_append_blank (hb : isBlank b = true) :
    exponentLength (text ++ b :: rest) = exponentLength text := by
  obtain ⟨hdigit, -, -, hplain⟩ := plain_of_isBlank hb
  cases text with
  | nil =>
    refine exponentLength_eq_zero fun c hc => ?_
    obtain rfl := Option.some.inj hc
    simp_all
  | cons e text =>
    obtain ⟨sign, after, rfl, hsign⟩ := exists_sign text
    have hsign' : sign = ['+'] ∨ sign = ['-'] ∨
        sign = [] ∧ ∀ c ∈ (after ++ b :: rest).head?, c ≠ '+' ∧ c ≠ '-' := by
      cases after with
      | nil => simpa using hsign.imp_right (Or.imp_right fun h => ⟨h.1, by simp_all⟩)
      | cons c after => exact hsign
    rw [List.cons_append, List.append_assoc, exponentLength_cons hsign', exponentLength_cons hsign,
      run_append_cons hdigit]

/-! ## Recognisers -/

/-- Whether a lexeme ends in front of a blank, if it reaches to the end of the text. -/
structure Lexeme.EndsAt (l : Lexeme) (b : Char) : Prop where
  error : l.shape ≠ .fixed .error
  whitespace : l.shape ≠ .fixed .whitespace
  comment : l.shape = .fixed .lineComment → b = '\n'

/-- A blank behind a text does not change what is found in it. -/
structure Steady (b : Char) (r : Recogniser) : Prop where
  /-- What is found is found again. -/
  found {text rest : List Char} {l : Lexeme} (h : r text = some l) (hl : l.EndsAt b) :
    r (text ++ b :: rest) = some l
  /-- Where nothing is found, nothing is found again. -/
  silent {text rest : List Char} (h : r text = none) (hne : text ≠ []) :
    r (text ++ b :: rest) = none

/-- The first lexeme is found again, if the recognisers find theirs again. -/
theorem firstOf_append {rs : List Recogniser} (hrs : ∀ r ∈ rs, Steady b r) (hne : text ≠ [])
    (hl : (firstOf rs text).EndsAt b) : firstOf rs (text ++ b :: rest) = firstOf rs text := by
  induction rs with
  | nil => exact absurd rfl hl.error
  | cons r rs ih =>
    obtain ⟨hr, hrs⟩ := List.forall_mem_cons.1 hrs
    rw [firstOf_cons] at hl
    rw [firstOf_cons, firstOf_cons]
    cases h : r text with
    | some l =>
      rw [h, Option.getD_some] at hl
      rw [hr.found h hl, Option.getD_some, Option.getD_some]
    | none =>
      rw [h, Option.getD_none] at hl
      rw [hr.silent h hne, Option.getD_none, Option.getD_none]
      exact ih hrs hl

theorem steady_blanks? : Steady b blanks? where
  found {text rest l} h hl := by
    cases text with
    | nil => cases h
    | cons c text =>
      rw [blanks?] at h
      split at h
      · obtain rfl := Option.some.inj h
        exact absurd rfl hl.whitespace
      · cases h
  silent {text rest} h hne := by
    obtain ⟨c, text, rfl⟩ := List.exists_cons_of_ne_nil hne
    rw [blanks?] at h
    rw [List.cons_append, blanks?]
    split at h
    · cases h
    · next hc => rw [if_neg hc]

/-- A delimited form that is no error is closed. -/
theorem Extent.exists_closed {e : Extent} {kind : Kind} (h : (e.lexeme kind n).EndsAt b) :
    ∃ m, e = .closed m := by
  cases e with
  | closed m => exact ⟨m, rfl⟩
  | unclosed m => exact absurd rfl h.error

theorem steady_comment? (hb : isBlank b = true) : Steady b comment? where
  found {text rest l} h hl := by
    unfold comment? at h
    split at h
    · next after =>
      obtain rfl := Option.some.inj h
      obtain rfl := hl.comment rfl
      have hrun : run (· != '\n') (after ++ '\n' :: rest) = run (· != '\n') after :=
        run_append_cons (by decide)
      rw [List.cons_append, List.cons_append, comment?, hrun]
    · next after =>
      obtain rfl := Option.some.inj h
      obtain ⟨m, hm⟩ := Extent.exists_closed hl
      rw [List.cons_append, List.cons_append, comment?, commentBody_append hm, hm]
    · cases h
  silent {text rest} h hne := by
    obtain ⟨-, -, -, hplain⟩ := plain_of_isBlank hb
    have hstar : b ≠ '*' := by
      rintro rfl
      cases hb
    rw [comment?_eq_none_iff] at h ⊢
    intro after
    obtain ⟨c, text, rfl⟩ := List.exists_cons_of_ne_nil hne
    cases text with
    | nil => constructor <;> rintro heq <;> simp_all
    | cons d text =>
      obtain ⟨hline, hblock⟩ := h text
      constructor <;> rintro heq <;> simp_all

theorem steady_quotedName? {kind : Kind} (hb : isBlank b = true) :
    Steady b (quotedName? kind) where
  found {text rest l} h hl := by
    unfold quotedName? at h
    split at h
    · next after =>
      obtain rfl := Option.some.inj h
      obtain ⟨m, hm⟩ := Extent.exists_closed hl
      have hnext : ∀ c ∈ (b :: rest).head?, c ≠ '\x60' := by
        obtain ⟨-, -, -, hplain⟩ := plain_of_isBlank hb
        intro c hc
        obtain rfl := Option.some.inj hc
        simp_all
      rw [List.cons_append, quotedName?, nameBody_append hm hnext, hm]
    · cases h
  silent {text rest} h hne := by
    obtain ⟨c, text, rfl⟩ := List.exists_cons_of_ne_nil hne
    exact quotedName?_eq_none_iff.2 (quotedName?_eq_none_iff.1 h)

theorem steady_string? (hb : isBlank b = true) : Steady b string? where
  found {text rest l} h hl := by
    unfold string? at h
    split at h
    · next after =>
      obtain rfl := Option.some.inj h
      obtain ⟨m, hm⟩ := Extent.exists_closed hl
      rw [List.cons_append, List.cons_append, List.cons_append, string?_verbatim,
        verbatimBody_append hm, hm]
    · next after hplain =>
      obtain rfl := Option.some.inj h
      obtain ⟨m, hm⟩ := Extent.exists_closed hl
      have hplain' : ∀ rest', after ++ b :: rest ≠ '"' :: '"' :: rest' := by
        obtain ⟨-, -, -, hb⟩ := plain_of_isBlank hb
        intro rest' heq
        rcases after with - | ⟨c, - | ⟨d, after⟩⟩ <;> simp_all
      rw [List.cons_append, string?_plain hplain', stringBody_append hm, hm]
    · cases h
  silent {text rest} h hne := by
    obtain ⟨c, text, rfl⟩ := List.exists_cons_of_ne_nil hne
    exact string?_eq_none_iff.2 (string?_eq_none_iff.1 h)

/-- A recogniser that never looks at the blank. -/
theorem Steady.of_eq {r : Recogniser} (hnil : r [] = none)
    (h : ∀ c text rest, r (c :: (text ++ b :: rest)) = r (c :: text)) : Steady b r where
  found {text rest l} hl _ := by
    cases text with
    | nil => exact absurd (hnil.symm.trans hl) (by simp)
    | cons c text => rw [List.cons_append, h, hl]
  silent {text rest} hl hne := by
    obtain ⟨c, text, rfl⟩ := List.exists_cons_of_ne_nil hne
    rw [List.cons_append, h, hl]

theorem steady_number? (hb : isBlank b = true) : Steady b number? := by
  obtain ⟨hdigit, -, -, hplain⟩ := plain_of_isBlank hb
  refine .of_eq rfl fun c text rest => ?_
  rw [← List.cons_append]
  generalize c :: text = text
  obtain ⟨digits, after, rfl, hrun, -, -⟩ := exists_run Char.isDigit text
  have hrun' : run Char.isDigit (digits ++ after ++ b :: rest) = digits.length := by
    rw [run_append_cons hdigit, hrun]
  rw [number?, number?, hrun', hrun, List.append_assoc, List.drop_left, List.drop_left]
  have hexponent : exponentLength (after ++ b :: rest) = exponentLength after :=
    exponentLength_append_blank hb
  rcases after with - | ⟨c, after⟩
  · -- neither the blank nor the end of the text goes on with a number
    have hdot : b ≠ '.' := by
      rintro rfl
      simp at hplain
    simp_all [exponentLength]
  · by_cases hc : c = '.'
    · subst hc
      obtain ⟨fraction, after, rfl, hrun, -, -⟩ := exists_run Char.isDigit after
      have hrun' : run Char.isDigit (fraction ++ after ++ b :: rest) = fraction.length := by
        rw [run_append_cons hdigit, hrun]
      rw [List.append_assoc] at hrun'
      simp only [List.cons_append, List.append_assoc, hrun', hrun, List.drop_left,
        exponentLength_append_blank hb]
    · rw [List.cons_append] at hexponent
      simp [hc, hexponent]

theorem steady_word? (hb : isBlank b = true) : Steady b word? :=
  .of_eq rfl fun c text rest => by
    have hrun : run isWordPart (text ++ b :: rest) = run isWordPart text :=
      run_append_cons (plain_of_isBlank hb).2.1
    simp only [word?, hrun]

theorem steady_comparison? (hb : isBlank b = true) : Steady b comparison? :=
  .of_eq rfl fun c text rest => by
    obtain ⟨-, -, -, hplain⟩ := plain_of_isBlank hb
    unfold comparison?
    cases text with
    | nil => split <;> simp_all
    | cons d text =>
      rw [List.cons_append]
      by_cases hd : d = '='
      · subst hd
        by_cases hc : c = '=' ∨ c = '!' ∨ c = '<' ∨ c = '>'
        · rcases hc with rfl | rfl | rfl | rfl <;> rfl
        · split <;> simp_all
      · split <;> simp_all

theorem steady_single? {table : List (Char × Shape)} : Steady b (single? table) :=
  .of_eq rfl fun _ _ _ => rfl

theorem steady_pattern? {shape : Shape} (hb : isBlank b = true) : Steady b (pattern? shape) :=
  .of_eq rfl fun c text rest => by
    have hrun : run isPatternPart (text ++ b :: rest) = run isPatternPart text :=
      run_append_cons (plain_of_isBlank hb).2.2.1
    simp only [pattern?, hrun]

/-! ## Modes -/

/-- In each mode the lexeme at the front of a text is found again in front of a blank. -/
theorem Mode.lexeme_append (m : Mode) (hb : isBlank b = true) (hne : text ≠ [])
    (hl : (m.lexeme text).EndsAt b) : m.lexeme (text ++ b :: rest) = m.lexeme text := by
  cases m with
  | command | explain | expression =>
    refine firstOf_append (fun r hr => ?_) hne hl
    simp only [List.mem_cons, List.not_mem_nil, or_false] at hr
    rcases hr with rfl | rfl | rfl | rfl | rfl | rfl | rfl | rfl
    · exact steady_blanks?
    · exact steady_comment? hb
    · exact steady_quotedName? hb
    · exact steady_string? hb
    · exact steady_number? hb
    · exact steady_word? hb
    · exact steady_comparison? hb
    · exact steady_single?
  | source | enrich =>
    refine firstOf_append (fun r hr => ?_) hne hl
    simp only [List.mem_cons, List.not_mem_nil, or_false] at hr
    rcases hr with rfl | rfl | rfl | rfl | rfl
    · exact steady_blanks?
    · exact steady_comment? hb
    · exact steady_quotedName? hb
    · exact steady_pattern? hb
    · exact steady_single?

/-! ## Runs of blanks -/

/-- Any spelling of any shape but that of a run of blanks. -/
def NoBlanks (shape : Shape) (_ : List Char) : Prop := shape ≠ .fixed .whitespace

/-- Recognisers of other families do not find a run of blanks. -/
theorem isBlank_of_firstOf (stops : List Char) {rs : List Recogniser} {c : Char}
    (hrs : ∀ r ∈ rs, Lawful stops NoBlanks r)
    (h : (firstOf (blanks? :: rs) (c :: text)).shape = .fixed .whitespace) :
    isBlank c = true := by
  by_contra hc
  have hblanks : blanks? (c :: text) = none := by simpa [blanks?] using hc
  rw [firstOf_cons, hblanks, Option.getD_none] at h
  obtain ⟨w, hf⟩ := exists_found_firstOf hrs (fun _ => by simp [NoBlanks]) (List.cons_ne_nil c text)
  exact hf.spells h

theorem lawful_comment?_noBlanks : Lawful expressionBreaks NoBlanks comment? :=
  lawful_comment? (by simp [NoBlanks]) (by simp [NoBlanks]) (by simp [NoBlanks])

theorem lawful_quotedName?_noBlanks {kind : Kind} (hk : kind ≠ .whitespace) :
    Lawful expressionBreaks NoBlanks (quotedName? kind) :=
  lawful_quotedName? (by simpa [NoBlanks] using hk) (by simp [NoBlanks])

/-- Only blanks begin a run of blanks. -/
theorem Mode.isBlank_of_lexeme (m : Mode) {c : Char}
    (h : (m.lexeme (c :: text)).shape = .fixed .whitespace) : isBlank c = true := by
  cases m with
  | command | explain | expression =>
    refine isBlank_of_firstOf expressionBreaks (fun r hr => ?_) h
    simp only [List.mem_cons, List.not_mem_nil, or_false] at hr
    rcases hr with rfl | rfl | rfl | rfl | rfl | rfl | rfl
    · exact lawful_comment?_noBlanks
    · exact lawful_quotedName?_noBlanks (by decide)
    · exact lawful_string? (by simp [NoBlanks]) (by simp [NoBlanks])
    · refine lawful_number? fun k w hw => ?_
      obtain - | - | - := hw <;> simp [NoBlanks]
    · exact lawful_word? (by simp [NoBlanks])
    · exact lawful_comparison? (by simp [NoBlanks]) (by simp [NoBlanks])
    · exact lawful_single? (by simp [NoBlanks])
  | source | enrich =>
    refine isBlank_of_firstOf patternBreaks (fun r hr => ?_) h
    simp only [List.mem_cons, List.not_mem_nil, or_false] at hr
    rcases hr with rfl | rfl | rfl | rfl
    · exact lawful_comment?_noBlanks.mono patternBreaks_subset
    · exact (lawful_quotedName?_noBlanks (by decide)).mono patternBreaks_subset
    · exact lawful_pattern? (by simp [NoBlanks])
    · exact (lawful_single? (by simp [NoBlanks])).mono patternBreaks_subset

end PipeQuery.Lexer
