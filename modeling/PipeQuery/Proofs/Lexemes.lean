import PipeQuery.Proofs.Spelling

/-!
# What is at the front of a text

Every recogniser is `Lawful`: what it finds is a piece of the text that spells its shape, and it
finds the same piece again in front of another text, as long as that begins with a character that
stops tokens off. Where it finds nothing it finds nothing there either. So the lexeme at the front
of a text in a mode is found again in front of whatever printing puts behind it (`Mode.lexeme_again`).

Comments, blanks and errors are left out: a comment or a string that is never closed goes on.
-/

namespace PipeQuery.Lexer

variable {text tail rest w : List Char} {l : Lexeme} {p : Char → Bool} {stops : List Char}
  {spelled : Shape → List Char → Prop}

/-! ## Runs -/

/-- A run ends in front of the first character that is not of its class. -/
theorem run_append (hw : ∀ c ∈ w, p c = true) (ht : ∀ c ∈ tail.head?, p c = false) :
    run p (w ++ tail) = w.length := by
  have htail : tail.takeWhile p = [] := by
    cases tail with
    | nil => rfl
    | cons c tail => simp [ht c rfl]
  rw [run, List.takeWhile_append_of_pos hw, htail, List.append_nil]

/-- A text is a run and what is behind it. -/
theorem exists_run (p : Char → Bool) (text : List Char) :
    ∃ w rest, text = w ++ rest ∧ run p text = w.length ∧ (∀ c ∈ w, p c = true) ∧
      ∀ c ∈ rest.head?, p c = false := by
  refine ⟨text.takeWhile p, text.dropWhile p, List.takeWhile_append_dropWhile.symm, rfl,
    fun c hc => List.mem_takeWhile_imp hc, ?_⟩
  intro c hc
  have hnot := List.head?_dropWhile_not p text
  rw [Option.mem_def.1 hc] at hnot
  exact hnot

/-! ## Numbers -/

/-- The exponent of a number. -/
inductive Exponent : List Char → Prop
  | mk {e : Char} {sign digits : List Char} (he : e = 'e' ∨ e = 'E')
    (hsign : sign ∈ [[], ['+'], ['-']]) (hne : digits ≠ []) (hdigits : ∀ c ∈ digits, c.isDigit = true) :
    Exponent (e :: (sign ++ digits))

/-- A number as written, of a given kind. -/
inductive Numeral : Kind → List Char → Prop
  | integer {digits : List Char} (hne : digits ≠ []) (hdigits : ∀ c ∈ digits, c.isDigit = true) :
    Numeral .integer digits
  | scaled {digits x : List Char} (hne : digits ≠ []) (hdigits : ∀ c ∈ digits, c.isDigit = true)
    (exponent : Exponent x) : Numeral .decimal (digits ++ x)
  | pointed {digits fraction x : List Char} (hne : digits ++ fraction ≠ [])
    (hdigits : ∀ c ∈ digits, c.isDigit = true) (hfraction : ∀ c ∈ fraction, c.isDigit = true)
    (exponent : x = [] ∨ Exponent x) : Numeral .decimal (digits ++ '.' :: (fraction ++ x))

theorem Exponent.not_isDigit (h : Exponent w) : ∀ c ∈ (w ++ tail).head?, c.isDigit = false := by
  obtain ⟨he, -, -, -⟩ := h
  rcases he with rfl | rfl <;> simp

/-- What an exponent is made of. -/
theorem exponentLength_cons {e : Char} {sign after : List Char}
    (hsign : sign = ['+'] ∨ sign = ['-'] ∨ sign = [] ∧ ∀ c ∈ after.head?, c ≠ '+' ∧ c ≠ '-') :
    exponentLength (e :: (sign ++ after)) =
      if (e == 'e' || e == 'E') && 0 < run Char.isDigit after
        then 1 + sign.length + run Char.isDigit after else 0 := by
  rcases hsign with rfl | rfl | ⟨rfl, hafter⟩
  · rfl
  · rfl
  · cases after with
    | nil => rfl
    | cons c after =>
      obtain ⟨hplus, hminus⟩ := hafter c rfl
      simp only [exponentLength, List.nil_append]
      split <;> simp_all

/-- A text is a sign, if there is one, and what is behind it. -/
theorem exists_sign (text : List Char) : ∃ sign after, text = sign ++ after ∧
    (sign = ['+'] ∨ sign = ['-'] ∨ sign = [] ∧ ∀ c ∈ after.head?, c ≠ '+' ∧ c ≠ '-') := by
  cases text with
  | nil => exact ⟨[], [], rfl, by simp⟩
  | cons c text =>
    by_cases hp : c = '+'
    · exact ⟨['+'], text, by rw [hp]; rfl, .inl rfl⟩
    · by_cases hm : c = '-'
      · exact ⟨['-'], text, by rw [hm]; rfl, .inr (.inl rfl)⟩
      · exact ⟨[], c :: text, rfl, by simp [hp, hm]⟩

/-- An exponent is found in front of anything but digits. -/
theorem exponentLength_append (h : Exponent w) (ht : ∀ c ∈ tail.head?, c.isDigit = false) :
    exponentLength (w ++ tail) = w.length := by
  obtain @⟨e, sign, digits, he, hsign, hne, hdigits⟩ := h
  have hrun : run Char.isDigit (digits ++ tail) = digits.length := run_append hdigits ht
  have hpos : 0 < digits.length := List.length_pos_iff.2 hne
  have hsigned : sign = ['+'] ∨ sign = ['-'] ∨
      sign = [] ∧ ∀ c ∈ (digits ++ tail).head?, c ≠ '+' ∧ c ≠ '-' := by
    obtain ⟨d, ds, rfl⟩ := List.exists_cons_of_ne_nil hne
    have hd : d ≠ '+' ∧ d ≠ '-' := by
      have hd := hdigits d (List.mem_cons_self ..)
      constructor <;> rintro rfl <;> simp at hd
    simp only [List.mem_cons, List.not_mem_nil, or_false] at hsign
    rcases hsign with rfl | rfl | rfl <;> simp [hd]
  have hletter : (e == 'e' || e == 'E') = true := by simpa using he
  rw [List.cons_append, List.append_assoc, exponentLength_cons hsigned, hrun, hletter,
    if_pos (by simpa using hpos), List.length_cons, List.length_append]
  omega

/-- What the length of the exponent says. -/
theorem exponentLength_cases (text : List Char) :
    exponentLength text = 0 ∨
      ∃ w rest, text = w ++ rest ∧ Exponent w ∧ exponentLength text = w.length := by
  cases text with
  | nil => exact .inl rfl
  | cons e text =>
    obtain ⟨sign, after, rfl, hsigned⟩ := exists_sign text
    obtain ⟨digits, rest, rfl, hrun, hdigits, -⟩ := exists_run Char.isDigit after
    rw [exponentLength_cons hsigned, hrun]
    split
    · next hfound =>
      simp only [Bool.and_eq_true, decide_eq_true_eq] at hfound
      have hsign : sign ∈ [[], ['+'], ['-']] := by
        rcases hsigned with rfl | rfl | ⟨rfl, -⟩ <;> simp
      refine .inr ⟨e :: (sign ++ digits), rest, by simp, ⟨by simpa using hfound.1, hsign,
        List.length_pos_iff.1 hfound.2, hdigits⟩, ?_⟩
      rw [List.length_cons, List.length_append]
      omega
    · exact .inl rfl

/-- No exponent begins with a character that is neither of its letters. -/
theorem exponentLength_eq_zero (ht : ∀ c ∈ tail.head?, c ≠ 'e' ∧ c ≠ 'E') :
    exponentLength tail = 0 := by
  cases tail with
  | nil => rfl
  | cons c tail =>
    obtain ⟨hlower, hupper⟩ := ht c rfl
    simp [exponentLength, hlower, hupper]

/-- A number is found in front of anything that does not go on with it. -/
theorem number?_append {k : Kind} (h : Numeral k w)
    (ht : ∀ c ∈ tail.head?, c.isDigit = false ∧ c ≠ '.' ∧ c ≠ 'e' ∧ c ≠ 'E') :
    number? (w ++ tail) = some ⟨.fixed k, w.length⟩ := by
  have hdigit : ∀ c ∈ tail.head?, c.isDigit = false := fun c hc => (ht c hc).1
  have hzero : exponentLength tail = 0 := exponentLength_eq_zero fun c hc => (ht c hc).2.2
  cases h with
  | integer hne hdigits =>
    have hpos : w.length ≠ 0 := by simpa using hne
    rw [number?, run_append hdigits hdigit, List.drop_left]
    cases tail with
    | nil => simp [hpos, hzero]
    | cons c tail =>
      have hc : c ≠ '.' := (ht c rfl).2.1
      simp [hpos, hc, hzero]
  | @scaled digits x hne hdigits exponent =>
    have hpos : digits.length ≠ 0 := by simpa using hne
    have hx := exponentLength_append exponent hdigit
    rw [List.append_assoc, number?, run_append hdigits exponent.not_isDigit, List.drop_left]
    obtain @⟨e, sign, ds, he, -, -, -⟩ := exponent
    have he' : e ≠ '.' := by rcases he with rfl | rfl <;> decide
    have hxne : (e :: (sign ++ ds)).length ≠ 0 := by simp
    simp only [List.cons_append] at hx ⊢
    split
    · next heq => exact absurd (List.cons.inj heq).1 he'
    · rw [hx, if_neg hpos, if_neg hxne, List.length_append]
  | @pointed digits fraction x hne hdigits hfraction exponent =>
    have hx : exponentLength (x ++ tail) = x.length := by
      rcases exponent with rfl | hx
      · exact hzero
      · exact exponentLength_append hx hdigit
    have hxt : ∀ c ∈ (x ++ tail).head?, c.isDigit = false := by
      rcases exponent with rfl | hx
      · exact hdigit
      · exact hx.not_isDigit
    have hsum : digits.length + fraction.length ≠ 0 := by
      rw [← List.length_append]
      simpa using hne
    rw [List.append_assoc, List.cons_append, List.append_assoc, number?,
      run_append hdigits (by simp), List.drop_left]
    simp only [run_append hfraction hxt, List.drop_left, hx, hsum]
    simp
    omega

/-- What is found as a number is one. -/
theorem exists_numeral (h : number? text = some l) :
    ∃ k w rest, text = w ++ rest ∧ Numeral k w ∧ l = ⟨.fixed k, w.length⟩ := by
  obtain ⟨digits, after, rfl, hrun, hdigits, -⟩ := exists_run Char.isDigit text
  rw [number?, hrun, List.drop_left] at h
  split at h
  · next after =>
    obtain ⟨fraction, rest, rfl, hrun, hfraction, -⟩ := exists_run Char.isDigit after
    simp only [hrun, List.drop_left] at h
    split at h
    · cases h
    · next hsum =>
      have hne : digits ++ fraction ≠ [] := by
        rw [← List.length_pos_iff, List.length_append]
        omega
      obtain rfl := Option.some.inj h
      rcases exponentLength_cases rest with hx | ⟨x, rest, rfl, hexp, hx⟩
      · refine ⟨.decimal, _, rest, ?_, .pointed hne hdigits hfraction (.inl rfl), ?_⟩
        · simp
        · simp only [hx, List.length_append, List.length_cons, List.length_nil]
          congr 1
          omega
      · refine ⟨.decimal, _, rest, ?_, .pointed hne hdigits hfraction (.inr hexp), ?_⟩
        · simp
        · simp only [hx, List.length_append, List.length_cons]
          congr 1
          omega
  · split at h
    · cases h
    · next hpos =>
      have hne : digits ≠ [] := by simpa using hpos
      rcases exponentLength_cases after with hx | ⟨x, rest, rfl, hexp, hx⟩
      · rw [if_pos hx] at h
        exact ⟨.integer, digits, after, rfl, .integer hne hdigits, (Option.some.inj h).symm⟩
      · have hxpos : x.length ≠ 0 := by
          obtain ⟨-, -, -, -⟩ := hexp
          simp
        rw [hx, if_neg hxpos] at h
        refine ⟨.decimal, digits ++ x, rest, by simp, .scaled hne hdigits hexp, ?_⟩
        rw [List.length_append]
        exact (Option.some.inj h).symm

/-! ## Delimited forms -/

theorem Extent.push_eq_closed {n m : Nat} {e : Extent} (h : e.push n = .closed m) :
    ∃ k, e = .closed k ∧ m = n + k := by
  cases e with
  | closed k => exact ⟨k, rfl, (Extent.closed.inj h).symm⟩
  | unclosed k => cases h

/-- How far an extent reaches, closed or not. -/
def Extent.length : Extent → Nat
  | closed n | unclosed n => n

@[simp] theorem Extent.length_closed (n : Nat) : (closed n).length = n := rfl

@[simp] theorem Extent.length_unclosed (n : Nat) : (unclosed n).length = n := rfl

@[simp] theorem Extent.length_push (n : Nat) (e : Extent) : (e.push n).length = n + e.length := by
  cases e <;> rfl

theorem commentBody_le (text : List Char) : (commentBody text).length ≤ text.length := by
  fun_induction commentBody text <;> simp_all <;> omega

theorem nameBody_le (text : List Char) : (nameBody text).length ≤ text.length := by
  fun_induction nameBody text <;> simp_all <;> omega

theorem stringBody_le (text : List Char) : (stringBody text).length ≤ text.length := by
  fun_induction stringBody text <;> simp_all <;> omega

theorem verbatimBody_le (text : List Char) : (verbatimBody text).length ≤ text.length := by
  fun_induction verbatimBody text <;> simp_all <;> omega

variable {n : Nat}

/-- A quoted name that is closed is closed wherever no backquote follows. -/
theorem nameBody_again (h : nameBody text = .closed n) (ht : ∀ c ∈ tail.head?, c ≠ '\x60') :
    nameBody (text.take n ++ tail) = .closed n := by
  fun_induction nameBody text generalizing n with
  | case1 rest ih =>
    obtain ⟨m, hm, rfl⟩ := Extent.push_eq_closed h
    have hrest := ih hm
    simp [Nat.add_comm 2, nameBody, hrest, Extent.push]
  | case2 rest hrest =>
    obtain rfl := Extent.closed.inj h
    cases tail with
    | nil => rfl
    | cons c tail =>
      have hc : c ≠ '\x60' := ht c rfl
      simp [nameBody, hc]
  | case3 c rest hpair hc ih =>
    obtain ⟨m, hm, rfl⟩ := Extent.push_eq_closed h
    have hrest := ih hm
    have hc' : c ≠ '\x60' := hc
    simp [Nat.add_comm 1, nameBody, hrest, Extent.push, hc']
  | case4 => cases h

/-- A string that is closed is closed whatever follows. -/
theorem stringBody_again (h : stringBody text = .closed n) :
    stringBody (text.take n ++ tail) = .closed n := by
  fun_induction stringBody text generalizing n with
  | case1 rest =>
    obtain rfl := Extent.closed.inj h
    simp [stringBody]
  | case3 c rest hc ih =>
    obtain ⟨m, hm, rfl⟩ := Extent.push_eq_closed h
    have hrest := ih hm
    simp [Nat.add_comm 2, stringBody, hrest, Extent.push, hc]
  | case6 c rest hquote hpair hlast hc ih =>
    obtain ⟨m, hm, rfl⟩ := Extent.push_eq_closed h
    have hrest := ih hm
    have hback : c ≠ '\\' := by
      cases rest with
      | nil => exact fun heq => hlast heq rfl
      | cons d rest => exact fun heq => hpair d rest heq rfl
    simp [Nat.add_comm 1, stringBody, hrest, Extent.push, hc, hback]
  | case2 | case4 | case5 | case7 => cases h

/-- A verbatim string that is closed is closed whatever follows. -/
theorem verbatimBody_again (h : verbatimBody text = .closed n) :
    verbatimBody (text.take n ++ tail) = .closed n := by
  fun_induction verbatimBody text generalizing n with
  | case1 rest => 
    obtain rfl := Extent.closed.inj h
    simp [verbatimBody]
  | case2 c rest hc ih =>
    obtain ⟨m, hm, rfl⟩ := Extent.push_eq_closed h
    have hrest := ih hm
    simp [Nat.add_comm 3, verbatimBody, hrest, Extent.push]
  | case4 c rest htriple hpair hlast ih =>
    obtain ⟨m, hm, rfl⟩ := Extent.push_eq_closed h
    have hrest := ih hm
    have hc : c ≠ '"' := by
      cases rest with
      | nil => exact fun heq => hlast heq rfl
      | cons d rest => exact fun heq => hpair d rest heq rfl
    simp [Nat.add_comm 2, verbatimBody, hrest, Extent.push, hc]
  | case6 c rest htriple hdouble hend hpair hlast ih =>
    obtain ⟨m, hm, rfl⟩ := Extent.push_eq_closed h
    have hrest := ih hm
    have hc : c ≠ '"' := by
      cases rest with
      | nil => exact fun heq => hlast heq rfl
      | cons d rest => exact fun heq => hpair d rest heq rfl
    simp [Nat.add_comm 1, verbatimBody, hrest, Extent.push, hc]
  | case3 | case5 | case7 => cases h

/-! ## What recognisers find -/

/-- Neither an error nor a blank nor a comment. -/
def Shape.IsSolid (s : Shape) : Prop := ∀ k, s = .fixed k → k ≠ .error ∧ k.isTrivia = false

/-- What is found is a piece of the text as its shape is spelled, and it is found again wherever a
character breaks it off. -/
structure Found (stops : List Char) (spelled : Shape → List Char → Prop)
    (find : List Char → Option Lexeme) (text : List Char) (l : Lexeme) (w : List Char) : Prop where
  front : ∃ rest, text = w ++ rest
  ne_nil : w ≠ []
  length : l.length = w.length
  spells : spelled l.shape w
  again (hs : l.shape.IsSolid) (tail : List Char) (ht : ∀ c ∈ tail.head?, c ∈ stops) :
    find (w ++ tail) = some l

/-- A recogniser finds the same pieces in front of whatever breaks them off. -/
structure Lawful (stops : List Char) (spelled : Shape → List Char → Prop) (r : Recogniser) :
    Prop where
  /-- What is found is found again. -/
  found {text : List Char} {l : Lexeme} (h : r text = some l) : ∃ w, Found stops spelled r text l w
  /-- Where nothing is found, nothing is found again. -/
  silent {w rest tail : List Char} (h : r (w ++ rest) = none) (hw : w ≠ [])
    (ht : ∀ c ∈ tail.head?, c ∈ stops) : r (w ++ tail) = none

/-- The characters that break off the tokens of expressions. -/
def expressionBreaks : List Char := [' ', '\t', '\r', '\n', ',', '(', ')', ']']

/-- The characters that break off index patterns and the words of `ENRICH`. -/
def patternBreaks : List Char := [' ', '\t', '\r', '\n', ',', ']']

/-- What is found again by one function is found again by another. -/
theorem Found.of_again {stops' : List Char} {find find' : List Char → Option Lexeme}
    (h : Found stops spelled find text l w)
    (ha : l.shape.IsSolid → ∀ tail : List Char, (∀ c ∈ tail.head?, c ∈ stops') →
      find' (w ++ tail) = some l) : Found stops' spelled find' text l w :=
  { h with again := ha }

theorem Lawful.mono {stops' : List Char} {r : Recogniser} (h : Lawful stops spelled r)
    (hb : stops' ⊆ stops) : Lawful stops' spelled r where
  found hl := by
    obtain ⟨w, hf⟩ := h.found hl
    exact ⟨w, hf.of_again fun hs tail ht => hf.again hs tail fun c hc => hb (ht c hc)⟩
  silent hn hw ht := h.silent hn hw fun c hc => hb (ht c hc)

theorem firstOf_cons (r : Recogniser) (rs : List Recogniser) (text : List Char) :
    firstOf (r :: rs) text = (r text).getD (firstOf rs text) := by
  cases h : r text <;> simp [firstOf, h]

/-- The first lexeme is found again. -/
theorem exists_found_firstOf {rs : List Recogniser} (hrs : ∀ r ∈ rs, Lawful stops spelled r)
    (herror : ∀ w, spelled (.fixed .error) w) (hne : text ≠ []) :
    ∃ w, Found stops spelled (fun text => some (firstOf rs text)) text (firstOf rs text) w := by
  induction rs with
  | nil =>
    obtain ⟨c, rest, rfl⟩ := List.exists_cons_of_ne_nil hne
    refine ⟨[c], ⟨rest, rfl⟩, by simp, rfl, herror _, fun hs => ?_⟩
    exact absurd rfl (hs .error rfl).1
  | cons r rs ih =>
    obtain ⟨hr, hrs⟩ := List.forall_mem_cons.1 hrs
    cases h : r text with
    | some l =>
      obtain ⟨w, hf⟩ := hr.found h
      have hl : firstOf (r :: rs) text = l := by rw [firstOf_cons, h, Option.getD_some]
      rw [hl]
      refine ⟨w, hf.of_again fun hs tail ht => ?_⟩
      rw [firstOf_cons, hf.again hs tail ht, Option.getD_some]
    | none =>
      obtain ⟨w, hf⟩ := ih hrs
      have hl : firstOf (r :: rs) text = firstOf rs text := by
        rw [firstOf_cons, h, Option.getD_none]
      rw [hl]
      refine ⟨w, hf.of_again fun hs tail ht => ?_⟩
      obtain ⟨rest, rfl⟩ := hf.front
      rw [firstOf_cons, hr.silent h hf.ne_nil ht, Option.getD_none]
      exact hf.again hs tail ht

/-! ## The recognisers -/

theorem lawful_blanks? (hs : ∀ w, spelled (.fixed .whitespace) w) :
    Lawful expressionBreaks spelled blanks? where
  found {text l} h := by
    cases text with
    | nil => cases h
    | cons c text =>
      obtain ⟨w, rest, rfl, hrun, -, -⟩ := exists_run isBlank text
      rw [blanks?, hrun] at h
      split at h
      · obtain rfl := Option.some.inj h
        refine ⟨c :: w, ⟨rest, rfl⟩, by simp, ?_, hs _, fun hsolid => ?_⟩
        · rw [List.length_cons, Nat.add_comm]
        · exact absurd (hsolid .whitespace rfl).2 (by decide)
      · cases h
  silent {w rest tail} h hw ht := by
    obtain ⟨c, w, rfl⟩ := List.exists_cons_of_ne_nil hw
    rw [List.cons_append, blanks?] at h ⊢
    split at h
    · cases h
    · next hc => rw [if_neg hc]

/-- A delimited form is found as far as it reaches, and again if it is closed. -/
theorem exists_found_delimited {find : List Char → Option Lexeme} {kind : Kind} {e : Extent}
    {opening : List Char} (hne : opening ≠ []) (hle : e.length ≤ rest.length)
    (hk : ∀ w, spelled (.fixed kind) (opening ++ w)) (herror : ∀ w, spelled (.fixed .error) w)
    (ha : ∀ n, e = .closed n → kind.isTrivia = false →
      ∀ tail : List Char, (∀ c ∈ tail.head?, c ∈ stops) →
        find (opening ++ (rest.take n ++ tail)) = some (e.lexeme kind opening.length)) :
    ∃ w, Found stops spelled find (opening ++ rest) (e.lexeme kind opening.length) w := by
  refine ⟨opening ++ rest.take e.length, ⟨rest.drop e.length, ?_⟩, ?_, ?_, ?_, fun hs tail ht => ?_⟩
  · rw [List.append_assoc, List.take_append_drop]
  · simp [hne]
  · rw [List.length_append, List.length_take, Nat.min_eq_left hle]
    cases e <;> rfl
  · cases e
    · exact hk _
    · exact herror _
  · cases e with
    | closed n =>
      rw [List.append_assoc]
      exact ha n rfl (hs kind rfl).2 tail ht
    | unclosed n => exact absurd rfl (hs .error rfl).1

theorem comment?_eq_none_iff :
    comment? text = none ↔ ∀ rest, text ≠ '/' :: '/' :: rest ∧ text ≠ '/' :: '*' :: rest := by
  unfold comment?
  split <;> simp_all

theorem lawful_comment? (hline : ∀ w, spelled (.fixed .lineComment) w)
    (hblock : ∀ w, spelled (.fixed .blockComment) w) (herror : ∀ w, spelled (.fixed .error) w) :
    Lawful expressionBreaks spelled comment? where
  found {text l} h := by
    unfold comment? at h
    split at h
    · next rest =>
      obtain ⟨w, rest, rfl, hrun, -, -⟩ := exists_run (· != '\n') rest
      obtain rfl := Option.some.inj h
      refine ⟨'/' :: '/' :: w, ⟨rest, rfl⟩, by simp, ?_, hline _, fun hs => ?_⟩
      · simp only [hrun, List.length_cons]
        omega
      · exact absurd (hs .lineComment rfl).2 (by decide)
    · next rest =>
      obtain rfl := Option.some.inj h
      exact @exists_found_delimited _ _ _ _ _ _ ['/', '*'] (by simp) (commentBody_le rest)
        (fun _ => hblock _) herror fun n hn ht => absurd ht (by decide)
    · cases h
  silent {w rest tail} h hw ht := by
    rw [comment?_eq_none_iff] at h ⊢
    intro text
    obtain ⟨c, w, rfl⟩ := List.exists_cons_of_ne_nil hw
    cases w with
    | nil =>
      -- nothing that stops off a token opens a comment
      constructor <;> rintro heq <;> obtain ⟨rfl, rfl⟩ := List.cons.inj heq <;>
        exact absurd (ht _ rfl) (by decide)
    | cons d w =>
      simp only [List.cons_append, ne_eq, List.cons.injEq, not_and] at h ⊢
      obtain ⟨hline, hblock⟩ := h (w ++ rest)
      exact ⟨fun hc hd _ => hline hc hd rfl, fun hc hd _ => hblock hc hd rfl⟩

theorem quotedName?_eq_none_iff {kind : Kind} {c : Char} :
    quotedName? kind (c :: text) = none ↔ c ≠ '\x60' := by
  unfold quotedName?
  split <;> simp_all

theorem lawful_quotedName? {kind : Kind} (hk : ∀ w, spelled (.fixed kind) ('\x60' :: w))
    (herror : ∀ w, spelled (.fixed .error) w) :
    Lawful expressionBreaks spelled (quotedName? kind) where
  found {text l} h := by
    unfold quotedName? at h
    split at h
    · next rest =>
      obtain rfl := Option.some.inj h
      refine @exists_found_delimited _ _ _ _ _ _ ['\x60'] (by simp) (nameBody_le rest) hk herror
        fun n hn _ tail ht => ?_
      have htail : ∀ c ∈ tail.head?, c ≠ '\x60' := by
        rintro c hc rfl
        exact absurd (ht _ hc) (by decide)
      rw [List.singleton_append, quotedName?, nameBody_again hn htail, hn]
      rfl
    · cases h
  silent {w rest tail} h hw ht := by
    obtain ⟨c, w, rfl⟩ := List.exists_cons_of_ne_nil hw
    exact quotedName?_eq_none_iff.2 (quotedName?_eq_none_iff.1 h)

theorem string?_verbatim (rest : List Char) :
    string? ('"' :: '"' :: '"' :: rest) = some ((verbatimBody rest).lexeme .string 3) := rfl

theorem string?_plain (h : ∀ rest', rest ≠ '"' :: '"' :: rest') :
    string? ('"' :: rest) = some ((stringBody rest).lexeme .string 1) := by
  unfold string?
  split
  · next heq => exact absurd (List.cons.inj heq).2 (h _)
  · next heq => rw [(List.cons.inj heq).2]
  · next hq => exact absurd rfl (hq rest)

theorem string?_eq_none_iff {c : Char} : string? (c :: text) = none ↔ c ≠ '"' := by
  unfold string?
  split <;> simp_all

theorem lawful_string? (hk : ∀ w, spelled (.fixed .string) w)
    (herror : ∀ w, spelled (.fixed .error) w) : Lawful expressionBreaks spelled string? where
  found {text l} h := by
    unfold string? at h
    split at h
    · next rest =>
      obtain rfl := Option.some.inj h
      refine @exists_found_delimited _ _ _ _ _ _ ['"', '"', '"'] (by simp) (verbatimBody_le rest)
        (fun _ => hk _) herror fun n hn _ tail ht => ?_
      have hopen : ['"', '"', '"'] ++ (rest.take n ++ tail)
          = '"' :: '"' :: '"' :: (rest.take n ++ tail) :=
        rfl
      rw [hopen, string?_verbatim, verbatimBody_again hn, hn]
      rfl
    · next rest hplain =>
      obtain rfl := Option.some.inj h
      refine @exists_found_delimited _ _ _ _ _ _ ['"'] (by simp) (stringBody_le rest)
        (fun _ => hk _) herror fun n hn _ tail ht => ?_
      have htail : ∀ rest', tail ≠ '"' :: rest' := by
        rintro rest' rfl
        exact absurd (ht _ rfl) (by decide)
      have hplain' : ∀ rest', rest.take n ++ tail ≠ '"' :: '"' :: rest' := by
        intro rest' heq
        cases rest with
        | nil => cases hn
        | cons c rest =>
          cases n with
          | zero => exact htail _ heq
          | succ n =>
            rw [List.take_succ_cons, List.cons_append] at heq
            obtain ⟨rfl, hbehind⟩ := List.cons.inj heq
            -- a quote right behind the opening one closes the string
            obtain rfl : n = 0 := by simpa [stringBody] using hn.symm
            exact htail _ hbehind
      rw [List.singleton_append, string?_plain hplain', stringBody_again hn, hn]
      rfl
    · cases h
  silent {w rest tail} h hw ht := by
    obtain ⟨c, w, rfl⟩ := List.exists_cons_of_ne_nil hw
    exact string?_eq_none_iff.2 (string?_eq_none_iff.1 h)

theorem not_isDigit_of_mem_breaks :
    ∀ c ∈ expressionBreaks, c.isDigit = false ∧ c ≠ '.' ∧ c ≠ 'e' ∧ c ≠ 'E' := by
  simp [expressionBreaks]

theorem not_isWordPart_of_mem_breaks : ∀ c ∈ expressionBreaks, isWordPart c = false := by
  simp [expressionBreaks, isWordPart]

/-- Where no number is found there is neither a digit nor a point with a digit behind it. -/
theorem number?_eq_none_iff :
    number? text = none ↔
      (∀ c ∈ text.head?, c.isDigit = false) ∧
        ∀ c rest, text = '.' :: c :: rest → c.isDigit = false := by
  obtain ⟨digits, after, rfl, hrun, hdigits, hafter⟩ := exists_run Char.isDigit text
  rw [number?, hrun, List.drop_left]
  cases digits with
  | cons d digits =>
    have hd : d.isDigit = true := hdigits d (List.mem_cons_self ..)
    constructor
    · intro h
      split at h
      · simp at h
      · split at h
        · next hlen => simp at hlen
        · split at h <;> cases h
    · rintro ⟨h, -⟩
      exact absurd (h d rfl) (by simp [hd])
  | nil =>
    rw [List.nil_append]
    split
    · next after =>
      obtain ⟨fraction, rest, rfl, hrun, hfraction, hrest⟩ := exists_run Char.isDigit after
      simp only [hrun, List.length_nil, Nat.zero_add]
      cases fraction with
      | nil =>
        refine iff_of_true rfl ⟨hafter, fun c rest' heq => ?_⟩
        obtain rfl : rest = c :: rest' := (List.cons.inj heq).2
        exact hrest c rfl
      | cons c fraction =>
        have hc : c.isDigit = true := hfraction c (List.mem_cons_self ..)
        refine iff_of_false (by simp) fun ⟨_, h⟩ => ?_
        exact absurd (h c _ rfl) (by simp [hc])
    · next hpoint =>
      refine iff_of_true (by simp) ⟨hafter, fun c rest heq => ?_⟩
      exact absurd heq (hpoint _)

theorem lawful_number? (hs : ∀ k w, Numeral k w → spelled (.fixed k) w) :
    Lawful expressionBreaks spelled number? where
  found {text l} h := by
    obtain ⟨k, w, rest, rfl, hw, rfl⟩ := exists_numeral h
    refine ⟨w, ⟨rest, rfl⟩, ?_, rfl, hs k w hw, fun _ tail ht => ?_⟩
    · obtain hne | hne | hne := hw <;> simp [hne]
    · exact number?_append hw fun c hc => not_isDigit_of_mem_breaks c (ht c hc)
  silent {w rest tail} h hw ht := by
    obtain ⟨c, w, rfl⟩ := List.exists_cons_of_ne_nil hw
    rw [number?_eq_none_iff] at h ⊢
    refine ⟨h.1, fun d after heq => ?_⟩
    obtain ⟨rfl, hbehind⟩ := List.cons.inj heq
    cases w with
    | nil => exact (not_isDigit_of_mem_breaks d (ht d (by simp_all))).1
    | cons e w =>
      obtain ⟨rfl, -⟩ := List.cons.inj hbehind
      exact h.2 e _ rfl

/-- A word begins with a letter, or with an underscore or an at sign and something behind it. -/
def IsWord (w : List Char) : Prop :=
  ∃ c cs, w = c :: cs ∧ (∀ d ∈ cs, isWordPart d = true) ∧
    (c.isAlpha = true ∨ (c = '_' ∨ c = '@') ∧ cs ≠ [])

theorem word?_append (h : IsWord w) (ht : ∀ c ∈ tail.head?, isWordPart c = false) :
    word? (w ++ tail) = some ⟨.word, w.length⟩ := by
  obtain ⟨c, cs, rfl, hcs, hc⟩ := h
  have hpos : (c == '_' || c == '@') = true ∧ 0 < cs.length ∨ c.isAlpha = true := by
    rcases hc with hc | ⟨hc, hne⟩
    · exact .inr hc
    · exact .inl ⟨by simpa using hc, List.length_pos_iff.2 hne⟩
  rw [List.cons_append, word?, run_append hcs ht, if_pos, List.length_cons, Nat.add_comm]
  rcases hpos with ⟨hc, hne⟩ | hc <;> simp_all

theorem exists_word (h : word? text = some l) :
    ∃ w rest, text = w ++ rest ∧ IsWord w ∧ l = ⟨.word, w.length⟩ := by
  cases text with
  | nil => cases h
  | cons c text =>
    obtain ⟨cs, rest, rfl, hrun, hcs, -⟩ := exists_run isWordPart text
    rw [word?, hrun] at h
    split at h
    · next hc =>
      refine ⟨c :: cs, rest, rfl, ⟨c, cs, rfl, hcs, ?_⟩, ?_⟩
      · simpa [List.length_pos_iff] using hc
      · rw [← Option.some.inj h, List.length_cons, Nat.add_comm]
    · cases h

theorem word?_eq_none_iff :
    word? text = none ↔ ∀ c rest, text = c :: rest →
      c.isAlpha = false ∧ ((c = '_' ∨ c = '@') → ∀ d ∈ rest.head?, isWordPart d = false) := by
  cases text with
  | nil => simp [word?]
  | cons c text =>
    obtain ⟨cs, rest, rfl, hrun, hcs, hrest⟩ := exists_run isWordPart text
    rw [word?, hrun]
    cases cs with
    | nil => simp_all
    | cons d cs => simp_all

theorem lawful_word? (hs : ∀ w, IsWord w → spelled .word w) :
    Lawful expressionBreaks spelled word? where
  found {text l} h := by
    obtain ⟨w, rest, rfl, hw, rfl⟩ := exists_word h
    refine ⟨w, ⟨rest, rfl⟩, ?_, rfl, hs w hw, fun _ tail ht => ?_⟩
    · obtain ⟨c, cs, rfl, -⟩ := hw
      simp
    · exact word?_append hw fun c hc => not_isWordPart_of_mem_breaks c (ht c hc)
  silent {w rest tail} h hw ht := by
    obtain ⟨c, w, rfl⟩ := List.exists_cons_of_ne_nil hw
    rw [word?_eq_none_iff] at h ⊢
    rintro d after heq
    obtain ⟨rfl, rfl⟩ := List.cons.inj heq
    obtain ⟨halpha, hbehind⟩ := h c _ rfl
    refine ⟨halpha, fun hc e he => ?_⟩
    cases w with
    | nil => exact not_isWordPart_of_mem_breaks e (ht e he)
    | cons d w => exact hbehind hc e he

theorem comparison?_eq_none_iff :
    comparison? text = none ↔
      (∀ c ∈ text.head?, c ≠ '=' ∧ c ≠ '<' ∧ c ≠ '>') ∧ ∀ rest, text ≠ '!' :: '=' :: rest := by
  cases text with
  | nil => simp [comparison?]
  | cons c text =>
    unfold comparison?
    split <;> simp_all

/-- A comparison operator of two characters does not depend on what is behind it. -/
theorem exists_found_pair {c : Char} (hs : spelled (.fixed .comparison) [c, '='])
    (hfind : ∀ rest, comparison? (c :: '=' :: rest) = some ⟨.fixed .comparison, 2⟩) :
    ∃ w, Found expressionBreaks spelled comparison? (c :: '=' :: rest) ⟨.fixed .comparison, 2⟩ w :=
  ⟨[c, '='], ⟨rest, rfl⟩, by simp, rfl, hs, fun _ tail _ => hfind tail⟩

/-- One of a single character is found where no equals sign is behind it. -/
theorem exists_found_alone {c : Char} {k : Kind} (hs : spelled (.fixed k) [c])
    (hfind : ∀ tail : List Char, (∀ rest, tail ≠ '=' :: rest) →
      comparison? (c :: tail) = some ⟨.fixed k, 1⟩) :
    ∃ w, Found expressionBreaks spelled comparison? (c :: rest) ⟨.fixed k, 1⟩ w := by
  refine ⟨[c], ⟨rest, rfl⟩, by simp, rfl, hs, fun _ tail ht => hfind tail ?_⟩
  rintro rest rfl
  exact absurd (ht _ rfl) (by decide)

theorem lawful_comparison? (hassign : spelled (.fixed .assign) ['='])
    (hs : ∀ op : ComparisonOp, spelled (.fixed .comparison) op.symbol.toList) :
    Lawful expressionBreaks spelled comparison? where
  found {text l} h := by
    unfold comparison? at h
    split at h
    · obtain rfl := Option.some.inj h
      exact exists_found_pair (hs .eq) fun _ => rfl
    · obtain rfl := Option.some.inj h
      exact exists_found_pair (hs .neq) fun _ => rfl
    · obtain rfl := Option.some.inj h
      exact exists_found_pair (hs .lte) fun _ => rfl
    · obtain rfl := Option.some.inj h
      exact exists_found_pair (hs .gte) fun _ => rfl
    · obtain rfl := Option.some.inj h
      refine exists_found_alone (hs .lt) fun tail ht => ?_
      unfold comparison?
      split <;> simp_all
    · obtain rfl := Option.some.inj h
      refine exists_found_alone (hs .gt) fun tail ht => ?_
      unfold comparison?
      split <;> simp_all
    · obtain rfl := Option.some.inj h
      refine exists_found_alone hassign fun tail ht => ?_
      unfold comparison?
      split <;> simp_all
    · cases h
  silent {w rest tail} h hw ht := by
    obtain ⟨c, w, rfl⟩ := List.exists_cons_of_ne_nil hw
    rw [comparison?_eq_none_iff] at h ⊢
    refine ⟨h.1, fun after heq => ?_⟩
    obtain ⟨rfl, hbehind⟩ := List.cons.inj heq
    cases w with
    | nil => exact absurd (ht '=' (by simp_all)) (by decide)
    | cons e w =>
      obtain ⟨rfl, -⟩ := List.cons.inj hbehind
      exact h.2 _ rfl

/-- Tokens of one character do not depend on what is behind them. -/
theorem lawful_single? {table : List (Char × Shape)}
    (hs : ∀ entry ∈ table, spelled entry.2 [entry.1]) :
    Lawful expressionBreaks spelled (single? table) where
  found {text l} h := by
    cases text with
    | nil => cases h
    | cons c rest =>
      obtain ⟨shape, hc, rfl⟩ : ∃ shape, table.lookup c = some shape ∧ ⟨shape, 1⟩ = l := by
        simpa [single?] using h
      refine ⟨[c], ⟨rest, rfl⟩, by simp, rfl, ?_, fun hs tail ht => ?_⟩
      · obtain ⟨before, after, rfl, -⟩ := List.lookup_eq_some_iff.1 hc
        exact hs (c, shape) (by simp)
      · simp [single?, hc]
  silent {w rest tail} h hw ht := by
    obtain ⟨c, w, rfl⟩ := List.exists_cons_of_ne_nil hw
    simpa [single?] using h

/-- Index patterns, and the words of `ENRICH`, end in front of what stops them off. -/
theorem pattern?_append {shape : Shape} {c : Char} {cs : List Char}
    (hcs : ∀ d ∈ c :: cs, isPatternPart d = true) (ht : ∀ d ∈ tail.head?, isPatternPart d = false) :
    pattern? shape (c :: (cs ++ tail)) = some ⟨shape, (c :: cs).length⟩ := by
  obtain ⟨hc, hcs⟩ := List.forall_mem_cons.1 hcs
  rw [pattern?, run_append hcs ht, if_pos hc, List.length_cons, Nat.add_comm]

theorem lawful_pattern? {shape : Shape} (hs : ∀ w, (∀ c ∈ w, isPatternPart c = true) → spelled shape w) :
    Lawful patternBreaks spelled (pattern? shape) where
  found {text l} h := by
    cases text with
    | nil => cases h
    | cons c text =>
      obtain ⟨cs, rest, rfl, hrun, hcs, -⟩ := exists_run isPatternPart text
      rw [pattern?, hrun] at h
      split at h
      · next hc =>
        obtain rfl := Option.some.inj h
        refine ⟨c :: cs, ⟨rest, rfl⟩, by simp, Nat.add_comm ..,
          hs _ (List.forall_mem_cons.2 ⟨hc, hcs⟩), fun _ tail ht => ?_⟩
        have hbreak : ∀ d ∈ patternBreaks, isPatternPart d = false := by
          simp [patternBreaks, isPatternPart, isBlank]
        rw [List.cons_append, Nat.add_comm]
        exact pattern?_append (List.forall_mem_cons.2 ⟨hc, hcs⟩) fun d hd => hbreak d (ht d hd)
      · cases h
  silent {w rest tail} h hw ht := by
    obtain ⟨c, w, rfl⟩ := List.exists_cons_of_ne_nil hw
    rw [List.cons_append, pattern?] at h ⊢
    split at h
    · cases h
    · next hc => rw [if_neg hc]

/-! ## Lexemes in modes -/

/-- The characters that break off the tokens of a mode. -/
def Mode.breaks : Mode → List Char
  | .command | .explain | .expression => expressionBreaks
  | .source | .enrich => patternBreaks

/-- The kinds of the tokens of a mode that may have any text. -/
def Mode.openKinds : Mode → List Kind
  | .command | .explain | .expression =>
    [.whitespace, .lineComment, .blockComment, .string, .integer, .decimal, .error]
  | .source =>
    [.whitespace, .lineComment, .blockComment, .quotedSourceIdentifier, .sourceIdentifier, .error]
  | .enrich => [.whitespace, .lineComment, .blockComment, .quotedEnrichIdentifier, .error]

/-- How the shapes of expressions are spelled. -/
def expressionSpells : Shape → List Char → Prop
  | .fixed k, w =>
    k ∈ Mode.openKinds .expression ∨ k.isCased = false ∧ k.fixedText? = some (String.ofList w) ∨
      k = .comparison ∧ (∃ op, ComparisonOp.ofText? (String.ofList w) = some op) ∨
      k = .quotedIdentifier ∧ w.head? = some '\x60'
  | .word, w => IsWord w
  | .pipe, w => w = ['|']
  | .leftBracket, w => w = ['[']
  | .rightBracket, w => w = [']']

/-- How the shapes of index patterns and of the words of `ENRICH` are spelled. -/
def patternSpells (m : Mode) : Shape → List Char → Prop
  | .fixed k, w => k ∈ m.openKinds ∨ k ∈ [.comma, .assign] ∧ k.fixedText? = some (String.ofList w)
  | .word, w => ∀ c ∈ w, isPatternPart c = true
  | .pipe, w => w = ['|']
  | .leftBracket, _ => False
  | .rightBracket, w => w = [']']

/-- How the shapes of a mode are spelled. -/
def Mode.spells : Mode → Shape → List Char → Prop
  | .command | .explain | .expression => expressionSpells
  | .source => patternSpells .source
  | .enrich => patternSpells .enrich

theorem patternBreaks_subset : patternBreaks ⊆ expressionBreaks := by
  simp [patternBreaks, expressionBreaks]

theorem exists_found_expression (hne : text ≠ []) :
    ∃ w, Found expressionBreaks expressionSpells (fun text => some (expressionLexeme text)) text
      (expressionLexeme text) w := by
  refine exists_found_firstOf (fun r hr => ?_) (fun _ => .inl (by decide)) hne
  simp only [List.mem_cons, List.not_mem_nil, or_false] at hr
  rcases hr with rfl | rfl | rfl | rfl | rfl | rfl | rfl | rfl
  · exact lawful_blanks? fun _ => .inl (by decide)
  · exact lawful_comment? (fun _ => .inl (by decide)) (fun _ => .inl (by decide))
      fun _ => .inl (by decide)
  · exact lawful_quotedName? (fun _ => .inr (.inr (.inr ⟨rfl, rfl⟩))) fun _ => .inl (by decide)
  · exact lawful_string? (fun _ => .inl (by decide)) fun _ => .inl (by decide)
  · refine lawful_number? fun k w hw => ?_
    obtain - | - | - := hw <;> exact .inl (by decide)
  · exact lawful_word? fun _ hw => hw
  · refine lawful_comparison? (.inr (.inl ⟨rfl, rfl⟩)) fun op => .inr (.inr (.inl ⟨rfl, op, ?_⟩))
    cases op <;> decide
  · refine lawful_single? fun entry hentry => ?_
    simp only [List.mem_cons, List.not_mem_nil, or_false] at hentry
    rcases hentry with rfl | rfl | rfl | rfl | rfl | rfl | rfl | rfl | rfl | rfl | rfl | rfl <;>
      first
      | rfl
      | exact .inr (.inl ⟨rfl, rfl⟩)

theorem exists_found_source (hne : text ≠ []) :
    ∃ w, Found patternBreaks (patternSpells .source) (fun text => some (sourceLexeme text)) text
      (sourceLexeme text) w := by
  refine exists_found_firstOf (fun r hr => ?_) (fun _ => .inl (by decide)) hne
  simp only [List.mem_cons, List.not_mem_nil, or_false] at hr
  rcases hr with rfl | rfl | rfl | rfl | rfl
  · exact (lawful_blanks? fun _ => .inl (by decide)).mono patternBreaks_subset
  · exact (lawful_comment? (fun _ => .inl (by decide)) (fun _ => .inl (by decide))
      fun _ => .inl (by decide)).mono patternBreaks_subset
  · exact (lawful_quotedName? (fun _ => .inl (by decide)) fun _ => .inl (by decide)).mono
      patternBreaks_subset
  · exact lawful_pattern? fun _ _ => .inl (by decide)
  · exact (lawful_single? (by simp [patternSpells, Kind.fixedText?])).mono patternBreaks_subset

theorem exists_found_enrich (hne : text ≠ []) :
    ∃ w, Found patternBreaks (patternSpells .enrich) (fun text => some (enrichLexeme text)) text
      (enrichLexeme text) w := by
  refine exists_found_firstOf (fun r hr => ?_) (fun _ => .inl (by decide)) hne
  simp only [List.mem_cons, List.not_mem_nil, or_false] at hr
  rcases hr with rfl | rfl | rfl | rfl | rfl
  · exact (lawful_blanks? fun _ => .inl (by decide)).mono patternBreaks_subset
  · exact (lawful_comment? (fun _ => .inl (by decide)) (fun _ => .inl (by decide))
      fun _ => .inl (by decide)).mono patternBreaks_subset
  · exact (lawful_quotedName? (fun _ => .inl (by decide)) fun _ => .inl (by decide)).mono
      patternBreaks_subset
  · exact lawful_pattern? fun _ hw => hw
  · exact (lawful_single? (by simp [patternSpells, Kind.fixedText?])).mono patternBreaks_subset

/-- In each mode the lexeme at the front of a text is found again in front of what breaks it off. -/
theorem Mode.exists_found (m : Mode) (hne : text ≠ []) :
    ∃ w, Found m.breaks m.spells (fun text => some (m.lexeme text)) text (m.lexeme text) w := by
  cases m with
  | command | explain | expression => exact exists_found_expression hne
  | source => exact exists_found_source hne
  | enrich => exact exists_found_enrich hne

/-! ## Lexemes whatever is behind them -/

/-- The first character of a word begins no token of another family. -/
theorem word_first {c : Char} (h : c.isAlpha = true ∨ c = '_' ∨ c = '@') :
    isBlank c = false ∧ c ≠ '/' ∧ c ≠ '\x60' ∧ c ≠ '"' ∧ c ≠ '.' ∧ c.isDigit = false := by
  rcases h with h | rfl | rfl
  · have hne : ∀ d : Char, d.isAlpha = false → c ≠ d := fun d => ne_of_isAlpha h
    have hblank : isBlank c = false := by
      simp [isBlank, hne ' ' (by simp), hne '\t' (by simp), hne '\r' (by simp), hne '\n' (by simp)]
    refine ⟨hblank, hne _ (by simp), hne _ (by simp), hne _ (by simp), hne _ (by simp), ?_⟩
    simp only [Char.isAlpha, Char.isUpper, Char.isLower, Char.isDigit, Bool.or_eq_true,
      Bool.and_eq_true, decide_eq_true_eq, ge_iff_le, UInt32.le_iff_toNat_le, Bool.and_eq_false_iff,
      decide_eq_false_iff_not] at h ⊢
    have : '0'.val.toNat = 48 := rfl
    have : '9'.val.toNat = 57 := rfl
    have : 'A'.val.toNat = 65 := rfl
    have : 'a'.val.toNat = 97 := rfl
    omega
  · simp [isBlank]
  · simp [isBlank]

/-- Whether a text is a word does not depend on the case of its letters. -/
theorem isWord_toLower : IsWord (w.map Char.toLower) ↔ IsWord w := by
  have hpart := @class_toLower _ isWordPart true fun c hc => by simp [isWordPart, Char.isAlphanum, hc]
  have halpha (c : Char) : c.toLower.isAlpha = c.isAlpha := by simp
  have hother (d : Char) (hd : d.isAlpha = false) (c : Char) : c.toLower = d ↔ c = d :=
    toLower_eq_iff hd
  cases w with
  | nil => simp [IsWord]
  | cons c cs => simp [IsWord, hpart, halpha, hother]

/-- Nor does it whether it is an index pattern. -/
theorem isPatternPart_toLower (c : Char) : isPatternPart c.toLower = isPatternPart c := by
  refine @class_toLower _ isPatternPart true (fun c hc => ?_) c
  have hne (d : Char) (hd : d.isAlpha = false) : c ≠ d := ne_of_isAlpha hc hd
  simp [isPatternPart, isBlank, hne]

/-- A word is found in expressions wherever it does not go on. -/
theorem expressionLexeme_word (h : IsWord w) (ht : ∀ c ∈ tail.head?, isWordPart c = false) :
    expressionLexeme (w ++ tail) = ⟨.word, w.length⟩ := by
  have hword := word?_append h ht
  obtain ⟨c, cs, rfl, -, hc⟩ := h
  obtain ⟨hblank, hslash, hback, hquote, hdot, hdigit⟩ := word_first (hc.imp_right And.left)
  have hcomment : comment? (c :: cs ++ tail) = none :=
    comment?_eq_none_iff.2 fun rest => by simp [hslash]
  have hnumber : number? (c :: cs ++ tail) = none :=
    number?_eq_none_iff.2 ⟨by simp [hdigit], by simp [hdot]⟩
  have hblanks : blanks? (c :: cs ++ tail) = none := by simp [blanks?, hblank]
  have hname : quotedName? .quotedIdentifier (c :: cs ++ tail) = none := by
    simp [quotedName?, hback]
  have hstring : string? (c :: cs ++ tail) = none := by simp [string?, hquote]
  simp only [expressionLexeme, firstOf_cons, hblanks, hcomment, hname, hstring, hnumber, hword,
    Option.getD_none, Option.getD_some]

/-- A quoted name is found in expressions in front of anything but a backquote. -/
theorem expressionLexeme_quoted
    (h : expressionLexeme ('\x60' :: text) = ⟨.fixed .quotedIdentifier, n⟩)
    (ht : ∀ c ∈ tail.head?, c ≠ '\x60') :
    expressionLexeme (('\x60' :: text).take n ++ tail) = ⟨.fixed .quotedIdentifier, n⟩ := by
  have hlex (text : List Char) :
      expressionLexeme ('\x60' :: text) = (nameBody text).lexeme .quotedIdentifier 1 := by
    simp [expressionLexeme, firstOf, blanks?, isBlank, comment?, quotedName?]
  rw [hlex] at h
  cases hbody : nameBody text with
  | closed m =>
    rw [hbody, Extent.lexeme, Lexeme.mk.injEq] at h
    obtain ⟨-, rfl⟩ := h
    rw [Nat.add_comm, List.take_succ_cons, List.cons_append, hlex, nameBody_again hbody ht,
      Extent.lexeme, Nat.add_comm]
  | unclosed m => simp [hbody, Extent.lexeme] at h

/-- A dot is found in front of anything but a digit. -/
theorem expressionLexeme_dot (ht : ∀ c ∈ tail.head?, c.isDigit = false) :
    expressionLexeme ('.' :: tail) = ⟨.fixed .dot, 1⟩ := by
  have hnumber : number? ('.' :: tail) = none := by
    refine number?_eq_none_iff.2 ⟨by simp, fun c rest heq => ?_⟩
    obtain rfl := (List.cons.inj heq).2
    exact ht c rfl
  simp [expressionLexeme, firstOf, blanks?, isBlank, comment?, quotedName?, string?, hnumber,
    word?, comparison?, single?, List.lookup]

/-- What ends a stage. -/
def closings : List (Char × Shape) := [('|', .pipe), (']', .rightBracket)]

/-- Opening tokens, signs and what ends a stage. -/
def openings : List (Char × Shape) :=
  [('(', .fixed .leftParen), ('[', .leftBracket), ('+', .fixed .plus), ('-', .fixed .minus)]
    ++ closings

/-- Opening tokens and signs do not depend on what is behind them. -/
theorem expressionLexeme_single {entry : Char × Shape} (h : entry ∈ openings) :
    expressionLexeme (entry.1 :: tail) = ⟨entry.2, 1⟩ := by
  simp only [openings, closings, List.cons_append, List.nil_append, List.mem_cons,
    List.not_mem_nil, or_false] at h
  rcases h with rfl | rfl | rfl | rfl | rfl | rfl <;>
    simp [expressionLexeme, firstOf, blanks?, isBlank, comment?, quotedName?, string?, number?, run,
      word?, comparison?, single?, List.lookup]

/-- A word of `ENRICH` is found wherever it does not go on. -/
theorem enrichLexeme_word (hne : w ≠ []) (h : ∀ c ∈ w, isPatternPart c = true)
    (ht : ∀ c ∈ tail.head?, isPatternPart c = false) :
    enrichLexeme (w ++ tail) = ⟨.word, w.length⟩ := by
  obtain ⟨c, cs, rfl⟩ := List.exists_cons_of_ne_nil hne
  have hpattern : pattern? .word (c :: (cs ++ tail)) = some ⟨.word, (c :: cs).length⟩ :=
    pattern?_append h ht
  have hc : isPatternPart c = true := h c (List.mem_cons_self ..)
  have hne' : ∀ d : Char, isPatternPart d = false → c ≠ d := by
    rintro d hd rfl
    simp [hc] at hd
  have hslash : c ≠ '/' := hne' _ (by simp [isPatternPart])
  have hback : c ≠ '\x60' := hne' _ (by simp [isPatternPart])
  have hblank : isBlank c = false := by
    simp only [isPatternPart, Bool.not_eq_true', Bool.or_eq_false_iff] at hc
    exact hc.1.1.1.1.1.1.1
  have hcomment : comment? (c :: (cs ++ tail)) = none :=
    comment?_eq_none_iff.2 fun rest => by simp [hslash]
  have hblanks : blanks? (c :: (cs ++ tail)) = none := by simp [blanks?, hblank]
  have hname : quotedName? .quotedEnrichIdentifier (c :: (cs ++ tail)) = none := by
    simp [quotedName?, hback]
  rw [List.cons_append]
  simp only [enrichLexeme, firstOf_cons, hblanks, hcomment, hname, hpattern, Option.getD_none,
    Option.getD_some]

/-- What ends a stage does not depend on what is behind it. -/
theorem Mode.lexeme_closing (m : Mode) {entry : Char × Shape} (h : entry ∈ closings) :
    m.lexeme (entry.1 :: tail) = ⟨entry.2, 1⟩ := by
  have hsource : sourceLexeme (entry.1 :: tail) = ⟨entry.2, 1⟩ := by
    simp only [closings, List.mem_cons, List.not_mem_nil, or_false] at h
    rcases h with rfl | rfl <;>
      simp [sourceLexeme, firstOf, blanks?, isBlank, comment?, quotedName?, pattern?,
        isPatternPart, single?, List.lookup]
  have henrich : enrichLexeme (entry.1 :: tail) = ⟨entry.2, 1⟩ := by
    simp only [closings, List.mem_cons, List.not_mem_nil, or_false] at h
    rcases h with rfl | rfl <;>
      simp [enrichLexeme, firstOf, blanks?, isBlank, comment?, quotedName?, pattern?,
        isPatternPart, single?, List.lookup]
  have hexpression : expressionLexeme (entry.1 :: tail) = ⟨entry.2, 1⟩ :=
    expressionLexeme_single (List.mem_append_right _ h)
  cases m <;> assumption

/-- A blank begins a run of blanks in every mode. -/
theorem Mode.lexeme_blank (m : Mode) {c : Char} (hc : isBlank c = true) :
    m.lexeme (c :: text) = ⟨.fixed .whitespace, 1 + run isBlank text⟩ := by
  have hblanks : blanks? (c :: text) = some ⟨.fixed .whitespace, 1 + run isBlank text⟩ :=
    if_pos hc
  cases m <;>
    simp only [lexeme, expressionLexeme, sourceLexeme, enrichLexeme, firstOf_cons, hblanks,
      Option.getD_some]

end PipeQuery.Lexer
