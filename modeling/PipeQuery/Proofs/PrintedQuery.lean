import PipeQuery.Proofs.Printing

/-!
# Queries in print

The text of every phrase is its tokens in print, kind of phrase by kind of phrase, and so is the
text of a query (`Yields.printed`).
-/

namespace PipeQuery

variable {ts us : List Token} {filters : Bool}

/-! ## Names and constants -/

theorem Constant.printed {v : Constant} (hv : v.Admissible) (h : Written v.items ts) :
    Printed ts v.text := by
  cases v with
  | null span =>
    obtain ⟨x, us, rfl, -, hx, hnil⟩ := h.of_kind
    obtain rfl := hnil.of_nil
    exact .single (hx _ rfl)
  | numeric n => exact h.of_singleton
  | boolean b => exact h.of_singleton
  | string s => exact h.of_singleton
  | numericArray values span =>
    have hlist := Written.of_enclosed h (by simp) (by simp) rfl rfl
    rw [Constant.text, String.append_assoc]
    exact hlist
  | booleanArray values span =>
    have hlist := Written.of_enclosed h (by simp) (by simp) rfl rfl
    rw [Constant.text, String.append_assoc]
    exact hlist
  | stringArray values span =>
    have hlist := Written.of_enclosed h (by simp) (by simp) rfl rfl
    rw [Constant.text, String.append_assoc]
    exact hlist

/-! ## Expressions -/

theorem ArithmeticOp.fixedText?_kind (op : ArithmeticOp) :
    op.kind.fixedText? = some op.symbol := by
  cases op <;> rfl

theorem Sign.fixedText?_kind (sign : Sign) : sign.kind.fixedText? = some sign.symbol := by
  cases sign <;> rfl

theorem Connective.fixedText?_kind (op : Connective) : op.kind.fixedText? = some op.keyword := by
  cases op <;> rfl

theorem PatternKind.fixedText?_kind (kind : PatternKind) :
    kind.kind.fixedText? = some kind.keyword := by
  cases kind <;> rfl

theorem ShowTarget.fixedText?_kind (target : ShowTarget) :
    target.kind.fixedText? = some target.keyword := by
  cases target <;> rfl

/-- Two phrases with an operator between them. -/
theorem Written.of_infix {n n' : Nesting} {p p' : Phrase} {k : Kind} {token : Token} {w : String}
    (h : Written [.phrase n p, .kept k token, .phrase n' p'] ts) (hw : k.fixedText? = some w) :
    Printed ts (p.text ++ " " ++ w ++ " " ++ p'.text) := by
  obtain ⟨us, vs, rfl, hleft, hrest⟩ := h.of_phrase
  obtain ⟨x, vs, rfl, -, hx, hright⟩ := hrest.of_kept
  have htext := hleft.append_blank (.word (hx w hw) hright.of_singleton)
  simpa only [String.append_assoc] using htext

theorem PrimaryExpr.printed {p : PrimaryExpr} (h : Written p.items ts) : Printed ts p.text := by
  cases p with
  | constant c =>
    rw [PrimaryExpr.text]
    exact h.of_singleton
  | field name =>
    rw [PrimaryExpr.text]
    exact h.of_singleton
  | group inner span =>
    have hlist := @Written.of_enclosed _ _ _ _ [inner] _ _ _ _ h (by simp) (by simp) rfl rfl
    rw [PrimaryExpr.text, String.append_assoc]
    simpa [Phrase.text] using hlist
  | call name args span =>
    rw [PrimaryExpr.text, BooleanExpr.texts_eq]
    exact Written.of_call h

theorem OperatorExpr.printed {e : OperatorExpr} (h : Written e.items ts) : Printed ts e.text := by
  cases e with
  | primary p =>
    rw [OperatorExpr.text]
    exact h.of_singleton
  | aggregate name args span =>
    rw [OperatorExpr.text]
    exact Written.of_call h
  | scalar name args span =>
    rw [OperatorExpr.text, ScalarArgument.texts_eq]
    exact Written.of_call h
  | signed sign operator operand span =>
    obtain ⟨x, us, rfl, hxk, hx, hrest⟩ := Written.of_kept h
    rw [OperatorExpr.text]
    have hsign : x.kind ∈ [Kind.leftParen, .leftBracket, .plus, .minus] := by
      rw [hxk]
      cases sign <;> decide
    exact .opening (hx _ sign.fixedText?_kind) hsign hrest.of_singleton
  | binary op operator left right =>
    have htext := Written.of_infix h op.fixedText?_kind
    rw [OperatorExpr.text]
    exact htext

theorem ValueExpr.printed {v : ValueExpr} (h : Written v.items ts) : Printed ts v.text := by
  cases v with
  | operator e =>
    rw [ValueExpr.text]
    exact h.of_singleton
  | comparison left op token right =>
    obtain ⟨us, vs, rfl, hleft, hrest⟩ := Written.of_phrase h
    obtain ⟨x, vs, rfl, ⟨hxk, hop, -⟩, -, hright⟩ := hrest.of_terminal
    rw [ValueExpr.text]
    have htext := hleft.append_blank (.word (Token.written_comparison hxk hop) hright.of_singleton)
    simpa only [Phrase.text, String.append_assoc] using htext

/-- A value in front of the word that turns a test round, where it stands. -/
theorem Written.of_negation {negation : Option Token} {text : String} (hv : Printed us text)
    (h : Written (Item.negation negation) ts) : Printed (us ++ ts) (text ++ negationText negation) := by
  have htext := hv.append_optional h (g := fun _ => "NOT") fun token _ us hus => by
    obtain ⟨x, us, rfl, -, hx, hnil⟩ := hus.of_kept
    obtain rfl := hnil.of_nil
    exact .single (hx _ rfl)
  cases negation <;> exact htext

theorem BooleanExpr.printed {e : BooleanExpr} (he : e.Admissible filters)
    (h : Written e.items ts) : Printed ts e.text := by
  cases e with
  | not operator operand span =>
    rw [BooleanExpr.text]
    exact Written.of_keyword h rfl rfl fun us hus => hus.of_singleton
  | value v =>
    rw [BooleanExpr.text]
    exact h.of_singleton
  | connective op left operator right =>
    have htext := Written.of_infix h op.fixedText?_kind
    rw [BooleanExpr.text]
    exact htext
  | isIn v negation items span =>
    obtain ⟨us, vs, rfl, hvalue, hrest⟩ := Written.of_phrase h
    obtain ⟨vs, ws, rfl, hneg, hrest⟩ := hrest.of_append
    obtain ⟨x, ws, rfl, -, hx, hlist⟩ := hrest.of_kind
    have hitems := hlist.of_enclosed (by simp) (by simp) rfl rfl
    have htext := (Written.of_negation hvalue hneg).append_blank (.word (hx "IN" rfl) hitems)
    have hin : (" IN (" : String) = " " ++ ("IN" ++ (" " ++ "(")) := rfl
    rw [BooleanExpr.text, ValueExpr.texts_eq, hin]
    simpa only [Phrase.text, String.append_assoc, List.append_assoc] using htext
  | isMatch v negation kind pattern span =>
    obtain ⟨us, vs, rfl, hvalue, hrest⟩ := Written.of_phrase h
    obtain ⟨vs, ws, rfl, hneg, hrest⟩ := hrest.of_append
    obtain ⟨x, ws, rfl, -, hx, hpattern⟩ := hrest.of_kind
    have htext := (Written.of_negation hvalue hneg).append_blank
      (.word (hx _ kind.fixedText?_kind) hpattern.of_singleton)
    rw [BooleanExpr.text]
    simpa only [Phrase.text, String.append_assoc, List.append_assoc] using htext
  | predicate call =>
    rw [BooleanExpr.text]
    exact h.of_singleton

/-! ## Clauses -/

/-- A new name and an equals sign in front, where they stand. -/
theorem Written.of_assigned {name : Option Identifier} {n : Nesting} {p : Phrase}
    (h : Written (Item.assigned name ++ [.phrase n p]) ts) : Printed ts (assignedText name p.text) := by
  cases name with
  | none => exact Written.of_singleton h
  | some name =>
    obtain ⟨x, us, rfl, -, hx, hrest⟩ := Written.of_identifier h
    obtain ⟨y, us, rfl, -, hy, hrest⟩ := hrest.of_kind
    have htext := Printed.word hx (.word (hy "=" rfl) hrest.of_singleton)
    have heq : (" = " : String) = " " ++ ("=" ++ " ") := rfl
    rw [assignedText, heq]
    simpa only [String.append_assoc] using htext

theorem SortKey.printed {k : SortKey} (h : Written (Phrase.sortKey k).items ts) :
    Printed ts k.text := by
  obtain ⟨us, vs, rfl, hexpr, hrest⟩ := Written.of_phrase h
  obtain ⟨vs, ws, rfl, horder, hnulls⟩ := hrest.of_append
  have htext := hexpr.append_optional horder (g := SortOrder.keyword) fun order _ us hus => by
    obtain ⟨x, us, rfl, ⟨hxk, ho⟩, hx, hnil⟩ := hus.of_terminal
    obtain rfl := hnil.of_nil
    exact .single (hx.written_order hxk ho)
  have htext := htext.append_optional hnulls (g := fun nulls => "NULLS " ++ nulls.keyword)
    fun nulls _ us hus => Written.of_word hus rfl rfl fun us hus => by
      obtain ⟨x, us, rfl, ⟨hxk, hn⟩, -, hnil⟩ := hus.of_terminal
      obtain rfl := hnil.of_nil
      exact .single (Token.written_nulls hxk hn)
  have hnullsText : (fun nulls : NullsOrder => " NULLS " ++ nulls.keyword)
      = fun nulls => " " ++ ("NULLS " ++ nulls.keyword) := by
    funext nulls
    rw [← String.append_assoc]
    rfl
  rw [List.append_assoc] at htext
  rw [SortKey.text, SortKey.textWith, hnullsText]
  exact htext

/-- A clause behind a word, where it stands. -/
theorem Printed.append_clause {α : Type} {o : Option α} {k : Kind} {f : α → List Item}
    {g : α → String} {w w' text : String} (h : Printed ts text)
    (hw : Written (o.elim [] fun a => .kind k :: f a) us) (hk : k.fixedText? = some w)
    (hw' : w' = " " ++ (w ++ " ")) (hf : ∀ a ∈ o, ∀ us, Written (f a) us → Printed us (g a)) :
    Printed (ts ++ us) (text ++ o.elim "" fun a => w' ++ g a) := by
  have htext := h.append_optional hw (g := fun a => w ++ " " ++ g a)
    fun a ha us hus => Written.of_word hus hk rfl (hf a ha)
  simpa only [hw', String.append_assoc] using htext

theorem ProcessingClause.printed {clause : ProcessingClause} {keyword : Token}
    (hc : clause.Admissible) (h : Written (clause.items keyword) ts) :
    Printed ts (clause.text keyword) := by
  cases clause with
  | eval fields => exact Written.of_keyword h rfl rfl fun us hus => hus.of_list hc
  | limit count => exact Written.of_keyword h rfl rfl fun us hus => hus.of_singleton
  | keep names =>
    obtain ⟨x, us, rfl, ⟨hxk, hx⟩, -, hnames⟩ := Written.of_terminal h
    have hword : x.written = keyword.text.toUpper := by
      obtain rfl : x = keyword := hx
      have hk : x.kind = .kwKeep ∨ x.kind = .kwProject := by simpa using hxk
      rcases hk with hk | hk <;> exact Token.written_of_isCased (by rw [hk]; rfl) (by simp [hk])
    have htext := Printed.word hword (hnames.of_list hc)
    rw [ProcessingClause.text, ProcessingClause.textWith, String.append_assoc]
    exact htext
  | rename clauses => exact Written.of_keyword h rfl rfl fun us hus => hus.of_list hc
  | drop names => exact Written.of_keyword h rfl rfl fun us hus => hus.of_list hc
  | dissect names pattern options =>
    rw [ProcessingClause.text, ProcessingClause.textWith, String.append_assoc,
      String.append_assoc, String.append_assoc]
    refine Written.of_keyword h rfl rfl fun us hus => ?_
    obtain ⟨us, vs, rfl, hnames, hrest⟩ := hus.of_append
    obtain ⟨vs, ws, rfl, hpattern, hoptions⟩ := hrest.of_phrase
    have htext := (hnames.of_list hc.1).append_blank hpattern
    have htext := htext.append_optional hoptions fun options ho us hus =>
      hus.of_list (by rintro rfl; exact hc.2 ho)
    rw [List.append_assoc, String.append_assoc, String.append_assoc] at htext
    exact htext
  | grok names pattern =>
    rw [ProcessingClause.text, ProcessingClause.textWith, String.append_assoc, String.append_assoc]
    refine Written.of_keyword h rfl rfl fun us hus => ?_
    obtain ⟨us, vs, rfl, hnames, hrest⟩ := hus.of_append
    exact (hnames.of_list hc).append_blank hrest.of_singleton
  | sort keys => exact Written.of_keyword h rfl rfl fun us hus => hus.of_list hc
  | stats fields grouping =>
    obtain ⟨x, us, rfl, -, hx, hrest⟩ := Written.of_kept h
    obtain ⟨us, vs, rfl, hfields, hgrouping⟩ := hrest.of_append
    have htext := (Printed.single (hx "STATS" rfl)).append_optional hfields fun fields hf us hus =>
      hus.of_list (by rintro rfl; exact hc.1 hf)
    have htext := htext.append_clause hgrouping rfl rfl fun names hn us hus =>
      hus.of_list (by rintro rfl; exact hc.2 hn)
    exact htext
  | filter condition => exact Written.of_keyword h rfl rfl fun us hus => hus.of_singleton
  | mvExpand names => exact Written.of_keyword h rfl rfl fun us hus => hus.of_list hc
  | enrich policy matchField clauses =>
    rw [ProcessingClause.text, ProcessingClause.textWith, String.append_assoc, String.append_assoc]
    refine Written.of_keyword h rfl rfl fun us hus => ?_
    obtain ⟨us, vs, rfl, hpolicy, hrest⟩ := hus.of_phrase
    obtain ⟨vs, ws, rfl, hmatch, hclauses⟩ := hrest.of_append
    have htext := hpolicy.append_clause hmatch rfl rfl fun name _ us hus => hus.of_singleton
    have htext := htext.append_clause hclauses rfl rfl fun clauses hs us hus =>
      hus.of_list (by rintro rfl; exact hc.2.2 hs)
    rw [List.append_assoc, String.append_assoc] at htext
    exact htext

theorem SourceClause.printed {clause : SourceClause} {keyword : Token} (hc : clause.Admissible)
    (h : Written (clause.items keyword) ts) : Printed ts clause.text := by
  cases clause with
  | explain query =>
    obtain ⟨x, us, rfl, -, hx, hrest⟩ := Written.of_kept h
    obtain ⟨y, us, rfl, -, hy, hrest⟩ := hrest.of_kind
    obtain ⟨us, vs, rfl, hquery, hrest⟩ := hrest.of_phrase
    obtain ⟨z, vs, rfl, -, hz, hnil⟩ := hrest.of_kind
    obtain rfl := hnil.of_nil
    have htext := Printed.word (hx "EXPLAIN" rfl)
      (.word (hy "[" rfl) (hquery.append_blank (.single (hz "]" rfl))))
    have hopen : ("EXPLAIN [ " : String) = "EXPLAIN" ++ (" " ++ ("[" ++ " ")) := rfl
    have hclose : (" ]" : String) = " " ++ "]" := rfl
    rw [SourceClause.text, hopen, hclose]
    simpa only [Phrase.text, String.append_assoc] using htext
  | indices names =>
    rw [SourceClause.text]
    exact Written.of_keyword h rfl rfl fun us hus => hus.of_list hc.1
  | row fields =>
    rw [SourceClause.text]
    exact Written.of_keyword h rfl rfl fun us hus => hus.of_list hc
  | listing target =>
    rw [SourceClause.text]
    refine Written.of_keyword h rfl rfl fun us hus => ?_
    obtain ⟨x, us, rfl, -, hx, hnil⟩ := hus.of_kind
    obtain rfl := hnil.of_nil
    exact .single (hx _ target.fixedText?_kind)

/-! ## Phrases -/

/-- The text of a phrase is its items in print. -/
theorem Phrase.printed {p : Phrase} (hp : p.Admissible filters) (h : Written p.items ts) :
    Printed ts p.text := by
  cases p with
  | query q =>
    cases q with
    | source command =>
      have htext := Written.of_singleton h
      rw [Phrase.text, Query.text]
      exact htext
    | pipe q bar command =>
      have htext := Written.of_infix h (rfl : Kind.pipe.fixedText? = some "|")
      have hbar : (" | " : String) = " " ++ ("|" ++ " ") := rfl
      rw [Phrase.text, Query.text, hbar]
      simpa only [Phrase.text, String.append_assoc] using htext
  | sourceCommand command =>
    cases command with
    | command keyword clause span =>
      rw [Phrase.text, SourceCommand.text]
      exact SourceClause.printed hp h
    | error span => exact absurd hp (by simp [Admissible])
  | processingCommand command =>
    cases command with
    | command keyword clause span => exact ProcessingClause.printed hp h
    | error span => exact absurd hp (by simp [Admissible])
  | field f => exact Written.of_assigned h
  | renameClause c => exact @Written.of_assigned _ (some c.newName) _ _ h
  | commandOption o => exact @Written.of_assigned _ (some o.name) _ _ h
  | sortKey k => exact SortKey.printed h
  | enrichClause c => exact Written.of_assigned h
  | boolean e => exact BooleanExpr.printed hp h
  | value v => exact ValueExpr.printed h
  | operator e => exact OperatorExpr.printed h
  | primary e => exact PrimaryExpr.printed h
  | scalarArgument a =>
    cases a <;>
      · rw [Phrase.text, ScalarArgument.text]
        exact h.of_singleton
  | fieldArgument a => cases a <;> exact h.of_singleton
  | predicateCall c =>
    have hitems : (predicateCall c).items = Item.call c.name
        ((qualifiedName c.field :: c.args.map fieldArgument).map fun p => .phrase .same p) := by
      simp [items, Function.comp_def]
    have hcall := Written.of_call (hitems ▸ h)
    rw [Phrase.text, PredicateCall.text]
    simpa [Phrase.text, Function.comp_def] using hcall
  | timeSpan t =>
    obtain ⟨us, vs, rfl, hnumber, hrest⟩ := Written.of_phrase h
    obtain ⟨x, rfl, -, hx⟩ := hrest.of_spelling rfl
    have htext := hnumber.append_blank (.single hx)
    rw [Phrase.text, TimeSpan.text, String.append_assoc]
    exact htext
  | constant c => exact Constant.printed hp h
  | number n =>
    obtain ⟨x, rfl, -, hx⟩ := Written.of_spelling h (by cases n.kind <;> rfl)
    exact .single hx
  | string s =>
    obtain ⟨x, rfl, -, hx⟩ := Written.of_spelling h rfl
    exact .single hx
  | truthValue b =>
    obtain ⟨x, us, rfl, ⟨hxk, hx⟩, hs, hnil⟩ := Written.of_terminal h
    obtain rfl := hnil.of_nil
    exact .single (hs.written_truth hxk hx)
  | qualifiedName q =>
    obtain ⟨-, -, -, -, htext⟩ := Written.of_dotted hp.1 hp.2 h
    exact htext
  | identifier i =>
    obtain ⟨x, rfl, -, hx⟩ := Written.of_spelling h (Kind.isCased_of_isName hp.1)
    exact .single hx

theorem Phrase.prints {p : Phrase} (hp : p.Admissible filters) (h : Written p.items ts) :
    p.Prints ts := by
  refine ⟨Phrase.printed hp h, ?_⟩
  rintro i rfl
  exact Written.of_spelling h (Kind.isCased_of_isName hp.1)

variable {exact : Bool} {c : Context} {items : List Item} {ps : List Placed}

theorem Yields.written (h : Yields id exact c items ps) (hs : ∀ x ∈ ps, x.1.Spelled) :
    Written items (ps.map Prod.fst) := by
  induction h with
  | nil => exact .nil
  | terminal token _ ih =>
    have hrest := ih fun x hx => hs x (List.mem_cons_of_mem _ hx)
    exact .terminal token (hs _ (List.mem_cons_self ..)) hrest
  | phrase _ admissible _ _ _ ihp ih =>
    have hparts := ihp fun x hx => hs x (List.mem_append_left _ hx)
    have hrest := ih fun x hx => hs x (List.mem_append_right _ hx)
    rw [List.map_append]
    exact .phrase (Phrase.prints admissible hparts) hrest

/-- The text of what the grammar derives is the tokens of its stretch in print. -/
theorem Yields.printed {nesting : Nesting} {p : Phrase} (h : Yields id exact c [.phrase nesting p] ps)
    (hs : ∀ x ∈ ps, x.1.Spelled) : Printed (ps.map Prod.fst) p.text :=
  (h.written hs).of_singleton

end PipeQuery
