import PipeQuery.Proofs.Ahead
import PipeQuery.Proofs.WellFormed

/-!
# Expressions in queries

The same text is the same expression wherever it stands. A text that is read as an expression by
itself is read as that expression behind the front of a `ROW`, an `EVAL`, a `SORT` or a `WHERE`, and
what is read behind a `WHERE` without a test or a call of a predicate is read by itself
(`embedded_parseExpression`). So the tests that filters have besides do not get in the way of other
expressions.

The front of such a query ends in the mode of expressions, so the text is cut into the same tokens
behind it. What the grammar derives where predicates may not be used it derives where they may, and
back again if none of them is used (`Yields.set_filters`).
-/

namespace PipeQuery

open Lexer

variable {ρ : Token → Token} {exact : Bool} {c d : Context} {items : List Item} {ps : List Placed}
  {p : Phrase} {text : String} {e : BooleanExpr}

/-! ## Expressions by themselves -/

namespace Grammar

open Rule State

/-- A whole expression is an expression that the input ends behind. -/
theorem run_wholeExpression (levels : Nat) (s : State) :
    (wholeExpression levels).run s = match ((expressions levels).boolean 0).run s with
      | (some e, t) =>
        if t.stream.atEnd = true then (some e, t) else (none, t.blame (.extraneous {.endOfInput}))
      | (none, t) => (none, t) := by
  rw [wholeExpression, run_bind]
  generalize ((expressions levels).boolean 0).run s = x
  obtain ⟨_ | e, t⟩ := x
  · rfl
  · change (ite (t.stream.atEnd = true) (pure e) (giveUp _) : Rule BooleanExpr).run t = ite _ _ _
    split <;> rfl

/-- What is read as an expression by itself is derived from all the tokens of the text. -/
theorem derives_parseExpression (h : (parseExpression text).result = .ok e) :
    Yields id true ⟨false, ({} : Config).maxDepth⟩ [.deeper (.boolean e)]
      (TokenStream.significant (tokenizeFrom .expression text)) := by
  obtain ⟨t, hrun, hd⟩ := parseExpression_eq_ok_iff.1 h
  have hclear := State.clear_start {} (tokenizeFrom .expression text)
  rw [run_wholeExpression] at hrun
  split at hrun
  · next e' u hr =>
    split at hrun
    · next hend =>
      obtain ⟨he, rfl⟩ := Prod.mk.inj hrun
      obtain rfl := Option.some.inj he
      obtain ⟨a, ps, ha⟩ := exists_accepts ((expressions ({} : Config).maxDepth).boolean 0)
        hclear.toRegular (by rw [hr]; exact hd)
      rw [hr] at ha
      obtain rfl : a = e' := by simpa [hr] using ha.run.symm
      have hrest := ha.reads.rest
      rw [List.isEmpty_iff.1 hend, List.append_nil] at hrest
      have hyields := ((expressions_sound _).boolean (Nat.zero_le _) ha).1
      rw [← hrest] at hyields
      exact hyields
    · cases hrun
  · cases hrun

/-- What is derived from all the tokens of a text is read as an expression by itself. -/
theorem exists_parseExpression (h : Yields ρ exact ⟨false, ({} : Config).maxDepth⟩
    [.deeper (.boolean e)] (TokenStream.significant (tokenizeFrom .expression text))) :
    ∃ e', (parseExpression text).result = .ok e' ∧ e'.recast ρ .erase = e.recast ρ .erase := by
  have hread : ((expressions ({} : Config).maxDepth).boolean 0).Reads .outermost
      (TokenStream.significant (tokenizeFrom .expression text)) (EndsCondition 0)
      (·.recast ρ .erase = e.recast ρ .erase) := (expressions_complete _).boolean (Nat.zero_le _) h
  obtain ⟨e', t, he', herase⟩ := hread (.start {} (tokenizeFrom .expression text)) []
    (State.clear_start {} _) rfl (List.append_nil _).symm (by decide)
  have hend : t.stream.rest = [] := he'.rest_eq (List.append_nil _).symm
  refine ⟨e', parseExpression_eq_ok_iff.2 ⟨t, ?_, he'.reads.clear'.diagnostics⟩, herase⟩
  rw [run_wholeExpression, he'.run]
  simp [TokenStream.atEnd, hend]

end Grammar

/-! ## Predicates -/

theorem Phrase.Admissible.set_filters {b b' : Bool} (h : p.Admissible b)
    (hb : b' = true ∨ p.isTest = false) : p.Admissible b' := by
  cases p with
  | boolean e => cases e <;> simp_all [Admissible, isTest, BooleanExpr.Admissible]
  | sourceCommand command => cases command <;> exact h
  | processingCommand command => cases command <;> exact h
  | _ => exact h

theorem Context.inside_filters (b : Bool) {nesting : Nesting} (h : c.inside nesting = some d) :
    (Context.mk b c.levels).inside nesting = some ⟨nesting.filters b, d.levels⟩ := by
  obtain ⟨filters, levels⟩ := c
  cases nesting <;> cases levels <;> simp_all [inside, Nesting.filters] <;> simp [← h]

/-- What the grammar derives where predicates may not be used it derives where they may, and back
again if none of them is used. -/
theorem Yields.set_filters (h : Yields ρ exact c items ps) (b : Bool)
    (hb : b = true ∨ ∀ nesting p, .phrase nesting p ∈ items → ∀ q, p.Below q → q.isTest = false) :
    Yields ρ exact ⟨b, c.levels⟩ items ps := by
  induction h generalizing b with
  | nil => exact .nil _
  | terminal token _ ih =>
    exact .terminal token (ih b (hb.imp_right fun h n p hp => h n p (List.mem_cons_of_mem _ hp)))
  | @phrase c d nesting p items ps qs inside admissible parts span rest ihp ih =>
    have hrest := ih b (hb.imp_right fun h n q hq => h n q (List.mem_cons_of_mem _ hq))
    have hbelow : nesting.filters b = true ∨ ∀ q, p.Below q → q.isTest = false := by
      rcases hb with rfl | hb
      · cases nesting <;> simp [Nesting.filters]
      · exact .inr fun q hq => hb nesting p (List.mem_cons_self ..) q hq
    have hparts := ihp (nesting.filters b) (hbelow.imp_right fun h n q hq r hr =>
      h r (.head (Phrase.mem_children.2 ⟨n, hq⟩) hr))
    exact .phrase (Context.inside_filters b inside)
      (admissible.set_filters (hbelow.imp_right fun h => h p .refl)) hparts span hrest

/-! ## Queries around an expression -/

/-- A query that an expression completes. -/
inductive Host where
  /-- A row of a single field. -/
  | row
  /-- A stage that computes a single field. -/
  | eval
  /-- A sort by a single key. -/
  | sort
  /-- A filter. -/
  | filter

namespace Host

/-- The words in front of the expression. -/
def words : Host → String
  | row => "ROW x ="
  | eval => "FROM t | EVAL x ="
  | sort => "FROM t | SORT"
  | filter => "FROM t | WHERE"

/-- The text in front of the expression. -/
def front (host : Host) : String := host.words ++ " "

/-- The expression, where it is the only field, all of the only sort key, or the condition of the
query. -/
def expression? : Host → Query → Option BooleanExpr
  | row, .source (.command _ (.row [field]) _) => some field.expression
  | eval, .pipe (.source _) _ (.command _ (.eval [field]) _) => some field.expression
  | sort, .pipe (.source _) _ (.command _ (.sort [⟨expression, none, none, _⟩]) _) =>
    some expression
  | filter, .pipe (.source _) _ (.command _ (.filter condition) _) => some condition
  | _, _ => none

/-- It does not depend on the spans of the query, nor on the tokens that it keeps. -/
theorem expression?_erase (host : Host) (ρ : Token → Token) (q : Query) :
    host.expression? (q.erase ρ) = (host.expression? q).map (·.recast ρ .erase) := by
  cases q with
  | source command =>
    cases command with
    | error => cases host <;> simp [Query.erase, Query.recast, SourceCommand.recast, expression?]
    | command keyword clause span =>
      rcases clause with - | - | ⟨- | ⟨field, - | ⟨field', fields⟩⟩⟩ | - <;>
        cases host <;>
          simp [Query.erase, Query.recast, SourceCommand.recast, SourceClause.recast, Field.recast,
            expression?]
  | pipe q bar command =>
    cases q with
    | pipe => cases host <;> simp [Query.erase, Query.recast, expression?]
    | source source =>
      cases command with
      | error =>
        cases host <;> simp [Query.erase, Query.recast, ProcessingCommand.recast, expression?]
      | command keyword clause span =>
        cases clause with
        | eval fields =>
          rcases fields with - | ⟨field, - | ⟨field', fields⟩⟩ <;> cases host <;>
            simp [Query.erase, Query.recast, ProcessingCommand.recast, ProcessingClause.recast,
              Field.recast, expression?]
        | sort keys =>
          rcases keys with - | ⟨⟨expression, - | order, - | nulls, span⟩, - | ⟨key', keys⟩⟩ <;>
            cases host <;>
            simp [Query.erase, Query.recast, ProcessingCommand.recast, ProcessingClause.recast,
              SortKey.recast, expression?]
        | _ =>
          cases host <;>
            simp [Query.erase, Query.recast, ProcessingCommand.recast, ProcessingClause.recast,
              expression?]

/-- A token without a place. -/
def bare (k : Kind) (text : String) : Placed := (⟨k, text, 0, 0, 0, 0⟩, 0)

/-- The tokens of `FROM t`, with a bar behind them. -/
def source : List Placed :=
  [bare .kwFrom "FROM", bare .sourceIdentifier "t", bare .pipe "|"]

/-- The tokens in front of the expression. -/
def tokens : Host → List Placed
  | row => [bare .kwRow "ROW", bare .identifier "x", bare .assign "="]
  | eval => source ++ [bare .kwEval "EVAL", bare .identifier "x", bare .assign "="]
  | sort => source ++ [bare .kwSort "SORT"]
  | filter => source ++ [bare .kwWhere "WHERE"]

theorem inPrint_words (host : Host) :
    (pieces .command host.words).map Token.inPrint = host.tokens.map (·.1.inPrint) := by
  cases host <;> decide +kernel

/-- They lead to the mode of expressions. -/
theorem through_tokens (host : Host) :
    (Frames.start .command).through (host.tokens.map (·.1.kind)) = .start .expression := by
  cases host <;> decide

theorem solid_words (host : Host) : ∀ t ∈ tokenizeFrom .command host.words,
    t.kind ≠ .error ∧ (t.kind = .lineComment → ' ' = '\n') := by
  cases host <;> decide +kernel

/-- Behind its front the text has the tokens that it has by itself. -/
theorem inPrint_front (host : Host) (text : String) :
    (TokenStream.significant (tokenize (host.front ++ text))).map (·.1.inPrint)
      = (host.tokens ++ TokenStream.significant (tokenizeFrom .expression text)).map
          (·.1.inPrint) := by
  have hkinds : (pieces .command host.words).map Token.kind = host.tokens.map (·.1.kind) := by
    have hkinds := congrArg (List.map Token.kind) host.inPrint_words
    rwa [List.map_map, List.map_map] at hkinds
  have hahead := cutsAhead_pieces .command host.words (b := ' ') rfl host.solid_words
  rw [hkinds, through_tokens] at hahead
  obtain ⟨ts, e, htokens, he, hcuts⟩ := exists_cuts_tokenizeFrom .expression text
  obtain ⟨vs, hvs, hv⟩ := hahead hcuts
  have hout : (host.front ++ text).toList = host.words.toList ++ [' '] ++ text.toList := by
    simp [front, String.toList_append]
  rw [tokenize, List.map_append, map_inPrint_significant_tokenizeFrom,
    map_inPrint_significant_tokenizeFrom, Cuts.inPrint_pieces (hout ▸ hvs), hv,
    List.map_append, inPrint_words, pieces_eq htokens he hcuts]

/-! ## The query -/

/-- A stage behind `FROM t`. -/
def piped (clause : ProcessingClause) (keyword : Placed) : Query :=
  .pipe (.source (.command (bare .kwFrom "FROM").1
    (.indices [⟨"t", false, .sourceIdentifier, default⟩]) default)) (bare .pipe "|").1
    (.command keyword.1 clause default)

/-- A field with the name `x`. -/
def field (e : BooleanExpr) : Field := ⟨some ⟨"x", false, .identifier, default⟩, e, default⟩

/-- The query that the expression completes. -/
def query : Host → BooleanExpr → Query
  | row, e => .source (.command (bare .kwRow "ROW").1 (.row [field e]) default)
  | eval, e => piped (.eval [field e]) (bare .kwEval "EVAL")
  | sort, e => piped (.sort [⟨e, none, none, default⟩]) (bare .kwSort "SORT")
  | filter, e => piped (.filter e) (bare .kwWhere "WHERE")

@[simp] theorem expression?_query (host : Host) : host.expression? (host.query e) = some e := by
  cases host <;> rfl

variable {n : Nat}

theorem yields_field (h : Yields id false ⟨false, n⟩ [.deeper (.boolean e)] ps) :
    Yields id false ⟨false, n⟩ [.same (.field (field e))]
      (bare .identifier "x" :: bare .assign "=" :: ps) := by
  have hname : Yields id false ⟨false, n⟩
      [.same (.identifier ⟨"x", false, .identifier, default⟩)] [bare .identifier "x"] :=
    .same ⟨rfl, rfl⟩ (.terminal ⟨rfl, rfl⟩ (.nil _))
  have hplain : (Phrase.field (field e)).Admissible false := by
    simp [Phrase.Admissible, field, Identifier.IsPlain]
  exact .same hplain (hname.append (.terminal rfl h))

theorem yields_piped {clause : ProcessingClause} {keyword : Placed} (hc : clause.Admissible)
    (h : Yields id false ⟨false, n⟩ (clause.items keyword.1) ps) :
    Yields id false ⟨false, n⟩ [.same (.query (piped clause keyword))] (source ++ ps) := by
  let t : Identifier := ⟨"t", false, .sourceIdentifier, default⟩
  let command : SourceCommand := .command (bare .kwFrom "FROM").1 (.indices [t]) default
  have hname : Yields id false ⟨false, n⟩ [.same (.identifier t)] [bare .sourceIdentifier "t"] :=
    .same ⟨rfl, rfl⟩ (.terminal ⟨rfl, rfl⟩ (.nil _))
  have hnames : (SourceClause.indices [t]).Admissible := by
    simp [SourceClause.Admissible, Identifier.IsSource, t]
  have hcommand : Yields id false ⟨false, n⟩ [.same (.sourceCommand command)]
      [bare .kwFrom "FROM", bare .sourceIdentifier "t"] :=
    .same hnames (.terminal ⟨List.mem_singleton_self _, rfl⟩ hname)
  have hsource : Yields id false ⟨false, n⟩ [.same (.query (.source command))]
      [bare .kwFrom "FROM", bare .sourceIdentifier "t"] := .same trivial hcommand
  have hstage : Yields id false ⟨false, n⟩
      [.same (.processingCommand (.command keyword.1 clause default))] ps := .same hc h
  exact .same trivial (hsource.append (.terminal ⟨List.mem_singleton_self _, rfl⟩ hstage))

/-- The grammar derives the query, if it derives the expression. -/
theorem yields_query (host : Host) (h : Yields id false ⟨false, n⟩ [.deeper (.boolean e)] ps) :
    Yields id false ⟨false, n⟩ [.same (.query (host.query e))] (host.tokens ++ ps) := by
  cases host with
  | row =>
    have hcommand : Yields id false ⟨false, n⟩
        [.same (.sourceCommand (.command (bare .kwRow "ROW").1 (.row [field e]) default))]
        (tokens row ++ ps) :=
      .same (List.cons_ne_nil _ _)
        (.terminal ⟨List.mem_singleton_self _, rfl⟩ (yields_field h))
    exact .same trivial hcommand
  | eval =>
    exact yields_piped (List.cons_ne_nil _ _)
      (.terminal ⟨List.mem_singleton_self _, rfl⟩ (yields_field h))
  | sort =>
    have hkey : Yields id false ⟨false, n⟩ [.same (.sortKey ⟨e, none, none, default⟩)] ps :=
      .same trivial h
    exact yields_piped (List.cons_ne_nil _ _) (.terminal ⟨List.mem_singleton_self _, rfl⟩ hkey)
  | filter =>
    have hcondition : Yields id false ⟨false, n⟩ [.phrase .filter (.boolean e)] ps :=
      Yields.filter_iff.2 (h.set_filters true (.inl rfl))
    exact yields_piped trivial (.terminal ⟨List.mem_singleton_self _, rfl⟩ hcondition)

/-- A text that is read as an expression by itself is read behind each front. -/
theorem parse_front (host : Host) (h : (parseExpression text).result = .ok e) :
    (parseText (host.front ++ text)).isOk = true ∧
      ∃ e', host.expression? (parseText (host.front ++ text)).statement.query = some e' ∧
        e'.recast Token.inPrint .erase = e.recast Token.inPrint .erase := by
  have hyields := host.yields_query (Grammar.derives_parseExpression h).toInexact
  have hlook := forall₂_inPrint_iff.2 (host.inPrint_front text)
  obtain ⟨hok, herase⟩ :
      (parse (tokenize (host.front ++ text)) {}).isOk = true ∧
        (parse (tokenize (host.front ++ text)) {}).statement.query.erase Token.inPrint
          = (host.query e).erase Token.inPrint := Query.parse_respelled hyields hlook
  rw [parseText]
  refine ⟨hok, ?_⟩
  have hexpression := congrArg host.expression? herase
  rw [expression?_erase, expression?_erase, expression?_query, Option.map_some] at hexpression
  exact Option.map_eq_some_iff.1 hexpression

/-! ## The condition of a filter -/

/-- Among index patterns there are no bars. -/
theorem ne_pipe_of_separated {names : List Identifier}
    (h : Separated .comma (fun i ps => Yields ρ exact c [.same (.identifier i)] ps) names ps)
    (hnames : ∀ i ∈ names, i.IsSource) : ∀ x ∈ ps, x.1.kind ≠ .pipe := by
  have hname {i : Identifier} (hi : i.IsSource) {qs : List Placed}
      (h : Yields ρ exact c [.same (.identifier i)] qs) : ∀ x ∈ qs, x.1.kind ≠ .pipe := by
    obtain ⟨-, hitems, -⟩ := Yields.same_iff.1 h
    obtain ⟨y, rfl, hy, -⟩ := Yields.singleton_terminal_iff.1 hitems
    have hsource : y.1.kind ∈ [Kind.sourceIdentifier, .quotedSourceIdentifier] := hy ▸ hi
    intro x hx hk
    rw [List.mem_singleton.1 hx] at hk
    rw [hk] at hsource
    exact absurd hsource (by decide)
  induction h with
  | one first => exact hname (hnames _ (List.mem_cons_self ..)) first
  | more first separator _ ih =>
    obtain ⟨hi, hnames⟩ := List.forall_mem_cons.1 hnames
    intro x hx
    rw [List.mem_append, List.mem_cons] at hx
    rcases hx with hx | rfl | hx
    · exact hname hi first x hx
    · simp [separator]
    · exact ih hnames x hx

/-- Nor in all of a source command that begins with `FROM`. -/
theorem ne_pipe_of_from {command : SourceCommand}
    (h : Yields ρ exact c [.same (.query (.source command))] ps)
    (hfrom : ∀ x ∈ ps.head?, x.1.kind = .kwFrom) : ∀ x ∈ ps, x.1.kind ≠ .pipe := by
  obtain ⟨-, hcommand, -⟩ := Yields.same_iff.1 h
  obtain ⟨hadm, hitems, -⟩ := Yields.same_iff.1 hcommand
  cases command with
  | error span => exact absurd hadm (by simp [Phrase.Admissible])
  | command keyword clause span =>
    cases clause with
    | indices names =>
      obtain ⟨x, qs, rfl, ⟨hx, -⟩, hlist⟩ := Yields.terminal_iff.1 hitems
      refine List.forall_mem_cons.2 ⟨fun hk => by simp [hk] at hx, ?_⟩
      exact ne_pipe_of_separated ((Yields.list_iff hadm.1).1 hlist) hadm.2
    | explain | row | listing =>
      obtain ⟨x, qs, rfl, ⟨hx, -⟩, -⟩ := Yields.terminal_iff.1 hitems
      simp [hfrom x rfl] at hx

/-- The tokens behind `FROM t | WHERE` are those of the condition. -/
theorem exists_condition {q : Query} {condition : BooleanExpr} {us : List Placed}
    (h : Yields id false ⟨false, n⟩ [.same (.query q)] ps)
    (hq : expression? filter q = some condition)
    (hps : ps.map (·.1.inPrint) = (tokens filter ++ us).map (·.1.inPrint)) :
    ∃ qs, qs.map (·.1.inPrint) = us.map (·.1.inPrint) ∧
      Yields id false ⟨true, n⟩ [.deeper (.boolean condition)] qs := by
  obtain ⟨command, bar, keyword, span, rfl⟩ : ∃ command bar keyword span,
      q = .pipe (.source command) bar (.command keyword (.filter condition) span) := by
    rw [expression?.eq_def] at hq
    split at hq <;> simp_all
  obtain ⟨-, hitems, -⟩ := Yields.same_iff.1 h
  obtain ⟨rs, qs, rfl, hsource, hrest⟩ := Yields.cons_iff.1 hitems
  obtain ⟨x, qs, rfl, ⟨hx, -⟩, hstage⟩ := Yields.terminal_iff.1 hrest
  obtain ⟨-, hitems, -⟩ := Yields.same_iff.1 hstage
  obtain ⟨y, qs, rfl, -, hcondition⟩ := Yields.terminal_iff.1 hitems
  refine ⟨qs, ?_, Yields.filter_iff.1 hcondition⟩
  have kind_eq {t u : Token} (h : t.inPrint = u.inPrint) : t.kind = u.kind :=
    (Token.inPrint_eq_iff.1 h).1
  obtain ⟨a, rs, rfl⟩ := List.exists_cons_of_ne_nil hsource.ne_nil_of_phrase
  -- the source command ends in front of the first bar, which is the third token
  rcases rs with - | ⟨b, - | ⟨z, rs⟩⟩ <;>
    simp only [tokens, source, List.cons_append, List.nil_append, List.map_cons,
      List.cons.injEq] at hps
  · rw [kind_eq hps.2.1] at hx
    exact absurd hx (by decide)
  · exact hps.2.2.2.2
  · obtain ⟨ha, -, hz, -⟩ := hps
    have hfrom : ∀ x ∈ (a :: b :: z :: rs).head?, x.1.kind = .kwFrom := by
      intro x hx
      obtain rfl := Option.some.inj hx
      exact kind_eq ha
    exact absurd (kind_eq hz) (ne_pipe_of_from hsource hfrom z (by simp))

end Host

/-- Conditions that are the same up to spans and the case of their keywords look the same. -/
theorem BooleanExpr.sexpr_congr {e e' : BooleanExpr}
    (h : e.recast Token.inPrint .erase = e'.recast Token.inPrint .erase) : e.sexpr = e'.sexpr := by
  have hshows : Shows id Token.inPrint .erase :=
    ⟨rfl, fun _ _ => rfl, fun _ => rfl, Token.toUpper_inPrint⟩
  exact ((e.shown_recast hshows).2.symm.trans (congrArg sexpr h)).trans (e'.shown_recast hshows).2

/-- The same text is the same expression everywhere. If it is read as an expression by itself, then
behind each front it is read without a diagnostic, and the only field, sort key or condition is that
expression. And if it is read behind the front of a filter, as its condition and nothing else, then
it is read by itself too, unless the condition has a test or a call of a predicate in it. -/
theorem embedded_parseExpression (text : String) :
    (∀ e, (parseExpression text).result = .ok e → ∀ host : Host,
      (parseText (host.front ++ text)).isOk = true ∧
        (host.expression? (parseText (host.front ++ text)).statement.query).map BooleanExpr.sexpr
          = some e.sexpr) ∧
      ∀ condition, (parseText (Host.filter.front ++ text)).isOk = true →
        Host.filter.expression? (parseText (Host.filter.front ++ text)).statement.query
          = some condition →
        (∀ p, (Phrase.boolean condition).Below p → p.isTest = false) →
        ∃ e, (parseExpression text).result = .ok e ∧ e.sexpr = condition.sexpr := by
  constructor
  · intro e he host
    obtain ⟨hok, e', hexpression, herase⟩ := host.parse_front he
    refine ⟨hok, ?_⟩
    rw [hexpression, Option.map_some, BooleanExpr.sexpr_congr herase]
  · intro condition hok hexpression htest
    rw [parseText] at hok hexpression
    have hquery := isOf_parse (fits_tokenize _) hok
    obtain ⟨qs, hqs, hyields⟩ := Host.exists_condition hquery hexpression
      (Host.filter.inPrint_front text)
    have hplain : Yields id false ⟨false, ({} : Config).maxDepth⟩
        [.deeper (.boolean condition)] qs :=
      hyields.set_filters false (.inr (by simpa using htest))
    obtain ⟨e, he, herase⟩ := Grammar.exists_parseExpression
      (hplain.respelled (by simp) (forall₂_inPrint_iff.2 hqs.symm))
    exact ⟨e, he, BooleanExpr.sexpr_congr herase⟩

theorem embedded_parseExpression_not :
    (∀ host : Host, (parseText (host.front ++ "NOT a == 1")).isOk = true ∧
      (host.expression? (parseText (host.front ++ "NOT a == 1")).statement.query).map
        BooleanExpr.sexpr = some "(not (== a 1))") ∧
      ∃ condition, Host.filter.expression?
          (parseText (Host.filter.front ++ "NOT a == 1")).statement.query = some condition ∧
        (∀ p, (Phrase.boolean condition).Below p → p.isTest = false) ∧
        ∃ e, (parseExpression "NOT a == 1").result = .ok e ∧ e.sexpr = condition.sexpr := by
  obtain ⟨hembedded, hback⟩ := embedded_parseExpression "NOT a == 1"
  have hsexpr : (parseExpression "NOT a == 1").result.toOption.map BooleanExpr.sexpr
      = some "(not (== a 1))" := by
    decide +kernel
  obtain ⟨e, he, hsexpr⟩ := Option.map_eq_some_iff.1 hsexpr
  have he : (parseExpression "NOT a == 1").result = .ok e := by
    cases h : (parseExpression "NOT a == 1").result <;> simp_all [Except.toOption]
  have hhosts := hembedded e he
  rw [hsexpr] at hhosts
  refine ⟨hhosts, ?_⟩
  obtain ⟨condition, hcondition, -⟩ := Option.map_eq_some_iff.1 (hhosts .filter).2
  have hplain : (Host.filter.expression?
      (parseText (Host.filter.front ++ "NOT a == 1")).statement.query).all
        (fun condition => (Phrase.boolean condition).allBelow (!·.isTest) 12) = true := by
    decide +kernel
  rw [hcondition, Option.all_some] at hplain
  have htest : ∀ p, (Phrase.boolean condition).Below p → p.isTest = false := fun p hp => by
    simpa using Phrase.of_allBelow hplain hp
  exact ⟨condition, hcondition, htest, hback condition (hhosts .filter).1 hcondition htest⟩

end PipeQuery
