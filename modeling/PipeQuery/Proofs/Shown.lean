import PipeQuery.Ast.SExpression
import PipeQuery.Proofs.Recast

/-!
# What is shown of a query

The text and the s-expression of a query are put together from the texts of its names and constants
and from fixed words; of the tokens that it keeps only the upper case of a keyword is shown. So what
`f` makes of a text, piece by piece, it makes of the text of a query that is recast without a
difference to `f` (`Query.shown_recast`). Spans are not shown at all (`Query.shown_erase`).
-/

namespace PipeQuery

/-- Recasting a query makes no difference to what `f` makes of its text, piece by piece. -/
structure Shows (f : String → String) (ρ : Token → Token) (σ : Recast) : Prop where
  /-- Nothing is made of nothing. -/
  nil : f "" = ""
  /-- Texts are taken piece by piece. -/
  append (s t : String) : f (s ++ t) = f s ++ f t
  /-- Another text makes no difference. -/
  text (s : String) : f (σ.text s) = f s
  /-- Another token makes no difference to its text in upper case. -/
  keyword (t : Token) : f (ρ t).text.toUpper = f t.text.toUpper

variable {f : String → String} {ρ : Token → Token} {σ : Recast}

namespace Shows

variable {s s' t t' head : String} {l l' : List String}

theorem intercalate (h : Shows f ρ σ) (hl : l.map f = l'.map f) :
    f (s.intercalate l) = f (s.intercalate l') := by
  induction l generalizing l' with
  | nil => rw [List.map_eq_nil_iff.1 hl.symm]
  | cons a l ih =>
    cases l' with
    | nil => simp at hl
    | cons b l' =>
      obtain ⟨hab, hl⟩ := List.cons.inj hl
      cases l with
      | nil =>
        rw [List.map_eq_nil_iff.1 hl.symm, String.intercalate_singleton, String.intercalate_singleton,
          hab]
      | cons c l =>
        cases l' with
        | nil => simp at hl
        | cons d l' =>
          simp only [String.intercalate_cons_cons, h.append, hab, ih hl]

theorem commaSeparated (h : Shows f ρ σ) (hl : l.map f = l'.map f) :
    f (commaSeparated l) = f (PipeQuery.commaSeparated l') := h.intercalate hl

theorem form (h : Shows f ρ σ) (hl : l.map f = l'.map f) :
    f (form head l) = f (PipeQuery.form head l') := by
  have hitems : f (" ".intercalate (head :: l)) = f (" ".intercalate (head :: l')) :=
    h.intercalate (by simp [hl])
  simp only [PipeQuery.form, h.append, hitems]

theorem form₂ (h : Shows f ρ σ) (hs : f s = f s') (ht : f t = f t') :
    f (form₂ head s t) = f (PipeQuery.form₂ head s' t') := by
  simp only [PipeQuery.form₂, h.append, hs, ht]

theorem call (h : Shows f ρ σ) (name : Identifier) (hl : l.map f = l'.map f) :
    f (callText (name.recast σ) l) = f (callText name l') ∧
      f (callForm (name.recast σ) l) = f (callForm name l') := by
  have hname : f (name.recast σ).raw = f name.raw := h.text _
  constructor
  · simp only [callText, h.append, hname, h.commaSeparated hl]
  · exact h.form (by simp [hname, hl])

theorem assigned (h : Shows f ρ σ) (name : Option Identifier) (hs : f s = f s') (ht : f t = f t') :
    f (assignedText (name.map (Identifier.recast σ)) s) = f (assignedText name s') ∧
      f (assignedForm (name.map (Identifier.recast σ)) t) = f (assignedForm name t') := by
  cases name with
  | none => exact ⟨hs, ht⟩
  | some name =>
    have hname : f (name.recast σ).raw = f name.raw := h.text _
    constructor
    · simp only [Option.map_some, assignedText, h.append, hname, hs]
    · exact h.form₂ hname ht

/-- What makes no difference to the parts of a list makes none to the list. -/
theorem map {α : Type} {g : α → α} (shown : α → String) (hg : ∀ a, f (shown (g a)) = f (shown a))
    (as : List α) : ((as.map g).map shown).map f = (as.map shown).map f := by
  simp only [List.map_map]
  exact List.map_congr_left fun a _ => hg a

/-- Both ways of showing the parts of a list at once. -/
theorem all {α : Type} {g : α → α} {text sexpr : α → String}
    (hg : ∀ a, f (text (g a)) = f (text a) ∧ f (sexpr (g a)) = f (sexpr a)) (as : List α) :
    ((as.map g).map text).map f = (as.map text).map f ∧
      ((as.map g).map sexpr).map f = (as.map sexpr).map f :=
  ⟨map text (fun a => (hg a).1) as, map sexpr (fun a => (hg a).2) as⟩

end Shows

/-! ## Names and constants -/

theorem QualifiedName.text_recast (h : Shows f ρ σ) (q : QualifiedName) :
    f (q.recast σ).text = f q.text :=
  h.intercalate (Shows.map Identifier.raw (fun _ => h.text _) q.parts)

theorem QualifiedName.texts_recast (h : Shows f ρ σ) (names : List QualifiedName) :
    ((names.map (recast σ)).map text).map f = (names.map text).map f :=
  Shows.map text (text_recast h) names

theorem Constant.shown_recast (h : Shows f ρ σ) (v : Constant) :
    f (v.recast σ).text = f v.text ∧ f (v.recast σ).sexpr = f v.sexpr := by
  have hlist {l l' : List String} (hl : l.map f = l'.map f) :
      f ("[" ++ commaSeparated l ++ "]") = f ("[" ++ commaSeparated l' ++ "]") ∧
        f (form "list" l) = f (form "list" l') := by
    refine ⟨?_, h.form hl⟩
    simp only [h.append, h.commaSeparated hl]
  cases v with
  | null | boolean => exact ⟨rfl, rfl⟩
  | numeric | string => exact ⟨h.text _, h.text _⟩
  | numericArray values => exact hlist (Shows.map NumericValue.raw (fun _ => h.text _) values)
  | booleanArray values =>
    exact hlist (Shows.map (g := BooleanValue.recast σ) BooleanValue.text (fun _ => rfl) values)
  | stringArray values => exact hlist (Shows.map StringLiteral.raw (fun _ => h.text _) values)

theorem FieldArgument.shown_recast (h : Shows f ρ σ) (a : FieldArgument) :
    f (a.recast σ).text = f a.text ∧ f (a.recast σ).sexpr = f a.sexpr := by
  cases a with
  | field name => exact ⟨name.text_recast h, name.text_recast h⟩
  | string | numeric => exact ⟨h.text _, h.text _⟩

theorem FieldArgument.all_recast (h : Shows f ρ σ) (as : List FieldArgument) :
    ((as.map (recast σ)).map text).map f = (as.map text).map f ∧
      ((as.map (recast σ)).map sexpr).map f = (as.map sexpr).map f :=
  Shows.all (shown_recast h) as

theorem TimeSpan.shown_recast (h : Shows f ρ σ) (t : TimeSpan) :
    f (t.recast σ).text = f t.text ∧ f (t.recast σ).sexpr = f t.sexpr := by
  refine ⟨?_, h.form₂ (h.text _) (h.text _)⟩
  simp only [text, recast, NumericValue.recast, h.append, h.text]

theorem PredicateCall.shown_recast (h : Shows f ρ σ) (c : PredicateCall) :
    f (c.recast σ).text = f c.text ∧ f (c.recast σ).sexpr = f c.sexpr := by
  obtain ⟨hargs, hargs'⟩ := FieldArgument.all_recast h c.args
  have hfield := c.field.text_recast h
  have hname : f (c.name.recast σ).raw = f c.name.raw := h.text _
  refine ⟨(h.call c.name ?_).1, h.form ?_⟩
  · simp only [recast, List.map_cons, hfield, hargs]
  · simp only [recast, List.map_cons, hname, hfield, hargs']

/-! ## Expressions -/

mutual

theorem BooleanExpr.shown_recast (h : Shows f ρ σ) : ∀ e : BooleanExpr,
    f (e.recast ρ σ).text = f e.text ∧ f (e.recast ρ σ).sexpr = f e.sexpr
  | .not operator operand span => by
    obtain ⟨ht, hs⟩ := operand.shown_recast h
    rw [BooleanExpr.recast]
    exact ⟨by simp only [BooleanExpr.text, h.append, ht], h.form (by simp [hs])⟩
  | .value v => by
    rw [BooleanExpr.recast]
    exact v.shown_recast h
  | .connective op left operator right => by
    obtain ⟨ht, hs⟩ := left.shown_recast h
    obtain ⟨ht', hs'⟩ := right.shown_recast h
    rw [BooleanExpr.recast]
    exact ⟨by simp only [BooleanExpr.text, h.append, ht, ht'], h.form₂ hs hs'⟩
  | .isIn v negation items span => by
    obtain ⟨ht, hs⟩ := v.shown_recast h
    obtain ⟨hitems, hitems'⟩ := ValueExpr.all_recast h items
    rw [BooleanExpr.recast, BooleanExpr.text, BooleanExpr.text, BooleanExpr.sexpr, BooleanExpr.sexpr,
      negationText, negationText, testTag, testTag, Option.isSome_map]
    exact ⟨by simp only [h.append, ht, h.commaSeparated hitems],
      h.form (by rw [List.map_cons, List.map_cons, hs, hitems'])⟩
  | .isMatch v negation kind pattern span => by
    obtain ⟨ht, hs⟩ := v.shown_recast h
    have hpattern : f (pattern.recast σ).raw = f pattern.raw := h.text _
    rw [BooleanExpr.recast, BooleanExpr.text, BooleanExpr.text, BooleanExpr.sexpr, BooleanExpr.sexpr,
      negationText, negationText, testTag, testTag, Option.isSome_map]
    exact ⟨by simp only [h.append, ht, hpattern], h.form₂ hs hpattern⟩
  | .predicate call => by
    rw [BooleanExpr.recast]
    exact call.shown_recast h

theorem ValueExpr.shown_recast (h : Shows f ρ σ) : ∀ v : ValueExpr,
    f (v.recast ρ σ).text = f v.text ∧ f (v.recast ρ σ).sexpr = f v.sexpr
  | .operator o => by
    rw [ValueExpr.recast]
    exact o.shown_recast h
  | .comparison left op operator right => by
    obtain ⟨ht, hs⟩ := left.shown_recast h
    obtain ⟨ht', hs'⟩ := right.shown_recast h
    rw [ValueExpr.recast]
    exact ⟨by simp only [ValueExpr.text, h.append, ht, ht'], h.form₂ hs hs'⟩

theorem OperatorExpr.shown_recast (h : Shows f ρ σ) : ∀ o : OperatorExpr,
    f (o.recast ρ σ).text = f o.text ∧ f (o.recast ρ σ).sexpr = f o.sexpr
  | .primary p => by
    rw [OperatorExpr.recast]
    exact p.shown_recast h
  | .aggregate name args span => by
    obtain ⟨hargs, hargs'⟩ := FieldArgument.all_recast h args
    rw [OperatorExpr.recast]
    exact ⟨(h.call name hargs).1, (h.call name hargs').2⟩
  | .scalar name args span => by
    obtain ⟨hargs, hargs'⟩ := ScalarArgument.all_recast h args
    rw [OperatorExpr.recast]
    exact ⟨(h.call name hargs).1, (h.call name hargs').2⟩
  | .signed sign operator operand span => by
    obtain ⟨ht, hs⟩ := operand.shown_recast h
    rw [OperatorExpr.recast]
    exact ⟨by simp only [OperatorExpr.text, h.append, ht], h.form (by simp [hs])⟩
  | .binary op operator left right => by
    obtain ⟨ht, hs⟩ := left.shown_recast h
    obtain ⟨ht', hs'⟩ := right.shown_recast h
    rw [OperatorExpr.recast]
    exact ⟨by simp only [OperatorExpr.text, h.append, ht, ht'], h.form₂ hs hs'⟩

theorem PrimaryExpr.shown_recast (h : Shows f ρ σ) : ∀ p : PrimaryExpr,
    f (p.recast ρ σ).text = f p.text ∧ f (p.recast ρ σ).sexpr = f p.sexpr
  | .constant c => by
    rw [PrimaryExpr.recast]
    exact c.shown_recast h
  | .field name => by
    rw [PrimaryExpr.recast]
    exact ⟨name.text_recast h, name.text_recast h⟩
  | .group inner span => by
    obtain ⟨ht, hs⟩ := inner.shown_recast h
    rw [PrimaryExpr.recast]
    exact ⟨by simp only [PrimaryExpr.text, h.append, ht], h.form (by simp [hs])⟩
  | .call name args span => by
    obtain ⟨hargs, hargs'⟩ := BooleanExpr.all_recast h args
    rw [PrimaryExpr.recast]
    exact ⟨(h.call name hargs).1, (h.call name hargs').2⟩

theorem ScalarArgument.shown_recast (h : Shows f ρ σ) : ∀ a : ScalarArgument,
    f (a.recast ρ σ).text = f a.text ∧ f (a.recast ρ σ).sexpr = f a.sexpr
  | .value v => by
    rw [ScalarArgument.recast]
    exact v.shown_recast h
  | .timeSpan t => by
    rw [ScalarArgument.recast]
    exact t.shown_recast h

theorem BooleanExpr.all_recast (h : Shows f ρ σ) : ∀ es : List BooleanExpr,
    (BooleanExpr.texts (BooleanExpr.recastAll ρ σ es)).map f = (BooleanExpr.texts es).map f ∧
      (BooleanExpr.sexprs (BooleanExpr.recastAll ρ σ es)).map f = (BooleanExpr.sexprs es).map f
  | [] => ⟨rfl, rfl⟩
  | e :: es => by
    obtain ⟨ht, hs⟩ := e.shown_recast h
    obtain ⟨hts, hss⟩ := BooleanExpr.all_recast h es
    simp only [BooleanExpr.recastAll, BooleanExpr.texts, BooleanExpr.sexprs, List.map_cons, ht, hs, hts,
      hss, and_self]

theorem ValueExpr.all_recast (h : Shows f ρ σ) : ∀ es : List ValueExpr,
    (ValueExpr.texts (ValueExpr.recastAll ρ σ es)).map f = (ValueExpr.texts es).map f ∧
      (ValueExpr.sexprs (ValueExpr.recastAll ρ σ es)).map f = (ValueExpr.sexprs es).map f
  | [] => ⟨rfl, rfl⟩
  | e :: es => by
    obtain ⟨ht, hs⟩ := e.shown_recast h
    obtain ⟨hts, hss⟩ := ValueExpr.all_recast h es
    simp only [ValueExpr.recastAll, ValueExpr.texts, ValueExpr.sexprs, List.map_cons, ht, hs, hts,
      hss, and_self]

theorem ScalarArgument.all_recast (h : Shows f ρ σ) : ∀ es : List ScalarArgument,
    (ScalarArgument.texts (ScalarArgument.recastAll ρ σ es)).map f
        = (ScalarArgument.texts es).map f ∧
      (ScalarArgument.sexprs (ScalarArgument.recastAll ρ σ es)).map f
        = (ScalarArgument.sexprs es).map f
  | [] => ⟨rfl, rfl⟩
  | e :: es => by
    obtain ⟨ht, hs⟩ := e.shown_recast h
    obtain ⟨hts, hss⟩ := ScalarArgument.all_recast h es
    simp only [ScalarArgument.recastAll, ScalarArgument.texts, ScalarArgument.sexprs, List.map_cons, ht, hs, hts,
      hss, and_self]

end

/-! ## Commands -/

theorem Field.shown_recast (h : Shows f ρ σ) (x : Field) :
    f (x.recast ρ σ).text = f x.text ∧ f (x.recast ρ σ).sexpr = f x.sexpr :=
  h.assigned x.name (x.expression.shown_recast h).1 (x.expression.shown_recast h).2

theorem RenameClause.shown_recast (h : Shows f ρ σ) (c : RenameClause) :
    f (c.recast σ).text = f c.text ∧ f (c.recast σ).sexpr = f c.sexpr :=
  h.assigned (some c.newName) (c.oldName.text_recast h) (c.oldName.text_recast h)

theorem CommandOption.shown_recast (h : Shows f ρ σ) (o : CommandOption) :
    f (o.recast σ).text = f o.text ∧ f (o.recast σ).sexpr = f o.sexpr :=
  h.assigned (some o.name) (o.value.shown_recast h).1 (o.value.shown_recast h).2

theorem EnrichClause.shown_recast (h : Shows f ρ σ) (c : EnrichClause) :
    f (c.recast σ).text = f c.text ∧ f (c.recast σ).sexpr = f c.sexpr :=
  h.assigned c.newName (h.text _) (h.text _)

theorem SortKey.shown_recast (h : Shows f ρ σ) (k : SortKey) :
    f (k.recast ρ σ).text = f k.text ∧ f (k.recast ρ σ).sexpr = f k.sexpr := by
  obtain ⟨ht, hs⟩ := k.expression.shown_recast h
  refine ⟨by simp only [recast, text, textWith, h.append, ht], ?_⟩
  simp only [recast, sexpr, sexprWith]
  split
  · exact hs
  · exact h.form (by simp [hs])

/-- Of the keyword of a command only its upper case is shown. -/
theorem ProcessingClause.shown_recast (h : Shows f ρ σ) (clause : ProcessingClause)
    (keyword : Token) : f ((clause.recast ρ σ).text (ρ keyword)) = f (clause.text keyword) ∧
      f (clause.recast ρ σ).sexpr = f clause.sexpr := by
  have hnames (names : List QualifiedName) := QualifiedName.texts_recast h names
  have hfields (fields : List Field) := Shows.all (Field.shown_recast h) fields
  have hlist {word head : String} {l l' m m' : List String} (hl : l.map f = l'.map f)
      (hm : m.map f = m'.map f) :
      f (word ++ commaSeparated l) = f (word ++ commaSeparated l') ∧
        f (form head m) = f (form head m') :=
    ⟨by simp only [h.append, h.commaSeparated hl], h.form hm⟩
  cases clause with
  | eval fields => exact hlist (hfields fields).1 (hfields fields).2
  | limit count =>
    have hcount : f (count.recast σ).raw = f count.raw := h.text _
    exact ⟨by simp only [recast, text, textWith, h.append, hcount], h.form (by simp [hcount])⟩
  | keep names =>
    refine ⟨?_, h.form (hnames names)⟩
    simp only [recast, text, textWith, QualifiedName.texts, h.append, h.keyword,
      h.commaSeparated (hnames names)]
  | rename clauses =>
    have hs := Shows.all (RenameClause.shown_recast h) clauses
    exact hlist hs.1 hs.2
  | drop names => exact hlist (hnames names) (hnames names)
  | dissect names pattern options =>
    have hpattern : f (pattern.recast σ).raw = f pattern.raw := h.text _
    have hs (options : List CommandOption) := Shows.all (CommandOption.shown_recast h) options
    constructor
    · cases options with
      | none => simp only [recast, text, textWith, QualifiedName.texts, h.append, hpattern,
          h.commaSeparated (hnames names), Option.map_none, Option.elim_none]
      | some options => simp only [recast, text, textWith, QualifiedName.texts, h.append, hpattern,
          h.commaSeparated (hnames names), Option.map_some, Option.elim_some,
          h.commaSeparated (hs options).1]
    · refine h.form ?_
      cases options with
      | none => simp only [Option.map_none, Option.getD_none, List.map_append, List.map_cons,
          hnames names, hpattern]
      | some options => simp only [Option.map_some, Option.getD_some, List.map_append, List.map_cons,
          hnames names, hpattern, (hs options).2]
  | grok names pattern =>
    have hpattern : f (pattern.recast σ).raw = f pattern.raw := h.text _
    refine ⟨?_, h.form (by simp only [List.map_append, List.map_cons, hnames names, hpattern])⟩
    simp only [recast, text, textWith, QualifiedName.texts, h.append, hpattern,
      h.commaSeparated (hnames names)]
  | sort keys =>
    have hs := Shows.all (SortKey.shown_recast h) keys
    exact hlist hs.1 hs.2
  | stats fields grouping =>
    simp only [Field.text, Field.sexpr] at hfields
    constructor
    · cases fields <;> cases grouping <;>
        simp only [recast, text, textWith, QualifiedName.texts, h.append, Option.map_none,
          Option.elim_none, Option.map_some, Option.elim_some, h.commaSeparated (hfields _).1,
          h.commaSeparated (hnames _)]
    · refine h.form ?_
      cases fields <;> cases grouping <;>
        simp only [Option.map_none, Option.map_some, Option.toList_none, Option.toList_some,
          List.map_append, List.map_cons, List.map_nil, h.form (hfields _).2, h.form (hnames _)]
  | filter condition =>
    obtain ⟨ht, hs⟩ := condition.shown_recast h
    exact ⟨by simp only [recast, text, textWith, h.append, ht], h.form (by simp [hs])⟩
  | mvExpand names => exact hlist (hnames names) (hnames names)
  | enrich policy matchField clauses =>
    have hname (i : Identifier) : f (i.recast σ).raw = f i.raw := h.text _
    have hs (clauses : List EnrichClause) := Shows.all (EnrichClause.shown_recast h) clauses
    constructor
    · cases matchField <;> cases clauses <;>
        simp only [recast, text, textWith, h.append, hname, Option.map_none, Option.elim_none,
          Option.map_some, Option.elim_some, h.commaSeparated (hs _).1]
    · have hfield (i : Identifier) : f (form "on" [(i.recast σ).raw]) = f (form "on" [i.raw]) :=
        h.form (by simp [hname])
      refine h.form ?_
      cases matchField <;> cases clauses <;>
        simp only [Option.map_none, Option.map_some, Option.toList_none, Option.toList_some,
          List.map_append, List.map_cons, List.map_nil, hname, hfield, h.form (hs _).2]

theorem ProcessingCommand.shown_recast (h : Shows f ρ σ) (command : ProcessingCommand) :
    f (command.recast ρ σ).text = f command.text ∧
      f (command.recast ρ σ).sexpr = f command.sexpr := by
  cases command with
  | command keyword clause span => exact clause.shown_recast h keyword
  | error span => exact ⟨rfl, rfl⟩

mutual

theorem Query.shown_recast (h : Shows f ρ σ) : ∀ q : Query,
    f (q.recast ρ σ).text = f q.text ∧ f (q.recast ρ σ).sexpr = f q.sexpr
  | .source command => by
    rw [Query.recast]
    exact command.shown_recast h
  | .pipe q bar command => by
    obtain ⟨ht, hs⟩ := q.shown_recast h
    obtain ⟨ht', hs'⟩ := command.shown_recast h
    rw [Query.recast]
    exact ⟨by simp only [Query.text, h.append, ht, ht'], h.form₂ hs hs'⟩

theorem SourceCommand.shown_recast (h : Shows f ρ σ) : ∀ command : SourceCommand,
    f (command.recast ρ σ).text = f command.text ∧
      f (command.recast ρ σ).sexpr = f command.sexpr
  | .command keyword clause span => by
    rw [SourceCommand.recast]
    exact clause.shown_recast h
  | .error span => by
    rw [SourceCommand.recast]
    exact ⟨rfl, rfl⟩

theorem SourceClause.shown_recast (h : Shows f ρ σ) : ∀ clause : SourceClause,
    f (clause.recast ρ σ).text = f clause.text ∧ f (clause.recast ρ σ).sexpr = f clause.sexpr
  | .explain query => by
    obtain ⟨ht, hs⟩ := query.shown_recast h
    rw [SourceClause.recast]
    exact ⟨by simp only [SourceClause.text, h.append, ht], h.form (by simp [hs])⟩
  | .indices sources => by
    have hs := Shows.map (g := Identifier.recast σ) Identifier.raw (fun i => h.text i.raw) sources
    rw [SourceClause.recast]
    exact ⟨by simp only [SourceClause.text, h.append, h.commaSeparated hs], h.form hs⟩
  | .row fields => by
    obtain ⟨hts, hss⟩ := Shows.all (Field.shown_recast h) fields
    rw [SourceClause.recast]
    exact ⟨by simp only [SourceClause.text, h.append, h.commaSeparated hts], h.form hss⟩
  | .listing target => by
    rw [SourceClause.recast]
    exact ⟨rfl, rfl⟩

end

/-- Spans are not shown, nor of the tokens more than the upper case of a keyword. -/
theorem Query.shown_erase (hρ : ∀ t, (ρ t).text.toUpper = t.text.toUpper) (q : Query) :
    (q.erase ρ).text = q.text ∧ (q.erase ρ).sexpr = q.sexpr := by
  have h : Shows id ρ .erase := ⟨rfl, fun _ _ => rfl, fun _ => rfl, hρ⟩
  exact q.shown_recast h

end PipeQuery
