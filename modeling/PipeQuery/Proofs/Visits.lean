import PipeQuery.Ast.Outline
import PipeQuery.Proofs.Spans

/-!
# Visits

A visitor goes along the outline of a statement. What it sees last on its way down are names and
constants, the tips of the outline. An outline is written node by node for each command and each
expression, and chains are visited in a row. Still no part is left out and none is visited in the
place of another one: the tips of a phrase are those of the phrases right inside it, from left to
right (`Phrase.tips_eq_children`). So the constants that a visitor sees are all those of the tree
(`Phrase.mem_tips_constant`).
-/

namespace PipeQuery

/-! ## The phrases among items -/

namespace Item

/-- The phrases among some items. -/
def phrases (items : List Item) : List Phrase := items.filterMap phrase?

@[simp] theorem phrases_nil : phrases [] = [] := rfl

@[simp] theorem phrases_phrase (nesting : Nesting) (p : Phrase) (items : List Item) :
    phrases (.phrase nesting p :: items) = p :: phrases items := rfl

@[simp] theorem phrases_terminal (t : Terminal) (items : List Item) :
    phrases (.terminal t :: items) = phrases items := rfl

@[simp] theorem phrases_append (items items' : List Item) :
    phrases (items ++ items') = phrases items ++ phrases items' := List.filterMap_append

@[simp] theorem phrases_map {α : Type} (nesting : Nesting) (phrase : α → Phrase) (as : List α) :
    phrases (as.map fun a => .phrase nesting (phrase a)) = as.map phrase := by
  induction as with
  | nil => rfl
  | cons a as ih => rw [List.map_cons, List.map_cons, phrases_phrase, ih]

@[simp] theorem phrases_separated (separator : Kind) (items : List Item) :
    phrases (separated separator items) = phrases items := by
  cases items with
  | nil => rfl
  | cons item items =>
    have h : phrases (items.flatMap fun next => [.kind separator, next]) = phrases items := by
      induction items with
      | nil => rfl
      | cons next items ih =>
        rw [phrases] at ih ⊢
        rw [List.flatMap_cons, List.filterMap_append, ih]
        cases next <;> rfl
    rw [phrases] at h ⊢
    rw [separated, List.filterMap_cons, h]
    cases item <;> rfl

@[simp] theorem phrases_list {α : Type} (phrase : α → Phrase) (as : List α) :
    phrases (Item.list phrase as) = as.map phrase := by
  rw [Item.list, phrases_separated, phrases_map]

@[simp] theorem phrases_call (name : Identifier) (arguments : List Item) :
    phrases (Item.call name arguments) = .identifier name :: phrases arguments := by
  simp [Item.call]

@[simp] theorem phrases_assigned (name : Option Identifier) :
    phrases (Item.assigned name) = name.toList.map .identifier := by
  cases name <;> rfl

@[simp] theorem phrases_negation (token : Option Token) : phrases (Item.negation token) = [] := by
  cases token <;> rfl

@[simp] theorem phrases_elim {α : Type} (f : α → List Item) (o : Option α) :
    phrases (o.elim [] f) = o.toList.flatMap fun a => phrases (f a) := by
  cases o <;> simp

end Item

namespace Phrase

theorem children_eq (p : Phrase) : p.children = Item.phrases p.items := rfl

/-! ## Induction on phrases -/

/-- The phrases inside a phrase are smaller than it. -/
theorem sizeOf_child {p q : Phrase} (h : q ∈ p.children) : sizeOf q < sizeOf p := by
  have hmem {α : Type} [SizeOf α] {a : α} {as : List α} (h : a ∈ as) : sizeOf a < sizeOf as :=
    List.sizeOf_lt_of_mem h
  rw [children_eq] at h
  cases p with
  | query q => cases q <;> simp [items] at h <;> grind
  | sourceCommand c =>
    rcases c with ⟨keyword, _ | _, span⟩ | span <;> simp [items, SourceClause.items] at h <;> grind
  | processingCommand c =>
    rcases c with ⟨keyword, _ | _, span⟩ | span <;>
      simp [items, ProcessingClause.items] at h <;> grind
  | field f => cases f; simp [items] at h; grind
  | renameClause c => cases c; simp [items] at h; grind
  | commandOption o => cases o; simp [items] at h; grind
  | sortKey k => cases k; simp [items] at h; grind
  | enrichClause c => cases c; simp [items] at h; grind
  | boolean e => cases e <;> simp [items, BooleanExpr.items] at h <;> grind
  | value v => cases v <;> simp [items, ValueExpr.items] at h <;> grind
  | operator e => cases e <;> simp [items, OperatorExpr.items] at h <;> grind
  | primary e => cases e <;> simp [items, PrimaryExpr.items] at h <;> grind
  | scalarArgument a => cases a <;> simp [items] at h <;> grind
  | fieldArgument a => cases a <;> simp [items] at h <;> grind
  | predicateCall c => cases c; simp [items] at h; grind
  | timeSpan t => cases t; simp [items] at h; grind
  | constant c => cases c <;> simp [items, Constant.items] at h <;> grind
  | number n => simp [items] at h
  | string l => simp [items] at h
  | truthValue b => simp [items] at h
  | qualifiedName q => cases q; simp [items] at h; grind
  | identifier i => simp [items] at h

/-- What holds of each phrase whenever it holds of those right inside it holds of all. -/
theorem induction {P : Phrase → Prop} (h : ∀ p, (∀ q ∈ p.children, P q) → P p) (p : Phrase) : P p :=
  (measure (sizeOf : Phrase → Nat)).wf.induction p fun p ih => h p fun q hq => ih q (sizeOf_child hq)

end Phrase

/-! ## Tips -/

/-- A name or a constant. -/
abbrev Tip : Type := Identifier ⊕ Constant

/-- The name or the constant that a node is. -/
def Node.tip? : Node → Option Tip
  | .identifier i => some (.inl i)
  | .constant c => some (.inr c)
  | _ => none

namespace Outline

/-- The names and constants of an outline. -/
def tips (o : Outline) : List Tip := o.filterMap (·.node.tip?)

/-- The names of an outline. -/
def identifiers (o : Outline) : List Identifier := o.tips.filterMap Sum.getLeft?

/-- The constants of an outline. -/
def constants (o : Outline) : List Constant := o.tips.filterMap Sum.getRight?

@[simp] theorem tips_nil : tips [] = [] := rfl

@[simp] theorem tips_entry (depth : Nat) (node : Node) (rest : Outline) :
    tips (⟨depth, node⟩ :: rest) = node.tip?.toList ++ tips rest := by
  rw [tips, List.filterMap_cons]
  cases node.tip? <;> rfl

end Outline

namespace Phrase

/-- The entries of a phrase in front of others, at a given depth. Of a pipeline these are the entries
of its commands, and what has no entry adds none. -/
def outline (linked : Bool) (depth : Nat) (rest : Outline) : Phrase → Outline
  | query q => q.commandOutline depth rest
  | sourceCommand c => c.outline depth rest
  | processingCommand c => c.outline depth rest
  | field f => f.outline depth rest
  | renameClause c => c.outline depth rest
  | commandOption o => o.outline depth rest
  | sortKey k => k.expression.outline false depth rest
  | enrichClause c => c.outline depth rest
  | boolean e => e.outline linked depth rest
  | value v => v.outline depth rest
  | operator e => e.outline linked depth rest
  | primary e => e.outline depth rest
  | scalarArgument a => a.outline depth rest
  | fieldArgument a => a.outline depth rest
  | predicateCall c => c.name.outline depth (c.field.outline depth
      (c.args.foldr (FieldArgument.outline depth) rest))
  | timeSpan _ | number _ | string _ | truthValue _ => rest
  | constant c => c.outline depth rest
  | qualifiedName q => q.outline depth rest
  | identifier i => i.outline depth rest

/-- The names and constants of a phrase. -/
def tips (p : Phrase) : List Tip := (p.outline false 0 []).tips

/-- The entries of a phrase have its tips, at any depth and whatever follows them, be the phrase a
link of a chain or not. -/
def Told (p : Phrase) : Prop :=
  ∀ linked depth rest, (p.outline linked depth rest).tips = p.tips ++ rest.tips

/-- The entries of a phrase have the tips of the phrases right inside it. -/
def Unfolds (p : Phrase) : Prop :=
  ∀ linked depth rest, (p.outline linked depth rest).tips = p.children.flatMap tips ++ rest.tips

theorem Unfolds.tips_eq {p : Phrase} (h : p.Unfolds) : p.tips = p.children.flatMap tips := by
  simpa [tips] using h false 0 []

theorem Unfolds.told {p : Phrase} (h : p.Unfolds) : p.Told := fun linked depth rest => by
  rw [h, h.tips_eq]

theorem told_identifier (i : Identifier) : (identifier i).Told := fun _ _ _ => rfl

theorem told_constant (c : Constant) : (constant c).Told := fun _ _ _ => rfl

theorem tips_foldr {α : Type} (f : α → Outline → Outline) (phrase : α → Phrase) {as : List α}
    (h : ∀ a ∈ as, ∀ rest, (f a rest).tips = (phrase a).tips ++ rest.tips) (rest : Outline) :
    (as.foldr f rest).tips = (as.map phrase).flatMap tips ++ rest.tips := by
  induction as with
  | nil => rfl
  | cons a as ih =>
    rw [List.foldr_cons, h a (by simp), ih fun b hb => h b (by simp [hb]), List.map_cons,
      List.flatMap_cons, List.append_assoc]

end Phrase

/-! ## Parts of phrases -/

theorem BooleanExpr.outlines_eq (depth : Nat) (es : List BooleanExpr) (rest : Outline) :
    BooleanExpr.outlines depth es rest = es.foldr (BooleanExpr.outline false depth) rest := by
  induction es with
  | nil => simp [outlines]
  | cons e es ih => simp [outlines, ih]

theorem ValueExpr.outlines_eq (depth : Nat) (vs : List ValueExpr) (rest : Outline) :
    ValueExpr.outlines depth vs rest = vs.foldr (ValueExpr.outline depth) rest := by
  induction vs with
  | nil => simp [outlines]
  | cons v vs ih => simp [outlines, ih]

theorem ScalarArgument.outlines_eq (depth : Nat) (as : List ScalarArgument) (rest : Outline) :
    ScalarArgument.outlines depth as rest = as.foldr (ScalarArgument.outline depth) rest := by
  induction as with
  | nil => simp [outlines]
  | cons a as ih => simp [outlines, ih]

namespace Phrase

theorem unfolds_boolean {e : BooleanExpr} (h : ∀ q ∈ (boolean e).children, q.Told) :
    (boolean e).Unfolds := by
  intro linked depth rest
  simp only [children_eq, items, outline] at h ⊢
  cases e with
  | connective op left operator right =>
    simp [BooleanExpr.items, Told, outline] at h
    cases linked <;> simp [BooleanExpr.items, BooleanExpr.outline, Node.tip?, h]
  | isIn v negation values span =>
    simp [BooleanExpr.items, Told, outline] at h
    simp [BooleanExpr.items, BooleanExpr.outline, Node.tip?, h.1, ValueExpr.outlines_eq,
      tips_foldr _ value fun v hv => h.2 v hv (depth + 1)]
  | _ =>
    simp [BooleanExpr.items, Told, outline] at h
    simp [BooleanExpr.items, BooleanExpr.outline, Node.tip?, h]

theorem unfolds_value {v : ValueExpr} (h : ∀ q ∈ (value v).children, q.Told) :
    (value v).Unfolds := by
  intro linked depth rest
  simp only [children_eq, items, outline] at h ⊢
  cases v <;>
  · simp [ValueExpr.items, Told, outline] at h
    simp [ValueExpr.items, ValueExpr.outline, Node.tip?, h]

theorem unfolds_operator {e : OperatorExpr} (h : ∀ q ∈ (operator e).children, q.Told) :
    (operator e).Unfolds := by
  intro linked depth rest
  simp only [children_eq, items, outline] at h ⊢
  cases e with
  | aggregate name args span =>
    simp [OperatorExpr.items, Told, outline] at h
    simp [OperatorExpr.items, OperatorExpr.outline, Node.tip?, h.1,
      tips_foldr _ fieldArgument fun a ha => h.2 a ha (depth + 1)]
  | scalar name args span =>
    simp [OperatorExpr.items, Told, outline] at h
    simp [OperatorExpr.items, OperatorExpr.outline, Node.tip?, h.1, ScalarArgument.outlines_eq,
      tips_foldr _ scalarArgument fun a ha => h.2 a ha (depth + 1)]
  | binary op operator left right =>
    simp [OperatorExpr.items, Told, outline] at h
    cases linked <;> simp [OperatorExpr.items, OperatorExpr.outline, Node.tip?, h]
  | _ =>
    simp [OperatorExpr.items, Told, outline] at h
    simp [OperatorExpr.items, OperatorExpr.outline, Node.tip?, h]

theorem unfolds_primary {e : PrimaryExpr} (h : ∀ q ∈ (primary e).children, q.Told) :
    (primary e).Unfolds := by
  intro linked depth rest
  simp only [children_eq, items, outline] at h ⊢
  cases e with
  | call name args span =>
    simp [PrimaryExpr.items, Told, outline] at h
    simp [PrimaryExpr.items, PrimaryExpr.outline, Node.tip?, h.1, BooleanExpr.outlines_eq,
      tips_foldr _ boolean fun e he => (h.2 e he).1 (depth + 1)]
  | _ =>
    simp [PrimaryExpr.items, Told, outline] at h
    simp [PrimaryExpr.items, PrimaryExpr.outline, Node.tip?, h]

theorem unfolds_qualifiedName (q : QualifiedName) : (qualifiedName q).Unfolds := by
  intro linked depth rest
  simp [children_eq, items, outline, QualifiedName.outline, Node.tip?,
    tips_foldr (Identifier.outline (depth + 1)) identifier fun _ _ _ => rfl]

theorem unfolds_scalarArgument {a : ScalarArgument} (h : ∀ q ∈ (scalarArgument a).children, q.Told) :
    (scalarArgument a).Unfolds := by
  intro linked depth rest
  simp only [children_eq, items, outline] at h ⊢
  cases a <;>
  · simp [Told, outline] at h
    simp [ScalarArgument.outline, Node.tip?, h]

theorem unfolds_fieldArgument {a : FieldArgument} (h : ∀ q ∈ (fieldArgument a).children, q.Told) :
    (fieldArgument a).Unfolds := by
  intro linked depth rest
  simp only [children_eq, items, outline] at h ⊢
  cases a <;>
  · simp [Told, outline] at h
    simp [FieldArgument.outline, Node.tip?, h]

theorem unfolds_predicateCall {c : PredicateCall} (h : ∀ q ∈ (predicateCall c).children, q.Told) :
    (predicateCall c).Unfolds := by
  intro linked depth rest
  simp only [children_eq, items, outline] at h ⊢
  simp [Told, outline] at h
  simp [h.1, h.2.1, tips_foldr _ fieldArgument fun a ha => h.2.2 a ha depth]

theorem tips_name (name : Option Identifier) (depth : Nat) (rest : Outline) :
    (name.toList.foldr (Identifier.outline depth) rest).tips
      = (name.toList.map identifier).flatMap tips ++ rest.tips :=
  tips_foldr _ identifier (fun _ _ _ => rfl) rest

theorem unfolds_field {f : Field} (h : ∀ q ∈ (field f).children, q.Told) : (field f).Unfolds := by
  intro linked depth rest
  have he := h (boolean f.expression) (by simp [children_eq, items]) false (depth + 1) rest
  simp only [children_eq, items, outline, Field.outline] at he ⊢
  rw [Outline.tips_entry, tips_name, he]
  simp [Node.tip?]

theorem unfolds_renameClause {c : RenameClause} (h : ∀ q ∈ (renameClause c).children, q.Told) :
    (renameClause c).Unfolds := by
  intro linked depth rest
  simp only [children_eq, items, outline] at h ⊢
  simp [Told, outline] at h
  simp [RenameClause.outline, h]

theorem unfolds_commandOption {o : CommandOption} (h : ∀ q ∈ (commandOption o).children, q.Told) :
    (commandOption o).Unfolds := by
  intro linked depth rest
  simp only [children_eq, items, outline] at h ⊢
  simp [Told, outline] at h
  simp [CommandOption.outline, h]

theorem unfolds_sortKey {k : SortKey} (h : ∀ q ∈ (sortKey k).children, q.Told) :
    (sortKey k).Unfolds := by
  intro linked depth rest
  have he := h (boolean k.expression) (by simp [children_eq, items]) false depth rest
  simp only [children_eq, items, outline] at he ⊢
  rw [he]
  cases k.order <;> cases k.nulls <;> simp

theorem unfolds_enrichClause (c : EnrichClause) : (enrichClause c).Unfolds := by
  intro linked depth rest
  simp only [children_eq, items, outline, EnrichClause.outline]
  rw [tips_name]
  simp [show (c.field.outline depth rest).tips = (identifier c.field).tips ++ rest.tips from rfl]

/-! ## Commands -/

theorem tips_names (names : List QualifiedName) (depth : Nat) (rest : Outline) :
    (names.foldr (QualifiedName.outline depth) rest).tips
      = (names.map qualifiedName).flatMap tips ++ rest.tips :=
  tips_foldr _ qualifiedName (fun q _ => (unfolds_qualifiedName q).told false depth) rest

theorem tips_fields {fields : List Field} (h : ∀ f ∈ fields, (field f).Told) (depth : Nat)
    (rest : Outline) :
    (fields.foldr (Field.outline depth) rest).tips
      = (fields.map field).flatMap tips ++ rest.tips :=
  tips_foldr _ field (fun f hf => h f hf false depth) rest

theorem tips_clause {clause : ProcessingClause} {keyword : Token}
    (h : ∀ q ∈ Item.phrases (clause.items keyword), q.Told) (depth : Nat) (rest : Outline) :
    (clause.outline depth rest).tips
      = (Item.phrases (clause.items keyword)).flatMap tips ++ rest.tips := by
  cases clause with
  | eval fields =>
    simp [ProcessingClause.items] at h
    simp [ProcessingClause.items, ProcessingClause.outline, tips_fields h]
  | limit count => rfl
  | keep names | drop names | mvExpand names =>
    simp [ProcessingClause.items, ProcessingClause.outline, tips_names]
  | grok names pattern =>
    simp [ProcessingClause.items, ProcessingClause.outline, tips_names,
      show (string pattern).tips = [] from rfl]
  | rename clauses =>
    simp [ProcessingClause.items] at h
    simp [ProcessingClause.items, ProcessingClause.outline,
      tips_foldr (RenameClause.outline depth) renameClause fun c hc => h c hc false depth]
  | dissect names pattern options =>
    cases options with
    | none =>
      simp [ProcessingClause.items, ProcessingClause.outline, tips_names,
        show (string pattern).tips = [] from rfl]
    | some options =>
      have hoptions : ∀ o ∈ options, (commandOption o).Told := fun o ho =>
        h (commandOption o) (by simp [ProcessingClause.items, ho])
      simp [ProcessingClause.items, ProcessingClause.outline, tips_names,
        show (string pattern).tips = [] from rfl,
        tips_foldr (CommandOption.outline depth) commandOption fun o ho => hoptions o ho false depth]
  | sort keys =>
    simp [ProcessingClause.items] at h
    simp [ProcessingClause.items, ProcessingClause.outline,
      tips_foldr (fun key => key.expression.outline false depth) sortKey fun k hk =>
        h k hk false depth]
  | stats fields grouping =>
    have hfields : ∀ f ∈ fields.getD [], (field f).Told := fun f hf =>
      h (field f) (by cases fields <;> simp_all [ProcessingClause.items])
    cases fields <;> cases grouping <;>
      simp_all [ProcessingClause.items, ProcessingClause.outline, tips_names, tips_fields]
  | filter condition =>
    have hc := h (boolean condition) (by simp [ProcessingClause.items]) false depth rest
    simp only [outline] at hc
    simp [ProcessingClause.items, ProcessingClause.outline, hc]
  | enrich policy matchField clauses =>
    have hclauses (clauses : List EnrichClause) (rest : Outline) :
        (clauses.foldr (EnrichClause.outline depth) rest).tips
          = (clauses.map enrichClause).flatMap tips ++ rest.tips :=
      tips_foldr _ enrichClause (fun c _ => (unfolds_enrichClause c).told false depth) rest
    have hpolicy (rest : Outline) :
        (policy.outline depth rest).tips = (identifier policy).tips ++ rest.tips := rfl
    simp only [ProcessingClause.outline]
    rw [hpolicy, tips_name, hclauses]
    cases matchField <;> cases clauses <;> simp [ProcessingClause.items]

theorem unfolds_processingCommand {c : ProcessingCommand}
    (h : ∀ q ∈ (processingCommand c).children, q.Told) : (processingCommand c).Unfolds := by
  intro linked depth rest
  cases c with
  | error span => simp [children_eq, items, outline, ProcessingCommand.outline, Node.tip?]
  | command keyword clause span =>
    simp only [children_eq, items] at h
    simp [children_eq, items, outline, ProcessingCommand.outline, Node.tip?, tips_clause h]

theorem unfolds_sourceCommand {c : SourceCommand} (h : ∀ q ∈ (sourceCommand c).children, q.Told) :
    (sourceCommand c).Unfolds := by
  intro linked depth rest
  simp only [children_eq, outline] at h ⊢
  cases c with
  | error span => simp [items, SourceCommand.outline, Node.tip?]
  | command keyword clause span =>
    simp only [items] at h ⊢
    cases clause with
    | explain q =>
      have hq := h (query q) (by simp [SourceClause.items]) false (depth + 2) rest
      simp only [outline] at hq
      simp [SourceClause.items, SourceCommand.outline, SourceClause.outline, Node.tip?, hq]
    | indices names =>
      simp [SourceClause.items, SourceCommand.outline, SourceClause.outline, Node.tip?,
        tips_foldr (Identifier.outline (depth + 1)) identifier fun _ _ _ => rfl]
    | row fields =>
      simp [SourceClause.items] at h
      simp [SourceClause.items, SourceCommand.outline, SourceClause.outline, Node.tip?, tips_fields h]
    | listing target =>
      simp [SourceClause.items, SourceCommand.outline, SourceClause.outline, Node.tip?]

theorem unfolds_query {q : Query} (h : ∀ p ∈ (query q).children, p.Told) : (query q).Unfolds := by
  intro linked depth rest
  simp only [children_eq, items, outline] at h ⊢
  cases q <;>
  · simp [Told, outline] at h
    simp [Query.commandOutline, h]

/-! ## All phrases -/

/-- Whether a phrase is a name or a constant. -/
def isTip : Phrase → Bool
  | .identifier _ | .constant _ => true
  | _ => false

theorem unfolds_of_told {p : Phrase} (hp : p.isTip = false) (h : ∀ q ∈ p.children, q.Told) :
    p.Unfolds := by
  cases p with
  | query q => exact unfolds_query h
  | sourceCommand c => exact unfolds_sourceCommand h
  | processingCommand c => exact unfolds_processingCommand h
  | field f => exact unfolds_field h
  | renameClause c => exact unfolds_renameClause h
  | commandOption o => exact unfolds_commandOption h
  | sortKey k => exact unfolds_sortKey h
  | enrichClause c => exact unfolds_enrichClause c
  | boolean e => exact unfolds_boolean h
  | value v => exact unfolds_value h
  | operator e => exact unfolds_operator h
  | primary e => exact unfolds_primary h
  | scalarArgument a => exact unfolds_scalarArgument h
  | fieldArgument a => exact unfolds_fieldArgument h
  | predicateCall c => exact unfolds_predicateCall h
  | timeSpan t => exact fun _ _ _ => rfl
  | number n => exact fun _ _ _ => rfl
  | string l => exact fun _ _ _ => rfl
  | truthValue b => exact fun _ _ _ => rfl
  | qualifiedName q => exact unfolds_qualifiedName q
  | constant c => cases hp
  | identifier i => cases hp

theorem told (p : Phrase) : p.Told := by
  induction p using induction with
  | h p ih =>
    cases p with
    | identifier i => exact told_identifier i
    | constant c => exact told_constant c
    | _ => exact (unfolds_of_told rfl ih).told

/-- The tips of a phrase are those of the phrases right inside it, unless it is one itself. -/
theorem tips_eq_children {p : Phrase} (hp : p.isTip = false) : p.tips = p.children.flatMap tips :=
  (unfolds_of_told hp fun q _ => q.told).tips_eq

@[simp] theorem tips_identifier (i : Identifier) : (identifier i).tips = [.inl i] := rfl

@[simp] theorem tips_constant (c : Constant) : (constant c).tips = [.inr c] := rfl

/-- What a constant is made of has no tips of its own. -/
theorem tips_constant_children (c : Constant) : (constant c).children.flatMap tips = [] := by
  cases c <;> simp [children_eq, items, Constant.items, List.flatMap_eq_nil_iff] <;> intros <;> rfl

/-! ## Constants -/

/-- A phrase and all phrases below it, from the top down and from left to right. -/
def preorder (p : Phrase) : List Phrase := p :: p.children.attach.flatMap fun q => q.1.preorder
termination_by sizeOf p
decreasing_by exact sizeOf_child q.2

theorem preorder_eq (p : Phrase) : p.preorder = p :: p.children.flatMap preorder := by
  rw [preorder, List.flatMap_subtype (g := preorder) fun _ _ => rfl, List.unattach_attach]

theorem mem_preorder {p q : Phrase} : q ∈ p.preorder ↔ p.Below q := by
  constructor
  · induction p using induction with
    | h p ih =>
      rw [preorder_eq, List.mem_cons, List.mem_flatMap]
      rintro (rfl | ⟨r, hr, hq⟩)
      · exact .refl
      · exact .head hr (ih r hr hq)
  · intro h
    induction h using Relation.ReflTransGen.head_induction_on with
    | refl =>
      rw [preorder_eq]
      exact .head _
    | head hr _ ih =>
      rw [preorder_eq]
      exact .tail _ (List.mem_flatMap.2 ⟨_, hr, ih⟩)

/-- The constant that a phrase is. -/
def constant? : Phrase → Option Constant
  | .constant c => some c
  | _ => none

/-- The constants of a phrase are all those in the tree, in the same order. -/
theorem constants_tips (p : Phrase) :
    p.tips.filterMap Sum.getRight? = p.preorder.filterMap constant? := by
  induction p using induction with
  | h p ih =>
    have hchildren : (p.children.flatMap tips).filterMap Sum.getRight?
        = (p.children.flatMap preorder).filterMap constant? := by
      rw [List.filterMap_flatMap, List.filterMap_flatMap]
      exact List.flatMap_congr ih
    rw [preorder_eq]
    cases p with
    | identifier i => rfl
    | constant c =>
      rw [tips_constant_children] at hchildren
      rw [List.filterMap_cons_some (show constant? (.constant c) = some c from rfl), ← hchildren]
      rfl
    | _ =>
      rw [tips_eq_children rfl]
      exact hchildren

end Phrase

theorem Statement.tips_outline (s : Statement) : s.outline.tips = (Phrase.query s.query).tips := by
  have h := (Phrase.query s.query).told false 2 []
  simp only [Phrase.outline, Outline.tips_nil, List.append_nil] at h
  simp [Statement.outline, Node.tip?, h]

end PipeQuery
