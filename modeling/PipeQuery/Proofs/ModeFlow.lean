import PipeQuery.Lexer.Mode
import PipeQuery.Proofs.RepairedQuery
import PipeQuery.Proofs.Respelled

/-!
# Modes along a derivation

A token of a kind is read in some modes only (`Kind.modes`), and the frames behind it depend on its
kind alone (`Frames.behind`). `Frames.Admits` says of a stretch of tokens that each of them is met in
one of its modes, and what holds of the frames behind the last one.

What the grammar derives is such a stretch, whichever tokens it is made of: `Item.Wp` is the weakest
condition on the frames in front of some items, and each kind of phrase meets it by itself
(`Phrase.wp_items`). So every query is admitted from the start of a stage on (`Yields.admits_query`).
-/

namespace PipeQuery

open Lexer

/-- The modes in which tokens of a kind are read. -/
def Kind.modes : Kind → List Mode
  | pipe | rightBracket => [.command, .explain, .expression, .source, .enrich]
  | comma => [.expression, .source, .enrich]
  | assign => [.expression, .enrich]
  | leftBracket => [.explain, .expression]
  | sourceIdentifier | quotedSourceIdentifier => [.source]
  | enrichIdentifier | quotedEnrichIdentifier | kwOn | kwWith => [.enrich]
  | kwDissect | kwGrok | kwEval | kwExplain | kwFrom | kwRow | kwStats | kwWhere | kwSort | kwLimit
  | kwKeep | kwProject | kwDrop | kwRename | kwShow | kwEnrich | kwMvExpand => [.command]
  | _ => [.expression]

/-- In every mode a stage or a query may end. -/
theorem Lexer.Mode.mem_modes (m : Mode) : m ∈ Kind.pipe.modes ∧ m ∈ Kind.rightBracket.modes := by
  cases m <;> decide

/-- A token of the kind is no leaf of the tree, it is read in the mode, and it does not change it. -/
def Kind.Stable (k : Kind) (m : Mode) : Prop :=
  k.isLeaf = false ∧ k ≠ .leftBracket ∧ .command ∉ k.modes ∧ m ∈ k.modes

instance (k : Kind) (m : Mode) : Decidable (k.Stable m) := inferInstanceAs (Decidable (_ ∧ _))

namespace Lexer.Frames

variable {fs fs' : Frames} {m : Mode} {k : Kind}

/-- The frames behind a token of a kind. -/
def behind (fs : Frames) : Kind → Frames
  | .pipe => fs.setMode .command
  | .leftBracket => fs.openBracket
  | .rightBracket => fs.closeBracket
  | k => if .command ∈ k.modes then fs.setMode (.after k) else fs

@[simp] theorem mode_setMode : (fs.setMode m).current.mode = m := rfl

theorem setMode_eq_self (h : fs.current.mode = m) : fs.setMode m = fs := h ▸ rfl

/-- Only at the start of a stage, and at its brackets, a token changes the frames. -/
theorem behind_eq (hk : k ≠ .leftBracket) (h : .command ∉ k.modes) : fs.behind k = fs := by
  cases k <;> simp_all [behind, Kind.modes]

/-- The token of a leaf leaves the frames alone. -/
theorem behind_of_isLeaf (h : k.isLeaf = true) : fs.behind k = fs := by
  have hk : k ≠ .leftBracket ∧ .command ∉ k.modes := by
    revert h
    cases k <;> decide
  exact behind_eq hk.1 hk.2

/-- Behind the word of a command its mode begins. -/
theorem behind_keyword (hk : k ≠ .pipe) (hk' : k ≠ .rightBracket) (h : .command ∈ k.modes) :
    fs.behind k = fs.setMode (.after k) := by
  cases k <;> simp_all [behind, Kind.modes]

theorem mode_openBracket (h : fs.current.mode ≠ .explain) :
    fs.openBracket.current.mode = fs.current.mode := by
  rw [openBracket, if_neg h]

/-- A bracket that opens a list is closed again. -/
theorem closeBracket_openBracket (h : fs.current.mode ≠ .explain) :
    fs.openBracket.closeBracket = fs := by
  rw [openBracket, if_neg h, closeBracket, if_pos (Nat.succ_pos _)]
  rfl

/-- A bracket behind `EXPLAIN` opens a query, and closes it again in whichever mode it ends. -/
theorem closeBracket_setMode_openBracket (h : fs.current.mode = .explain) :
    ((fs.openBracket).setMode m).closeBracket = fs.setMode .expression := by
  rw [openBracket, if_pos h]
  rfl

/-- Each token of a stretch is met in a mode in which tokens of its kind are read, and none of them
is a leaf that was taken for granted. -/
def Admits (Q : Frames → Prop) : Frames → List Placed → Prop
  | fs, [] => Q fs
  | fs, x :: xs =>
    fs.current.mode ∈ x.1.kind.modes ∧ (x.1.kind.isLeaf = true → ¬ IsPlaceholder x.1.text) ∧
      Admits Q (fs.behind x.1.kind) xs

theorem Admits.mono {Q R : Frames → Prop} {xs : List Placed} (h : fs.Admits Q xs)
    (hQR : ∀ fs, Q fs → R fs) : fs.Admits R xs := by
  induction xs generalizing fs with
  | nil => exact hQR fs h
  | cons x xs ih => exact ⟨h.1, h.2.1, ih h.2.2⟩

theorem Admits.append {Q : Frames → Prop} {xs ys : List Placed}
    (h : fs.Admits (fun fs' => fs'.Admits Q ys) xs) : fs.Admits Q (xs ++ ys) := by
  induction xs generalizing fs with
  | nil => exact h
  | cons x xs ih => exact ⟨h.1, h.2.1, ih h.2.2⟩

end Lexer.Frames

open Lexer.Frames

variable {fs fs' : Frames} {k : Kind} {p : Phrase} {items rest : List Item} {filters : Bool}
  {Q : Frames → Prop}

/-! ## Phrases -/

namespace Phrase

/-- The frames in front of a phrase: commands stand at the start of a stage, and all that is neither
an index pattern nor a part of `ENRICH` is an expression. -/
def Starts (fs : Frames) : Phrase → Prop
  | query _ | sourceCommand _ | processingCommand _ => fs.current = ⟨.command, 0⟩
  | enrichClause _ => fs.current.mode = .enrich
  | identifier i => fs.current.mode ∈ i.kind.modes
  | _ => fs.current.mode = .expression

/-- The frames behind a phrase: a command ends in any mode, and all else leaves the frames alone. -/
def Leads (fs fs' : Frames) : Phrase → Prop
  | query _ | sourceCommand _ | processingCommand _ => ∃ m, fs' = fs.setMode m
  | _ => fs' = fs

end Phrase

/-- The weakest condition on the frames in front of some items, so that the tokens of the items are
met in their modes and `Q` holds of the frames behind them. -/
def Item.Wp (Q : Frames → Prop) : List Item → Frames → Prop
  | [], fs => Q fs
  | .terminal t :: items, fs => ∀ k ∈ t.kinds,
    k.isLeaf = false ∧ fs.current.mode ∈ k.modes ∧ Item.Wp Q items (fs.behind k)
  | .phrase _ p :: items, fs => p.Starts fs ∧ ∀ fs', p.Leads fs fs' → Item.Wp Q items fs'

namespace Item

variable {t : Terminal} {n : Nesting} {m : Mode}

theorem wp_terminal : Wp Q (.terminal t :: rest) fs ↔ ∀ k ∈ t.kinds,
    k.isLeaf = false ∧ fs.current.mode ∈ k.modes ∧ Wp Q rest (fs.behind k) := Iff.rfl

/-- A token that leaves the frames alone. -/
theorem wp_stable (ht : t.kinds = [k]) (hm : fs.current.mode = m) (hk : k.Stable m)
    (h : Wp Q rest fs) : Wp Q (.terminal t :: rest) fs := by
  rw [wp_terminal, ht, List.forall_mem_singleton]
  obtain ⟨hleaf, hne, hcommand, hmode⟩ := hk
  rw [behind_eq hne hcommand, hm]
  exact ⟨hleaf, hmode, h⟩

/-- Phrases that leave the frames alone, with separators between them. -/
theorem wp_separated {α : Type} {f : α → Phrase} {as : List α} (hm : fs.current.mode = m)
    (hk : k.Stable m) (has : ∀ a ∈ as, (f a).Starts fs ∧ ∀ fs', (f a).Leads fs fs' → fs' = fs)
    (h : Wp Q rest fs) : Wp Q (separated k (as.map fun a => .phrase n (f a)) ++ rest) fs := by
  cases as with
  | nil => exact h
  | cons a as =>
    obtain ⟨hstarts, hleads⟩ := has a (List.mem_cons_self ..)
    refine ⟨hstarts, fun fs' hfs' => ?_⟩
    obtain rfl := hleads fs' hfs'
    have hrest := fun b hb => has b (List.mem_cons_of_mem a hb)
    clear has hstarts hleads hfs'
    induction as with
    | nil => exact h
    | cons b as ih =>
      obtain ⟨hstarts, hleads⟩ := hrest b (List.mem_cons_self ..)
      refine wp_stable rfl hm hk ⟨hstarts, fun fs' hfs' => ?_⟩
      obtain rfl := hleads fs' hfs'
      exact ih fun c hc => hrest c (List.mem_cons_of_mem b hc)

theorem wp_list {α : Type} {f : α → Phrase} {as : List α} (hm : fs.current.mode = m)
    (hk : Kind.comma.Stable m)
    (has : ∀ a ∈ as, (f a).Starts fs ∧ ∀ fs', (f a).Leads fs fs' → fs' = fs) (h : Q fs) :
    Wp Q (list f as) fs := by
  rw [← List.append_nil (list f as)]
  exact wp_separated hm hk has h

/-- Constants in brackets. -/
theorem wp_brackets {α : Type} {f : α → Phrase} {as : List α} (hm : fs.current.mode = .expression)
    (has : ∀ a fs', fs'.current.mode = .expression →
      (f a).Starts fs' ∧ ∀ fs'', (f a).Leads fs' fs'' → fs'' = fs') (h : Q fs) :
    Wp Q (.kind .leftBracket :: (list f as ++ [.kind .rightBracket])) fs := by
  have hexplain : fs.current.mode ≠ .explain := by simp [hm]
  refine List.forall_mem_singleton.2 ⟨rfl, by rw [hm]; decide, ?_⟩
  have hopen : fs.openBracket.current.mode = .expression := (mode_openBracket hexplain).trans hm
  refine wp_separated hopen (by decide) (fun a _ => has a _ hopen) (List.forall_mem_singleton.2 ?_)
  change _ ∧ fs.openBracket.current.mode ∈ _ ∧ Q fs.openBracket.closeBracket
  rw [hopen, closeBracket_openBracket hexplain]
  exact ⟨rfl, by decide, h⟩

/-- A function and its arguments. -/
theorem wp_call {α : Type} {f : α → Phrase} {as : List α} {name : Identifier}
    (hm : fs.current.mode = .expression) (hname : .expression ∈ name.kind.modes)
    (has : ∀ a ∈ as, (f a).Starts fs ∧ ∀ fs', (f a).Leads fs fs' → fs' = fs)
    (h : Q fs) : Wp Q (call name (as.map fun a => .phrase n (f a))) fs := by
  refine ⟨(hm ▸ hname : fs.current.mode ∈ name.kind.modes), ?_⟩
  rintro fs' rfl
  refine wp_stable rfl hm (by decide) (wp_separated hm (by decide) has ?_)
  exact wp_stable rfl hm (by decide) h

/-- A new name in front, if there is one. -/
theorem wp_assigned {name : Option Identifier} (hm : fs.current.mode = m)
    (hname : ∀ i ∈ name, m ∈ i.kind.modes) (hassign : Kind.assign.Stable m) (h : Wp Q rest fs) :
    Wp Q (assigned name ++ rest) fs := by
  cases name with
  | none => exact h
  | some i =>
    refine ⟨(hm ▸ hname i rfl : fs.current.mode ∈ i.kind.modes), ?_⟩
    rintro fs' rfl
    exact wp_stable rfl hm hassign h

/-- An optional part. -/
theorem wp_option {α : Type} {o : Option α} {f : α → List Item} (h : Wp Q rest fs)
    (hf : ∀ a ∈ o, Wp Q (f a ++ rest) fs) : Wp Q (o.elim [] f ++ rest) fs := by
  cases o with
  | none => exact h
  | some a => exact hf a rfl

/-- An optional part at the end. -/
theorem wp_last {α : Type} {o : Option α} {f : α → List Item} (h : Q fs)
    (hf : ∀ a ∈ o, Wp Q (f a) fs) : Wp Q (o.elim [] f) fs := by
  cases o with
  | none => exact h
  | some a => exact hf a rfl

/-- The word of a command. -/
theorem wp_keyword (hs : fs.current.mode = .command)
    (ht : ∀ k ∈ t.kinds, k.isLeaf = false ∧ k.modes = [.command] ∧ Mode.after k = m)
    (h : Wp Q rest (fs.setMode m)) : Wp Q (.terminal t :: rest) fs := by
  intro k hk
  obtain ⟨hleaf, hmodes, rfl⟩ := ht k hk
  have hbehind : fs.behind k = fs.setMode (.after k) := by
    refine behind_keyword ?_ ?_ (hmodes ▸ List.mem_singleton_self _) <;>
      · rintro rfl
        exact absurd hmodes (by decide)
  rw [hbehind, hmodes, hs]
  exact ⟨hleaf, List.mem_singleton_self _, h⟩

end Item

/-- Names of expressions are read in expressions. -/
theorem Identifier.IsPlain.mem_modes {i : Identifier} (h : i.IsPlain) :
    .expression ∈ i.kind.modes := by
  have h : i.kind = .identifier ∨ i.kind = .quotedIdentifier := by simpa [IsPlain] using h
  obtain h | h := h <;> rw [h] <;> decide

theorem Identifier.IsSource.mem_modes {i : Identifier} (h : i.IsSource) : .source ∈ i.kind.modes := by
  have h : i.kind = .sourceIdentifier ∨ i.kind = .quotedSourceIdentifier := by
    simpa [IsSource] using h
  obtain h | h := h <;> rw [h] <;> decide

theorem Identifier.IsEnrich.mem_modes {i : Identifier} (h : i.IsEnrich) : .enrich ∈ i.kind.modes := by
  have h : i.kind = .enrichIdentifier ∨ i.kind = .quotedEnrichIdentifier := by
    simpa [IsEnrich] using h
  obtain h | h := h <;> rw [h] <;> decide

/-! ## What phrases ask of the frames -/

theorem Constant.wp {c : Constant} (hm : fs.current.mode = .expression) :
    Item.Wp (· = fs) c.items fs := by
  cases c with
  | null => exact Item.wp_stable rfl hm (by decide) rfl
  | numeric | boolean | string => exact ⟨hm, fun _ h => h⟩
  | numericArray | booleanArray | stringArray =>
    exact Item.wp_brackets hm (fun _ _ hm => ⟨hm, fun _ h => h⟩) rfl

theorem PrimaryExpr.wp {e : PrimaryExpr} (he : e.Admissible) (hm : fs.current.mode = .expression) :
    Item.Wp (· = fs) e.items fs := by
  cases e with
  | constant | field => exact ⟨hm, fun _ h => h⟩
  | group =>
    refine Item.wp_stable rfl hm (by decide) ⟨hm, ?_⟩
    rintro fs' rfl
    exact Item.wp_stable rfl hm (by decide) rfl
  | call name =>
    exact Item.wp_call hm (Identifier.IsPlain.mem_modes he) (fun _ _ => ⟨hm, fun _ h => h⟩) rfl

theorem OperatorExpr.wp {e : OperatorExpr} (he : e.Admissible) (hm : fs.current.mode = .expression) :
    Item.Wp (· = fs) e.items fs := by
  cases e with
  | primary => exact ⟨hm, fun _ h => h⟩
  | aggregate name | scalar name =>
    have hname : .expression ∈ name.kind.modes := by
      rw [show name.kind = _ from he]
      decide
    exact Item.wp_call hm hname (fun _ _ => ⟨hm, fun _ h => h⟩) rfl
  | signed sign => exact Item.wp_stable rfl hm (by cases sign <;> decide) ⟨hm, fun _ h => h⟩
  | binary op =>
    refine ⟨hm, ?_⟩
    rintro fs' rfl
    exact Item.wp_stable rfl hm (by cases op <;> decide) ⟨hm, fun _ h => h⟩

theorem ValueExpr.wp {e : ValueExpr} (hm : fs.current.mode = .expression) :
    Item.Wp (· = fs) e.items fs := by
  cases e with
  | operator => exact ⟨hm, fun _ h => h⟩
  | comparison =>
    refine ⟨hm, ?_⟩
    rintro fs' rfl
    exact Item.wp_stable rfl hm (by decide) ⟨hm, fun _ h => h⟩

theorem Item.wp_negation {negation : Option Token} (hm : fs.current.mode = .expression)
    (h : Item.Wp Q rest fs) : Item.Wp Q (Item.negation negation ++ rest) fs :=
  Item.wp_option h fun _ _ => Item.wp_stable rfl hm (by decide) h

theorem BooleanExpr.wp {e : BooleanExpr} (hm : fs.current.mode = .expression) :
    Item.Wp (· = fs) e.items fs := by
  cases e with
  | not => exact Item.wp_stable rfl hm (by decide) ⟨hm, fun _ h => h⟩
  | value | predicate => exact ⟨hm, fun _ h => h⟩
  | connective op =>
    refine ⟨hm, ?_⟩
    rintro fs' rfl
    exact Item.wp_stable rfl hm (by cases op <;> decide) ⟨hm, fun _ h => h⟩
  | isIn =>
    refine ⟨hm, ?_⟩
    rintro fs' rfl
    refine Item.wp_negation hm (Item.wp_stable rfl hm (by decide) (Item.wp_stable rfl hm
      (by decide) ?_))
    exact Item.wp_separated hm (by decide) (fun _ _ => ⟨hm, fun _ h => h⟩)
      (Item.wp_stable rfl hm (by decide) rfl)
  | isMatch _ _ pattern =>
    refine ⟨hm, ?_⟩
    rintro fs' rfl
    exact Item.wp_negation hm
      (Item.wp_stable rfl hm (by cases pattern <;> decide) ⟨hm, fun _ h => h⟩)

theorem SortKey.wp {k : SortKey} (hm : fs.current.mode = .expression) :
    Item.Wp (· = fs) (Phrase.sortKey k).items fs := by
  refine ⟨hm, ?_⟩
  rintro fs' rfl
  have hnulls : Item.Wp (· = fs')
      (k.nulls.elim [] fun nulls => [.kind .kwNulls, .terminal (.nulls nulls)]) fs' :=
    Item.wp_last rfl fun _ _ =>
      Item.wp_stable rfl hm (by decide) (Item.wp_stable rfl hm (by decide) rfl)
  exact Item.wp_option hnulls fun _ _ => Item.wp_stable rfl hm (by decide) hnulls

theorem EnrichClause.wp {c : EnrichClause} (hc : (∀ name ∈ c.newName, name.IsEnrich) ∧ c.field.IsEnrich)
    (hm : fs.current.mode = .enrich) : Item.Wp (· = fs) (Phrase.enrichClause c).items fs := by
  have hfield : fs.current.mode ∈ c.field.kind.modes := hm ▸ hc.2.mem_modes
  exact Item.wp_assigned hm (fun i hi => (hc.1 i hi).mem_modes) (by decide) ⟨hfield, fun _ h => h⟩

/-- A processing command leads from the start of a stage to a mode of its own. -/
theorem ProcessingClause.wp {clause : ProcessingClause} {keyword : Token} (hc : clause.Admissible)
    (hs : fs.current.mode = .command) :
    Item.Wp (fun fs' => ∃ m, fs' = fs.setMode m) (clause.items keyword) fs := by
  have hcomma : Kind.comma.Stable .expression := by decide
  have hlist {α : Type} {f : α → Phrase} {as : List α}
      (has : ∀ a ∈ as, (f a).Starts (fs.setMode .expression) ∧
        ∀ fs', (f a).Leads (fs.setMode .expression) fs' → fs' = fs.setMode .expression) :
      Item.Wp (fun fs' => ∃ m, fs' = fs.setMode m) (Item.list f as) (fs.setMode .expression) :=
    Item.wp_list rfl hcomma has ⟨_, rfl⟩
  cases clause with
  | eval | rename | sort | drop | mvExpand | keep =>
    exact Item.wp_keyword hs (by simp [Terminal.kinds]; decide)
      (hlist fun _ _ => ⟨rfl, fun _ h => h⟩)
  | limit | filter =>
    exact Item.wp_keyword hs (by simp [Terminal.kinds]; decide) ⟨rfl, fun _ h => ⟨_, h⟩⟩
  | dissect =>
    refine Item.wp_keyword hs (by simp [Terminal.kinds]; decide)
      (Item.wp_separated rfl hcomma (fun _ _ => ⟨rfl, fun _ h => h⟩) ⟨rfl, ?_⟩)
    rintro fs' rfl
    exact Item.wp_last ⟨_, rfl⟩ fun _ _ => hlist fun _ _ => ⟨rfl, fun _ h => h⟩
  | grok =>
    exact Item.wp_keyword hs (by simp [Terminal.kinds]; decide)
      (Item.wp_separated rfl hcomma (fun _ _ => ⟨rfl, fun _ h => h⟩) ⟨rfl, fun _ h => ⟨_, h⟩⟩)
  | stats fields grouping =>
    have hgrouping : Item.Wp (fun fs' => ∃ m, fs' = fs.setMode m)
        (grouping.elim [] fun names => .kind .kwBy :: Item.list .qualifiedName names)
        (fs.setMode .expression) :=
      Item.wp_last ⟨_, rfl⟩ fun _ _ => Item.wp_stable rfl mode_setMode (by decide)
        (hlist fun _ _ => ⟨rfl, fun _ h => h⟩)
    refine Item.wp_keyword hs (by simp [Terminal.kinds]; decide) (Item.wp_option hgrouping ?_)
    exact fun _ _ => Item.wp_separated rfl hcomma (fun _ _ => ⟨rfl, fun _ h => h⟩) hgrouping
  | enrich policy matchField clauses =>
    obtain ⟨hpolicy, hfield, -⟩ := hc
    have hclauses : Item.Wp (fun fs' => ∃ m, fs' = fs.setMode m)
        (clauses.elim [] fun clauses => .kind .kwWith :: Item.list .enrichClause clauses)
        (fs.setMode .enrich) :=
      Item.wp_last ⟨_, rfl⟩ fun _ _ => Item.wp_stable rfl mode_setMode (by decide)
        (Item.wp_list mode_setMode (by decide) (fun _ _ => ⟨rfl, fun _ h => h⟩) ⟨_, rfl⟩)
    refine Item.wp_keyword hs (by simp [Terminal.kinds]; decide) ⟨hpolicy.mem_modes, ?_⟩
    rintro fs' rfl
    refine Item.wp_option hclauses fun name hmem => Item.wp_stable rfl mode_setMode (by decide) ?_
    refine ⟨(hfield name hmem).mem_modes, ?_⟩
    rintro fs' rfl
    exact hclauses

/-- So does a source command. A query in brackets ends with its frame. -/
theorem SourceClause.wp {clause : SourceClause} {keyword : Token} (hc : clause.Admissible)
    (hs : fs.current = ⟨.command, 0⟩) :
    Item.Wp (fun fs' => ∃ m, fs' = fs.setMode m) (clause.items keyword) fs := by
  have hcommand : fs.current.mode = .command := by rw [hs]
  cases clause with
  | explain =>
    refine Item.wp_keyword (m := .explain) hcommand (by simp [Terminal.kinds]; decide) ?_
    have hopen : (fs.setMode .explain).current.mode ∈ Kind.leftBracket.modes :=
      List.mem_cons_self ..
    refine List.forall_mem_singleton.2 ⟨rfl, hopen, rfl, ?_⟩
    rintro fs' ⟨m, rfl⟩
    refine List.forall_mem_singleton.2 ⟨rfl, m.mem_modes.2, .expression, ?_⟩
    exact closeBracket_setMode_openBracket mode_setMode
  | indices names =>
    exact Item.wp_keyword hcommand (by simp [Terminal.kinds]; decide)
      (Item.wp_list mode_setMode (by decide)
        (fun i hi => ⟨Identifier.IsSource.mem_modes (hc.2 i hi), fun _ h => h⟩) ⟨.source, rfl⟩)
  | row =>
    exact Item.wp_keyword hcommand (by simp [Terminal.kinds]; decide)
      (Item.wp_list mode_setMode (by decide) (fun _ _ => ⟨rfl, fun _ h => h⟩) ⟨.expression, rfl⟩)
  | listing target =>
    exact Item.wp_keyword hcommand (by simp [Terminal.kinds]; decide)
      (Item.wp_stable rfl mode_setMode (by cases target <;> decide) ⟨.expression, rfl⟩)

/-- Where a phrase may stand, its tokens are met in their modes. -/
theorem Phrase.wp_items (hp : p.Admissible filters) (hleaf : p.leaf? = none) (hs : p.Starts fs) :
    Item.Wp (p.Leads fs) p.items fs := by
  cases p with
  | query q =>
    cases q with
    | source => exact ⟨hs, fun _ h => h⟩
    | pipe =>
      refine ⟨hs, ?_⟩
      rintro fs' ⟨m, rfl⟩
      refine List.forall_mem_singleton.2 ⟨rfl, m.mem_modes.1, ?_⟩
      have hback : (fs.setMode m).behind .pipe = fs := setMode_eq_self (congrArg Frame.mode hs)
      rw [hback]
      exact ⟨hs, fun _ h => h⟩
  | sourceCommand command =>
    cases command with
    | command keyword clause => exact SourceClause.wp hp hs
    | error => exact absurd hp (by simp [Admissible])
  | processingCommand command =>
    cases command with
    | command keyword clause => exact ProcessingClause.wp hp (by rw [show fs.current = _ from hs])
    | error => exact absurd hp (by simp [Admissible])
  | field f =>
    exact Item.wp_assigned hs (fun i hi => (hp i hi).mem_modes) (by decide) ⟨hs, fun _ h => h⟩
  | renameClause c =>
    have hname : ∀ i ∈ some c.newName, Mode.expression ∈ i.kind.modes := by
      simpa using Identifier.IsPlain.mem_modes hp
    exact Item.wp_assigned hs hname (by decide) ⟨hs, fun _ h => h⟩
  | commandOption o =>
    have hname : ∀ i ∈ some o.name, Mode.expression ∈ i.kind.modes := by
      simpa using Identifier.IsPlain.mem_modes hp
    exact Item.wp_assigned hs hname (by decide) ⟨hs, fun _ h => h⟩
  | sortKey k => exact SortKey.wp hs
  | enrichClause c => exact EnrichClause.wp hp hs
  | boolean e => exact BooleanExpr.wp hs
  | value v => exact ValueExpr.wp hs
  | operator e => exact OperatorExpr.wp hp hs
  | primary e => exact PrimaryExpr.wp hp hs
  | scalarArgument a => cases a <;> exact ⟨hs, fun _ h => h⟩
  | fieldArgument a => cases a <;> exact ⟨hs, fun _ h => h⟩
  | predicateCall c =>
    have hname : .expression ∈ c.name.kind.modes := by
      rw [show c.name.kind = _ from hp]
      decide
    have hitems : (predicateCall c).items = Item.call c.name
        ((qualifiedName c.field :: c.args.map fieldArgument).map fun p => .phrase .same p) := by
      simp [items, Function.comp_def]
    rw [hitems]
    refine Item.wp_call hs hname (fun q hq => ?_) rfl
    rcases List.mem_cons.1 hq with rfl | hq
    · exact ⟨hs, fun _ h => h⟩
    · obtain ⟨a, -, rfl⟩ := List.mem_map.1 hq
      exact ⟨hs, fun _ h => h⟩
  | timeSpan t =>
    refine ⟨hs, ?_⟩
    rintro fs' rfl
    exact Item.wp_stable rfl hs (by decide) rfl
  | constant c => exact Constant.wp hs
  | truthValue b => exact Item.wp_stable rfl hs (by decide) rfl
  | qualifiedName q =>
    change Item.Wp _ (Item.separated .dot _) fs
    rw [← List.append_nil (Item.separated .dot _)]
    refine Item.wp_separated hs (by decide) (fun i hi => ⟨?_, fun _ h => h⟩) rfl
    change fs.current.mode ∈ i.kind.modes
    rw [show fs.current.mode = _ from hs]
    exact (hp.2 i hi).mem_modes
  | number | string | identifier => cases hleaf

/-! ## Derivations -/

variable {exact : Bool} {c : Context} {ps : List Placed}

/-- A leaf is a single token. Where it may stand, it is met in its mode. -/
theorem Phrase.of_leaf {k : Kind} {text : String} (h : p.leaf? = some (k, text))
    (hp : p.Admissible filters) (hs : p.Starts fs) :
    p.items = [.terminal (.spelling k text)] ∧ k.isLeaf = true ∧ fs.current.mode ∈ k.modes ∧
      p.Leads fs fs := by
  cases p with
  | number n =>
    obtain ⟨rfl, rfl⟩ := Prod.mk.inj (Option.some.inj h)
    have hs : fs.current.mode = .expression := hs
    rw [hs]
    exact ⟨rfl, by cases n.kind <;> rfl, by cases n.kind <;> decide, rfl⟩
  | string s =>
    obtain ⟨rfl, rfl⟩ := Prod.mk.inj (Option.some.inj h)
    have hs : fs.current.mode = .expression := hs
    rw [hs]
    exact ⟨rfl, rfl, by decide, rfl⟩
  | identifier i =>
    obtain ⟨rfl, rfl⟩ := Prod.mk.inj (Option.some.inj h)
    exact ⟨rfl, Kind.isLeaf_of_isName hp.1, hs, rfl⟩
  | _ => cases h

/-- What the grammar derives is met in its modes, where no leaf is missing. -/
theorem Yields.admits (h : Yields id exact c items ps)
    (hintact : ∀ n p, .phrase n p ∈ items → p.Intact) (hw : Item.Wp Q items fs) :
    fs.Admits Q ps := by
  induction h generalizing Q fs with
  | nil => exact hw
  | terminal token rest ih =>
    obtain ⟨hleaf, hmode, hw⟩ := hw _ token.kind_mem
    refine ⟨hmode, fun h => absurd h (by simp [hleaf]), ih (fun n p hp => ?_) hw⟩
    exact hintact n p (List.mem_cons_of_mem _ hp)
  | @phrase c d nesting p items ps qs inside admissible parts span rest ihp ih =>
    obtain ⟨hstarts, hw⟩ := hw
    have hp : p.Intact := hintact nesting p (List.mem_cons_self ..)
    have hrest (fs' : Frames) (hfs' : p.Leads fs fs') : fs'.Admits Q qs :=
      ih (fun n q hq => hintact n q (List.mem_cons_of_mem _ hq)) (hw fs' hfs')
    refine Frames.Admits.append ?_
    cases hleaf : p.leaf? with
    | none =>
      refine (ihp (fun n q hq => ?_) (Phrase.wp_items admissible hleaf hstarts)).mono hrest
      exact hp.child (Phrase.mem_children.2 ⟨n, hq⟩)
    | some leaf =>
      obtain ⟨hitems, hk, hmode, hleads⟩ := Phrase.of_leaf hleaf admissible hstarts
      rw [hitems] at parts
      obtain ⟨x, rfl, hx, htext⟩ := Yields.singleton_terminal_iff.1 parts
      refine ⟨hx ▸ hmode, fun _ => htext ▸ (hp p .refl).2 _ hleaf, ?_⟩
      rw [hx, behind_of_isLeaf hk]
      exact hrest fs hleads

/-- A whole query is met in its modes from the start of a stage on. -/
theorem Yields.admits_query {q : Query} (h : Yields id exact c [.same (.query q)] ps)
    (hq : (Phrase.query q).Intact) : (Frames.start .command).Admits (fun _ => True) ps :=
  h.admits (by simpa using hq) ⟨rfl, fun _ _ => trivial⟩

end PipeQuery
