import PipeQuery.Proofs.CompleteCondition
import PipeQuery.Proofs.SoundQuery

/-!
# Completeness of queries

Commands and pipelines that the grammar derives are read, up to the whole statement:
`reads_statement`. A command ends in front of a pipe or where its query ends, and no rule of a
clause goes on there.
-/

namespace PipeQuery.Grammar

open Rule State

variable {α β γ : Type} {ρ : Token → Token} {exact : Bool} {c : Context} {scope : Scope}
  {ps : List Placed} {follow mid : Kind → Prop}

/-- A kind that ends a command. -/
def EndsCommand (k : Kind) : Prop := k = .pipe ∨ k = .endOfInput ∨ k = .rightBracket

/-- What holds of the three kinds holds wherever a command ends. -/
theorem EndsCommand.elim {P : Kind → Prop} (hpipe : P .pipe) (hend : P .endOfInput)
    (hbracket : P .rightBracket) (k : Kind) (h : EndsCommand k) : P k := by
  obtain rfl | rfl | rfl := h
  · exact hpipe
  · exact hend
  · exact hbracket

/-! ## Optional parts -/

/-- An optional part begins with its word, or there is only what follows. -/
theorem front_option {f : α → List Item} {o : Option α} {P : Kind → Prop}
    (h : Yields ρ exact c (o.elim [] f) ps)
    (hf : ∀ a qs, Yields ρ exact c (f a) qs → qs ≠ [] ∧ P (frontKind qs)) {rest : List Placed}
    (hrest : P (frontKind rest)) : P (frontKind (ps ++ rest)) := by
  cases o with
  | none =>
    obtain rfl := Yields.nil_iff.1 h
    exact hrest
  | some a =>
    obtain ⟨hps, hk⟩ := hf a ps h
    rwa [frontKind_append hps]

theorem front_kind {kind : Kind} {items : List Item} {P : Kind → Prop} (hP : P kind)
    (h : Yields ρ exact c (.kind kind :: items) ps) : ps ≠ [] ∧ P (frontKind ps) := by
  obtain ⟨x, qs, rfl, hx, -⟩ := Yields.terminal_iff.1 h
  have hx : x.1.kind = kind := hx
  refine ⟨by simp, ?_⟩
  rwa [frontKind_cons, hx]

/-- An optional part behind its word. -/
theorem reads_behind {r : Rule α} {kind : Kind} {o : Option β} {f : β → List Item} {g : α → γ}
    {g' : β → γ} (h : Yields ρ exact c (o.elim [] fun b => .kind kind :: f b) ps)
    (hf : ∀ k, follow k → k ≠ kind)
    (hr : ∀ b ∈ o, ∀ ps, Yields ρ exact c (f b) ps → r.Reads scope ps follow (g · = g' b)) :
    (behind kind r).Reads scope ps follow fun o' => o'.map g = o.map g' := by
  cases o with
  | none =>
    obtain rfl := Yields.nil_iff.1 h
    exact (reads_behind_none hf).mono (fun _ h => h) fun o' ho' => by rw [ho']; rfl
  | some b =>
    obtain ⟨x, qs, rfl, hx, hqs⟩ := Yields.terminal_iff.1 h
    refine (reads_behind_some hx (hr b rfl qs hqs)).mono (fun _ h => h) fun o' ho' => ?_
    obtain ⟨a, rfl, ha⟩ := ho'
    rw [Option.map_some, Option.map_some, ha]

/-! ## Clauses -/

section

variable {inner : Expressions} {n : Nat}

theorem reads_field (hi : inner.Complete ρ exact n) {f : Field}
    (h : Spells ρ exact (scope.context n) (.field f) ps) :
    (field inner).Reads scope ps (EndsCondition 0) (·.recast ρ .erase = f.recast ρ .erase) := by
  obtain ⟨hplain, hitems, -⟩ := Yields.same_iff.1 h
  obtain ⟨qs, rs, rfl, hname, he⟩ := Yields.append_iff.1 hitems
  have hbegins := begins_deeper_boolean he
  have hrs : rs ≠ [] := he.ne_nil_of_phrase
  unfold field
  refine Rule.Reads.spanned ?_
  refine reads_assigned? hname (fun i hi => (hplain i hi).mem) (fun rest hk hmem => ?_)
    fun name hname => ?_
  · refine ((hbegins.append hrs ?_).second (KindSet.mem_union.2 (.inl hmem))).2
    constructor <;> rintro heq <;> rw [heq] at hk <;> exact absurd hk (by decide)
  · refine (hi.boolean (Nat.zero_le _) he).map fun e he span => ?_
    simp only [Field.recast, hname, he]

theorem reads_fields [inner.Lawful true] (hi : inner.Complete ρ exact n) {fs : List Field}
    (hne : fs ≠ []) (h : Yields ρ exact (scope.context n) (Item.list .field fs) ps)
    (hf : ∀ k, follow k → EndsCondition 0 k ∧ k ≠ .comma) :
    (fields inner).Reads scope ps follow
      (·.map (Field.recast ρ .erase) = fs.map (Field.recast ρ .erase)) :=
  reads_list hne h (fun f _ hf => reads_field hi hf) (by decide) hf

theorem reads_renameClause {a : RenameClause} (h : Spells ρ exact c (.renameClause a) ps) :
    renameClause.Reads scope ps (· ≠ .dot) (·.recast .erase = a.recast .erase) := by
  obtain ⟨hplain, hitems, -⟩ := Yields.same_iff.1 h
  obtain ⟨qs, rs, rfl, hname, hrest⟩ := Yields.cons_iff.1 hitems
  obtain ⟨x, rs, rfl, hx, hold⟩ := Yields.terminal_iff.1 hrest
  unfold renameClause
  refine Rule.Reads.spanned ?_
  refine (reads_plainIdentifier hname hplain).andThen fun i hname => .expect_bind hx ?_
  refine (reads_qualifiedName hold fun k hk => hk).map fun q hq span => ?_
  simp only [RenameClause.recast, hname, hq]

theorem reads_commandOption {a : CommandOption} (h : Spells ρ exact c (.commandOption a) ps) :
    commandOption.Reads scope ps (fun _ => True) (·.recast .erase = a.recast .erase) := by
  obtain ⟨hplain, hitems, -⟩ := Yields.same_iff.1 h
  obtain ⟨qs, rs, rfl, hname, hrest⟩ := Yields.cons_iff.1 hitems
  obtain ⟨x, rs, rfl, hx, hvalue⟩ := Yields.terminal_iff.1 hrest
  unfold commandOption
  refine Rule.Reads.spanned ?_
  refine (reads_plainIdentifier hname hplain).andThen fun i hname => .expect_bind hx ?_
  refine (reads_constant hvalue).map fun v hv span => ?_
  simp only [CommandOption.recast, hname, hv]

theorem mem_enrichNames {i : Identifier} (h : i.IsEnrich) : i.kind ∈ enrichNames :=
  KindSet.mem_ofList.2 h

theorem reads_enrichClause {a : EnrichClause} (h : Spells ρ exact c (.enrichClause a) ps) :
    enrichClause.Reads scope ps (· ≠ .assign) (·.recast .erase = a.recast .erase) := by
  obtain ⟨⟨hnew, hfield⟩, hitems, -⟩ := Yields.same_iff.1 h
  obtain ⟨qs, rs, rfl, hname, hrest⟩ := Yields.append_iff.1 hitems
  unfold enrichClause
  refine Rule.Reads.spanned ?_
  refine reads_assigned? hname (fun i hi => mem_enrichNames (hnew i hi)) (fun rest hk _ => ?_)
    fun name hname => ?_
  · obtain ⟨x, rfl, -⟩ := Yields.of_identifier hrest
    exact hk
  · refine (reads_identifierOf hrest (mem_enrichNames hfield)).map fun i hi span => ?_
    simp only [EnrichClause.recast, hname, hi]

/-- A kind that ends a sort key. -/
def EndsSortKey (k : Kind) : Prop := EndsCondition 0 k ∧ k ≠ .ordering ∧ k ≠ .kwNulls

instance : DecidablePred EndsSortKey := fun k =>
  inferInstanceAs (Decidable (EndsCondition 0 k ∧ k ≠ .ordering ∧ k ≠ .kwNulls))

theorem reads_order {order : Option SortOrder}
    (h : Yields ρ exact c (order.elim [] fun order => [.terminal (.order order)]) ps)
    (hf : ∀ k, follow k → k ≠ .ordering) :
    (accept .ordering).Reads scope ps follow
      fun token => token.map (SortOrder.ofText ·.text) = order := by
  cases order with
  | none =>
    obtain rfl := Yields.nil_iff.1 h
    exact (reads_accept_none hf).mono (fun _ h => h) fun token htoken => by rw [htoken]; rfl
  | some order =>
    obtain ⟨x, rfl, hx, horder⟩ := Yields.singleton_terminal_iff.1 h
    refine (reads_accept_some hx).mono (fun _ h => h) fun token htoken => ?_
    rw [htoken, Option.map_some, horder]

theorem reads_nulls {nulls : Option NullsOrder}
    (h : Yields ρ exact c
      (nulls.elim [] fun nulls => [.kind .kwNulls, .terminal (.nulls nulls)]) ps)
    (hf : ∀ k, follow k → k ≠ .kwNulls) :
    (behind .kwNulls (expect .nullsDirection)).Reads scope ps follow
      fun token => token.bind (NullsOrder.ofText? ·.text) = nulls := by
  have hread : (behind .kwNulls (expect .nullsDirection)).Reads scope ps follow
      fun token => token.map (NullsOrder.ofText? ·.text) = nulls.map some := by
    refine reads_behind h hf fun order _ qs hqs => ?_
    obtain ⟨x, rfl, hx, horder⟩ := Yields.singleton_terminal_iff.1 hqs
    refine (reads_expect hx).mono (fun _ h => h) fun token htoken => ?_
    rw [htoken, horder]
  refine hread.mono (fun _ h => h) fun token htoken => ?_
  cases token <;> cases nulls <;> simp_all

theorem reads_sortKey (hi : inner.Complete ρ exact n) {a : SortKey}
    (h : Spells ρ exact (scope.context n) (.sortKey a) ps) :
    (sortKey inner).Reads scope ps EndsSortKey (·.recast ρ .erase = a.recast ρ .erase) := by
  obtain ⟨-, hitems, -⟩ := Yields.same_iff.1 h
  obtain ⟨qs, rs, rfl, he, hrest⟩ := Yields.cons_iff.1 hitems
  obtain ⟨os, ns, rfl, hordery, hnulls⟩ := Yields.append_iff.1 hrest
  -- in front of the place of missing values there may be no second direction
  have hmid : ∀ rest, EndsSortKey (frontKind rest) →
      EndsCondition 0 (frontKind (ns ++ rest)) ∧ frontKind (ns ++ rest) ≠ .ordering := by
    intro rest hk
    refine front_option (P := fun k => EndsCondition 0 k ∧ k ≠ .ordering) hnulls
      (fun _ qs hqs => ?_) ⟨hk.1, hk.2.1⟩
    exact front_kind (P := fun k => EndsCondition 0 k ∧ k ≠ .ordering) (by decide) hqs
  have horder : (accept .ordering).Reads scope os (fun k => EndsCondition 0 k ∧ k ≠ .ordering)
      fun token => token.map (SortOrder.ofText ·.text) = a.order :=
    reads_order hordery fun k hk => hk.2
  unfold sortKey
  refine Rule.Reads.spanned ?_
  refine (hi.boolean (Nat.zero_le _) he).bind (fun rest hk => ?_) fun e he => ?_
  · rw [List.append_assoc]
    refine front_option hordery (fun order zs hzs => ?_) (hmid rest hk).1
    obtain ⟨x, rfl, hx, -⟩ := Yields.singleton_terminal_iff.1 hzs
    refine ⟨by simp, ?_⟩
    rw [frontKind_cons, hx]
    decide
  refine horder.bind hmid fun order horder => ?_
  refine (reads_nulls hnulls fun k hk => hk.2.2).map fun nulls hnulls span => ?_
  simp only [SortKey.recast, he, horder, hnulls]

/-! ## Processing commands -/

/-- A list that is what a command asks for. -/
theorem reads_clause_list {r : Rule α} [Lawful true r] {phrase : α → Phrase} {f : α → β}
    {as : List α} {F : List α → ProcessingClause} {a : ProcessingClause} (hne : as ≠ [])
    (h : Yields ρ exact c (Item.list phrase as) ps)
    (hr : ∀ a ps, Spells ρ exact c (phrase a) ps → r.Reads scope ps mid (f · = f a))
    (hmid : mid .comma) (hpipe : mid .pipe) (hend : mid .endOfInput) (hbracket : mid .rightBracket)
    (ha : ∀ bs, bs.map f = as.map f → (F bs).recast ρ .erase = a.recast ρ .erase) :
    (do return F (← separated .comma r)).Reads scope ps EndsCommand
      (·.recast ρ .erase = a.recast ρ .erase) := by
  have hfollow : ∀ k, EndsCommand k → mid k ∧ k ≠ .comma :=
    EndsCommand.elim ⟨hpipe, by decide⟩ ⟨hend, by decide⟩ ⟨hbracket, by decide⟩
  exact (reads_list hne h hr hmid hfollow).map ha

theorem reads_clause_names {names : List QualifiedName} {F : List QualifiedName → ProcessingClause}
    {a : ProcessingClause} (hne : names ≠ [])
    (h : Yields ρ exact c (Item.list .qualifiedName names) ps)
    (ha : ∀ qs : List QualifiedName,
      qs.map (QualifiedName.recast .erase) = names.map (QualifiedName.recast .erase) →
        (F qs).recast ρ .erase = a.recast ρ .erase) :
    (do return F (← qualifiedNames)).Reads scope ps EndsCommand
      (·.recast ρ .erase = a.recast ρ .erase) :=
  reads_clause_list hne h (fun q _ hq => reads_qualifiedName hq fun k (hk : k ≠ .dot) => hk)
    (by decide) (by decide) (by decide) (by decide) ha

/-- References to fields in front of a string. -/
theorem reads_names_string {names : List QualifiedName} {pattern : StringLiteral}
    {items : List Item} {F : List QualifiedName → StringLiteral → Rule α} {wanted : α → Prop}
    (hne : names ≠ [])
    (h : Yields ρ exact c (Item.list .qualifiedName names ++ .same (.string pattern) :: items) ps)
    (hF : ∀ qs l rs,
      qs.map (QualifiedName.recast .erase) = names.map (QualifiedName.recast .erase) →
      l.recast .erase = pattern.recast .erase → Yields ρ exact c items rs →
        (F qs l).Reads scope rs follow wanted) :
    (do F (← qualifiedNames) (← string)).Reads scope ps follow wanted := by
  obtain ⟨qs, rs, rfl, hnames, hrest⟩ := Yields.append_iff.1 h
  obtain ⟨rs, zs, rfl, hpattern, hitems⟩ := Yields.cons_iff.1 hrest
  have hread : qualifiedNames.Reads scope qs (· = .string)
      (·.map (QualifiedName.recast .erase) = names.map (QualifiedName.recast .erase)) :=
    reads_qualifiedNames hne hnames fun k hk => by rw [hk]; decide
  refine hread.bind (fun rest _ => ?_) fun qs hqs => ?_
  · obtain ⟨x, rfl, hx, -⟩ := Yields.of_string hpattern
    exact hx
  · exact (reads_string hpattern).andThen fun l hl => hF qs l zs hqs hl hitems

theorem reads_dissect {clause : Rule ProcessingClause}
    (hclause : processingClause? inner .kwDissect = some clause) {names : List QualifiedName}
    {pattern : StringLiteral} {options : Option (List CommandOption)} (hne : names ≠ [])
    (hoptions : options ≠ some [])
    (h : Yields ρ exact c (Item.list .qualifiedName names
      ++ .same (.string pattern) :: options.elim [] (Item.list .commandOption)) ps) :
    clause.Reads scope ps EndsCommand
      (·.recast ρ .erase = (ProcessingClause.dissect names pattern options).recast ρ .erase) := by
  obtain rfl := Option.some.inj hclause
  refine reads_names_string hne h fun qs l rs hqs hl hrs => ?_
  cases options with
  | none =>
    obtain rfl := Yields.nil_iff.1 hrs
    refine .ask false (fun s rest hs _ hr hk => ?_) (.pure ?_)
    · rw [hs.kind_eq, hr, List.nil_append]
      exact EndsCommand.elim (P := fun k => plainNames.contains k = false) (by decide) (by decide)
        (by decide) _ hk
    · simp only [ProcessingClause.recast, hqs, hl, Option.map_none]
  | some options =>
    have hone : options ≠ [] := by simpa using hoptions
    obtain ⟨hps, hk⟩ := front_list (P := (· ∈ plainNames)) hone hrs fun o zs ho => by
      obtain ⟨hplain, hitems, -⟩ := Yields.same_iff.1 ho
      obtain ⟨zs, ws, rfl, hname, -⟩ := Yields.cons_iff.1 hitems
      obtain ⟨x, rfl, hx, -⟩ := Yields.of_identifier hname
      have hplain : o.name.IsPlain := hplain
      rw [List.singleton_append, frontKind_cons, hx]
      exact hplain.mem
    refine .atAny? hps ?_
    rw [if_pos (KindSet.contains_iff.2 hk)]
    refine reads_clause_list hone hrs (fun o zs ho => reads_commandOption ho)
      trivial trivial trivial trivial fun os hos => ?_
    simp only [ProcessingClause.recast, hqs, hl, Option.map_some, hos]

theorem reads_enrich {clause : Rule ProcessingClause}
    (hclause : processingClause? inner .kwEnrich = some clause) {policy : Identifier}
    {matchField : Option Identifier} {clauses : Option (List EnrichClause)} (hpolicy : policy.IsEnrich)
    (hmatch : ∀ i ∈ matchField, i.IsEnrich) (hclauses : clauses ≠ some [])
    (h : Yields ρ exact c (.same (.identifier policy)
      :: ((matchField.elim [] fun name => [.kind .kwOn, .same (.identifier name)])
        ++ clauses.elim [] fun clauses => .kind .kwWith :: Item.list .enrichClause clauses)) ps) :
    clause.Reads scope ps EndsCommand
      (·.recast ρ .erase
        = (ProcessingClause.enrich policy matchField clauses).recast ρ .erase) := by
  obtain rfl := Option.some.inj hclause
  obtain ⟨qs, rs, rfl, hpolicyy, hrest⟩ := Yields.cons_iff.1 h
  obtain ⟨rs, zs, rfl, hmatchy, hclausesy⟩ := Yields.append_iff.1 hrest
  refine (reads_identifierOf hpolicyy (mem_enrichNames hpolicy)).andThen fun i hi => ?_
  have hread : (behind .kwOn (identifierOf enrichNames)).Reads scope rs (· ≠ .kwOn)
      (·.map (Identifier.recast .erase) = matchField.map (Identifier.recast .erase)) :=
    reads_behind hmatchy (fun k hk => hk) fun j hj qs hqs =>
      reads_identifierOf hqs (mem_enrichNames (hmatch j hj))
  refine hread.bind (fun rest hk => ?_) fun o ho => ?_
  · refine front_option (P := (· ≠ .kwOn)) hclausesy (fun _ qs hqs => ?_) ?_
    · exact front_kind (P := (· ≠ .kwOn)) (by decide) hqs
    · exact EndsCommand.elim (P := (· ≠ .kwOn)) (by decide) (by decide) (by decide) _ hk
  have hread : (behind .kwWith (separated .comma enrichClause)).Reads scope zs EndsCommand
      (·.map (List.map (EnrichClause.recast .erase))
        = clauses.map (List.map (EnrichClause.recast .erase))) := by
    refine reads_behind hclausesy (EndsCommand.elim (by decide) (by decide) (by decide))
      fun cs hcs qs hqs => ?_
    have hne : cs ≠ [] := by
      rintro rfl
      exact hclauses hcs
    exact reads_list hne hqs (fun a _ ha => reads_enrichClause ha) (by decide)
      (EndsCommand.elim (by decide) (by decide) (by decide))
  refine hread.map fun cs hcs => ?_
  simp only [ProcessingClause.recast, hi, ho, hcs]

/-- Outside filters a field begins as `STATS` expects it. -/
theorem front_field {f : Field} (hscope : scope.predicates = false)
    (h : Spells ρ exact (scope.context n) (.field f) ps) : frontKind ps ∈ booleanStart := by
  obtain ⟨hplain, hitems, -⟩ := Yields.same_iff.1 h
  obtain ⟨qs, rs, rfl, hname, he⟩ := Yields.append_iff.1 hitems
  cases hf : f.name with
  | none =>
    rw [hf] at hname
    obtain rfl := Yields.nil_iff.1 hname
    have hfront := (begins_deeper_boolean he).front
    rw [Scope.booleanStart, hscope] at hfront
    exact hfront
  | some i =>
    rw [hf] at hname
    obtain ⟨zs, ws, rfl, hi, -⟩ := Yields.cons_iff.1 hname
    obtain ⟨x, rfl, hx, -⟩ := Yields.of_identifier hi
    have hi : i.IsPlain := hplain i hf
    rw [List.append_assoc, List.singleton_append, frontKind_cons, hx]
    refine KindSet.mem_union.2 (.inl (KindSet.mem_union.2 (.inl ?_)))
    exact KindSet.mem_union.2 (.inl (KindSet.mem_union.2 (.inr hi.mem)))

theorem reads_stats [inner.Lawful true] (hi : inner.Complete ρ exact n)
    {clause : Rule ProcessingClause} (hclause : processingClause? inner .kwStats = some clause)
    {fields : Option (List Field)} {grouping : Option (List QualifiedName)}
    (hscope : scope.predicates = false) (hfields : fields ≠ some []) (hgrouping : grouping ≠ some [])
    (h : Yields ρ exact (scope.context n) (fields.elim [] (Item.list .field)
      ++ grouping.elim [] fun names => .kind .kwBy :: Item.list .qualifiedName names) ps) :
    clause.Reads scope ps EndsCommand
      (·.recast ρ .erase = (ProcessingClause.stats fields grouping).recast ρ .erase) := by
  obtain rfl := Option.some.inj hclause
  obtain ⟨qs, rs, rfl, hfieldsy, hgroupingy⟩ := Yields.append_iff.1 h
  have hfront {P : Kind → Prop} (hP : P .kwBy) (hpipe : P .pipe) (hend : P .endOfInput)
      (hbracket : P .rightBracket) {rest : List Placed} (hk : EndsCommand (frontKind rest)) :
      P (frontKind (rs ++ rest)) :=
    front_option hgroupingy (fun _ _ hqs => front_kind hP hqs)
      (EndsCommand.elim hpipe hend hbracket _ hk)
  have hby : ∀ o : Option (List Field),
      o.map (List.map (Field.recast ρ .erase)) = fields.map (List.map (Field.recast ρ .erase)) →
      (do return .stats o (← behind .kwBy qualifiedNames) : Rule ProcessingClause).Reads scope
        rs EndsCommand
        (·.recast ρ .erase = (ProcessingClause.stats fields grouping).recast ρ .erase) := by
    intro o ho
    have hread : (behind .kwBy qualifiedNames).Reads scope rs EndsCommand
        (·.map (List.map (QualifiedName.recast .erase))
          = grouping.map (List.map (QualifiedName.recast .erase))) := by
      refine reads_behind hgroupingy (EndsCommand.elim (by decide) (by decide) (by decide))
        fun names hnames qs hqs => ?_
      have hne : names ≠ [] := by
        rintro rfl
        exact hgrouping hnames
      exact reads_qualifiedNames hne hqs (EndsCommand.elim (by decide) (by decide) (by decide))
    refine hread.map fun names hnames => ?_
    simp only [ProcessingClause.recast, ho, hnames]
  cases fields with
  | none =>
    obtain rfl := Yields.nil_iff.1 hfieldsy
    refine .ask false (fun s rest hs _ hr hk => ?_) ?_
    · rw [hs.kind_eq, hr, List.nil_append]
      exact hfront (P := fun k => booleanStart.contains k = false) (by decide) (by decide)
        (by decide) (by decide) hk
    · exact hby none rfl
  | some fs =>
    have hne : fs ≠ [] := by simpa using hfields
    obtain ⟨hqs, hk⟩ := front_list (P := (· ∈ booleanStart)) hne hfieldsy fun f zs hf =>
      front_field hscope hf
    refine .atAny? (by simp [hqs]) ?_
    rw [frontKind_append hqs, if_pos (KindSet.contains_iff.2 hk)]
    have hread : (Grammar.fields inner).Reads scope qs (fun k => EndsCondition 0 k ∧ k ≠ .comma)
        (·.map (Field.recast ρ .erase) = fs.map (Field.recast ρ .erase)) :=
      reads_fields hi hne hfieldsy fun k hk => hk
    have hread : (some <$> Grammar.fields inner).Reads scope qs
        (fun k => EndsCondition 0 k ∧ k ≠ .comma)
        (·.map (List.map (Field.recast ρ .erase))
          = (some fs).map (List.map (Field.recast ρ .erase))) :=
      hread.map fun gs hgs => congrArg some hgs
    refine hread.bind (fun rest hk => ?_) hby
    exact hfront (P := fun k => EndsCondition 0 k ∧ k ≠ .comma) (by decide) (by decide)
      (by decide) (by decide) hk

/-- The keyword of a command decides the rule for what stands behind it. -/
theorem reads_processingClause [inner.Lawful true] (hi : inner.Complete ρ exact n)
    (hscope : scope.predicates = false) {a : ProcessingClause} {keyword : Token}
    (hadm : a.Admissible) (h : Yields ρ exact (scope.context n) (a.items keyword) ps) :
    ∃ x qs clause, ps = x :: qs ∧ ρ x.1 = ρ keyword ∧
      processingClause? inner x.1.kind = some clause ∧
      clause.Reads scope qs EndsCommand (·.recast ρ .erase = a.recast ρ .erase) := by
  have keyworded {kind : Kind} {items : List Item} {clause : Rule ProcessingClause}
      (hitems : a.items keyword = .kept kind keyword :: items)
      (hclause : processingClause? inner kind = some clause)
      (hread : ∀ qs, Yields ρ exact (scope.context n) items qs →
        clause.Reads scope qs EndsCommand (·.recast ρ .erase = a.recast ρ .erase)) :
      ∃ x qs clause, ps = x :: qs ∧ ρ x.1 = ρ keyword ∧
        processingClause? inner x.1.kind = some clause ∧
        clause.Reads scope qs EndsCommand (·.recast ρ .erase = a.recast ρ .erase) := by
    rw [hitems] at h
    obtain ⟨x, qs, rfl, ⟨hx, htoken⟩, hqs⟩ := Yields.terminal_iff.1 h
    have hx : x.1.kind = kind := by simpa using hx
    exact ⟨x, qs, clause, rfl, htoken, by rw [hx, hclause], hread qs hqs⟩
  cases a with
  | eval fields =>
    refine keyworded rfl rfl fun qs hqs => ?_
    exact reads_clause_list hadm hqs (fun f _ hf => reads_field hi hf) (by decide) (by decide)
      (by decide) (by decide) fun fs hfs => by simp only [ProcessingClause.recast, hfs]
  | limit count =>
    refine keyworded rfl rfl fun qs hqs => ?_
    have hk : count.kind.kind ∈ ({.integer} : KindSet) := by
      have hinteger : count.kind = .integer := hadm
      rw [hinteger]
      decide
    exact (reads_numberOf hqs hk).map fun m hm => by simp only [ProcessingClause.recast, hm]
  | keep names =>
    obtain ⟨x, qs, rfl, ⟨hx, htoken⟩, hqs⟩ := Yields.terminal_iff.1 h
    have hread : (do return .keep (← qualifiedNames) : Rule ProcessingClause).Reads scope qs
        EndsCommand (·.recast ρ .erase = (ProcessingClause.keep names).recast ρ .erase) :=
      reads_clause_names hadm hqs fun qs hqs => by simp only [ProcessingClause.recast, hqs]
    obtain hx | hx : x.1.kind = .kwKeep ∨ x.1.kind = .kwProject := by simpa using hx
    · exact ⟨x, qs, _, rfl, htoken, by rw [hx]; rfl, hread⟩
    · exact ⟨x, qs, _, rfl, htoken, by rw [hx]; rfl, hread⟩
  | rename clauses =>
    refine keyworded rfl rfl fun qs hqs => ?_
    exact reads_clause_list hadm hqs (fun a _ ha => reads_renameClause ha) (by decide) (by decide)
      (by decide) (by decide) fun as has => by simp only [ProcessingClause.recast, has]
  | drop names =>
    refine keyworded rfl rfl fun qs hqs => ?_
    exact reads_clause_names hadm hqs fun qs hqs => by simp only [ProcessingClause.recast, hqs]
  | dissect names pattern options =>
    have hclause : processingClause? inner .kwDissect = some _ := rfl
    exact keyworded rfl hclause fun qs hqs => reads_dissect hclause hadm.1 hadm.2 hqs
  | grok names pattern =>
    refine keyworded rfl rfl fun qs hqs => ?_
    refine reads_names_string hadm hqs fun qs l rs hqs hl hrs => ?_
    obtain rfl := Yields.nil_iff.1 hrs
    exact .pure (by simp only [ProcessingClause.recast, hqs, hl])
  | sort keys =>
    refine keyworded rfl rfl fun qs hqs => ?_
    exact reads_clause_list hadm hqs (fun k _ hk => reads_sortKey hi hk) (by decide) (by decide)
      (by decide) (by decide) fun ks hks => by simp only [ProcessingClause.recast, hks]
  | stats fields grouping =>
    have hclause : processingClause? inner .kwStats = some _ := rfl
    exact keyworded rfl hclause fun qs hqs => reads_stats hi hclause hscope hadm.1 hadm.2 hqs
  | filter condition =>
    refine keyworded rfl rfl fun qs hqs => ?_
    have hcondition : (inner.boolean 0).Reads { scope with predicates := true } qs EndsCommand
        (·.recast ρ .erase = condition.recast ρ .erase) := by
      refine (hi.boolean (Nat.zero_le _) ?_).mono
        (EndsCommand.elim (by decide) (by decide) (by decide)) fun _ h => h
      exact Yields.filter_iff.1 hqs
    have hwithin := hcondition.within (f := ({ · with predicates := true }))
    exact hwithin.map fun e he => by simp only [ProcessingClause.recast, he]
  | mvExpand names =>
    refine keyworded rfl rfl fun qs hqs => ?_
    exact reads_clause_names hadm hqs fun qs hqs => by simp only [ProcessingClause.recast, hqs]
  | enrich policy matchField clauses =>
    have hclause : processingClause? inner .kwEnrich = some _ := rfl
    exact keyworded rfl hclause fun qs hqs => reads_enrich hclause hadm.1 hadm.2.1 hadm.2.2 hqs

theorem reads_processingCommand [inner.Lawful true] (hi : inner.Complete ρ exact n)
    (hscope : scope.predicates = false) {a : ProcessingCommand}
    (h : Spells ρ exact (scope.context n) (.processingCommand a) ps) :
    (processingCommand inner).Reads scope ps EndsCommand
      (·.recast ρ .erase = a.recast ρ .erase) := by
  obtain ⟨hadm, hitems, -⟩ := Yields.same_iff.1 h
  cases a with
  | error span => exact absurd hadm (by simp [Phrase.Admissible])
  | command keyword clause span =>
    obtain ⟨x, qs, rule, rfl, htoken, hrule, hread⟩ := reads_processingClause hi hscope hadm hitems
    unfold processingCommand
    refine Rule.Reads.spanned (.change_bind (fun s hs => hs.reads_note _) (.askKind (by simp) ?_))
    rw [frontKind_cons, hrule]
    refine .take_bind ?_
    exact hread.map fun b hb span => by simp only [ProcessingCommand.recast, htoken, hb]

/-! ## Source commands -/

/-- A kind that ends a query. -/
def EndsQuery (scope : Scope) (k : Kind) : Prop :=
  k = .endOfInput ∨ k = .rightBracket ∧ 0 < scope.subqueries

theorem EndsQuery.endsCommand {k : Kind} (h : EndsQuery scope k) : EndsCommand k := by
  rcases h with h | ⟨h, -⟩
  · exact .inr (.inl h)
  · exact .inr (.inr h)

theorem EndsQuery.atBoundary {s : State} (h : EndsQuery s.scope s.kind) :
    s.kind ≠ .pipe ∧ s.atBoundary = true := by
  rcases h with h | ⟨h, hsub⟩
  · simp [State.atBoundary, h]
  · simp [State.atBoundary, h, hsub]

/-- The queries that the grammar derives one level deeper are read. -/
def QueryComplete (ρ : Token → Token) (exact : Bool) (query : Rule Query) (n : Nat) : Prop :=
  ∀ (scope : Scope) (ps : List Placed) (q : Query), scope.predicates = false →
    Yields ρ exact (scope.context n) [.deeper (.query q)] ps →
      query.Reads scope ps (EndsQuery scope) (·.recast ρ .erase = q.recast ρ .erase)

variable {query : Rule Query}

theorem reads_subquery [Lawful true query] (hq : QueryComplete ρ exact query n)
    (hscope : scope.predicates = false) {q : Query}
    (h : Yields ρ exact (scope.context n)
      [.kind .leftBracket, .deeper (.query q), .kind .rightBracket] ps) :
    (subquery query).Reads scope ps follow (·.recast ρ .erase = q.recast ρ .erase) := by
  obtain ⟨x, qs, rfl, hx, hrest⟩ := Yields.terminal_iff.1 h
  obtain ⟨qs, rs, rfl, hquery, hclose⟩ := Yields.cons_iff.1 hrest
  obtain ⟨y, rfl, hy⟩ := Yields.singleton_terminal_iff.1 hclose
  let deeper (scope : Scope) : Scope := { scope with subqueries := scope.subqueries + 1 }
  have hinner : query.Reads (deeper scope) qs (EndsQuery (deeper scope))
      (·.recast ρ .erase = q.recast ρ .erase) := hq (deeper scope) qs q hscope hquery
  unfold subquery
  refine .askAny fun start => .expect_bind hx ?_
  refine hinner.within.bind (fun rest _ => .inr ⟨hy, Nat.succ_pos _⟩) fun q' hq' => ?_
  refine .expect_bind hy (.change_bind (fun s hs => hs.reads_record _ _) (.pure hq'))

theorem reads_sourceCommand [inner.Lawful true] [Lawful true query]
    (hi : inner.Complete ρ exact n) (hq : QueryComplete ρ exact query n)
    (hscope : scope.predicates = false) {a : SourceCommand}
    (h : Spells ρ exact (scope.context n) (.sourceCommand a) ps) :
    (sourceCommand inner query).Reads scope ps EndsCommand
      (·.recast ρ .erase = a.recast ρ .erase) := by
  obtain ⟨hadm, hitems, -⟩ := Yields.same_iff.1 h
  cases a with
  | error span => exact absurd hadm (by simp [Phrase.Admissible])
  | command keyword clause span =>
    unfold sourceCommand
    refine Rule.Reads.spanned (.change_bind (fun s hs => hs.reads_note _) (.askAny fun start => ?_))
    cases clause with
    | explain q =>
      obtain ⟨x, qs, rfl, ⟨hx, htoken⟩, hrest⟩ := Yields.terminal_iff.1 hitems
      have hx : x.1.kind = .kwExplain := by simpa using hx
      refine .askKind (by simp) ?_
      rw [frontKind_cons, hx]
      refine .take_bind ?_
      refine (reads_subquery hq hscope hrest).map fun q' hq' span => ?_
      simp only [SourceCommand.recast, SourceClause.recast, htoken, hq']
    | indices names =>
      obtain ⟨x, qs, rfl, ⟨hx, htoken⟩, hrest⟩ := Yields.terminal_iff.1 hitems
      have hx : x.1.kind = .kwFrom := by simpa using hx
      have hsep := Separated.forall_and ((Yields.list_iff hadm.1).1 hrest) hadm.2
      have hname (i : Identifier) (qs : List Placed)
          (h : Spells ρ exact (scope.context n) (.identifier i) qs ∧ i.IsSource) :
          (identifierOf sourceNames).Reads scope qs (fun _ => True)
            (·.recast .erase = i.recast .erase) :=
        reads_identifierOf h.1 (KindSet.mem_ofList.2 h.2)
      have hnames : (separated .comma (identifierOf sourceNames)).Reads scope qs EndsCommand
          (·.map (Identifier.recast .erase) = names.map (Identifier.recast .erase)) :=
        reads_separated hname trivial
          (EndsCommand.elim (by decide) (by decide) (by decide)) hsep
      refine .askKind (by simp) ?_
      rw [frontKind_cons, hx]
      refine .take_bind ?_
      refine hnames.map fun is his span => ?_
      simp only [SourceCommand.recast, SourceClause.recast, htoken, his]
    | row fs =>
      obtain ⟨x, qs, rfl, ⟨hx, htoken⟩, hrest⟩ := Yields.terminal_iff.1 hitems
      have hx : x.1.kind = .kwRow := by simpa using hx
      have hfields : (fields inner).Reads scope qs EndsCommand
          (·.map (Field.recast ρ .erase) = fs.map (Field.recast ρ .erase)) :=
        reads_fields hi hadm hrest (EndsCommand.elim (by decide) (by decide) (by decide))
      refine .askKind (by simp) ?_
      rw [frontKind_cons, hx]
      refine .take_bind ?_
      refine hfields.map fun gs hgs span => ?_
      simp only [SourceCommand.recast, SourceClause.recast, htoken, hgs]
    | listing target =>
      obtain ⟨x, qs, rfl, ⟨hx, htoken⟩, hrest⟩ := Yields.terminal_iff.1 hitems
      obtain ⟨y, rfl, hy⟩ := Yields.singleton_terminal_iff.1 hrest
      have hx : x.1.kind = .kwShow := by simpa using hx
      have hy : y.1.kind = target.kind := hy
      refine .askKind (by simp) ?_
      rw [frontKind_cons, hx]
      refine .ask target.kind (fun s rest hs _ hr _ => ?_) ?_
      · rw [Rule.Reads.kindAfter_eq hs hr]
        exact hy
      rw [ShowTarget.ofKind?_eq_some_iff.2 rfl]
      refine .take_bind (.take_bind (.pure fun span => ?_))
      simp only [SourceCommand.recast, SourceClause.recast, htoken]

/-! ## Pipelines -/

/-- A command that is read makes a stage. -/
theorem stage_eq {r : Rule α} {kind : Kind} {span : α → Span} {error : Span → α} {s t : State}
    {a : α} (h : r.Accepts s ps a t) :
    stage r kind span error s = (a, t.record kind (span a)) ∧
      s.Reads ps (t.record kind (span a)) := by
  have hrecord := h.reads.trans (h.clear'.reads_record kind (span a))
  rw [List.append_nil] at hrecord
  rw [stage, h.run]
  exact ⟨rfl, hrecord⟩

/-- Reading the first stage of a pipeline and those behind it leads from one state to another. -/
inductive Pipelined (inner : Expressions) (query : Rule Query) (s : State)
    (first : SourceCommand) : List (Token × ProcessingCommand) → List Placed → State → Prop
  | source {ps : List Placed} {t : State} (run : sourceStage inner query s = (first, t))
    (reads : s.Reads ps t) : Pipelined inner query s first [] ps t
  | pipe {stages : List (Token × ProcessingCommand)} {ps qs : List Placed} {x : Placed}
    {command : ProcessingCommand} {u t : State}
    (before : Pipelined inner query s first stages ps u) (bar : u.kind = .pipe)
    (run : processingStage inner u.bump = (command, t)) (reads : u.Reads (x :: qs) t) :
    Pipelined inner query s first (stages ++ [(u.current, command)]) (ps ++ x :: qs) t

namespace Pipelined

variable {s t : State} {first : SourceCommand} {stages : List (Token × ProcessingCommand)}

theorem reads (h : Pipelined inner query s first stages ps t) : s.Reads ps t := by
  induction h with
  | source _ reads => exact reads
  | pipe _ _ _ reads ih => exact ih.trans reads

/-- The loop over the stages goes through them, and a token is left for each of them. -/
theorem exists_stagesUpTo (h : Pipelined inner query s first stages ps t) :
    ∃ u, sourceStage inner query s = (first, u) ∧
      stages.length + t.stream.remaining ≤ u.stream.remaining ∧
      ∀ m l, stagesUpTo inner (m + stages.length) l u
        = stagesUpTo inner m (stages.reverse ++ l) t := by
  induction h with
  | @source ps t run reads => exact ⟨t, run, by simp, fun m l => rfl⟩
  | @pipe stages ps qs x command u t before bar run reads ih =>
    obtain ⟨v, hsource, hlen, hloop⟩ := ih
    have hremaining := reads.stream.remaining
    rw [List.length_cons] at hremaining
    refine ⟨v, hsource, ?_, fun m l => ?_⟩
    · rw [List.length_append, List.length_singleton]
      omega
    · have hm : m + (stages ++ [(u.current, command)]).length = m + 1 + stages.length := by
        rw [List.length_append, List.length_singleton]
        omega
      rw [hm, hloop, stagesUpTo_pipe bar, run, List.reverse_append]
      rfl

/-- At the end of the query the pipeline is what was read. -/
theorem pipeline_eq (h : Pipelined inner query s first stages ps t) (hk : t.kind ≠ .pipe)
    (hb : t.atBoundary = true) :
    pipeline inner query s = (.ofStages first stages, t) := by
  obtain ⟨u, hsource, hlen, hloop⟩ := h.exists_stagesUpTo
  have hm : u.stream.remaining = u.stream.remaining - stages.length + stages.length := by omega
  have hstages : stagesUpTo inner u.stream.remaining [] u = (stages, t) := by
    rw [hm, hloop, stagesUpTo_boundary hk hb, List.append_nil, List.reverse_reverse]
  rw [pipeline, hsource]
  simp only [hstages]

end Pipelined

/-- The stages that a pipeline is made of are read one by one. -/
theorem exists_pipelined [inner.Lawful true] [Lawful true query] (hi : inner.Complete ρ exact n)
    (hq : QueryComplete ρ exact query n) (hscope : scope.predicates = false) :
    ∀ (q : Query) {ps rest : List Placed} {s : State},
      Spells ρ exact (scope.context n) (.query q) ps → s.Clear → s.scope = scope →
      s.stream.rest = ps ++ rest → EndsCommand (frontKind rest) →
      ∃ first stages t, Pipelined inner query s first stages ps t ∧
        (Query.ofStages first stages).recast ρ .erase = q.recast ρ .erase
  | .source command, ps, rest, s, h, hs, hss, hr, hk => by
    obtain ⟨-, hitems, -⟩ := Yields.same_iff.1 h
    obtain ⟨first, u, hfirst, he⟩ := reads_sourceCommand hi hq hscope hitems s rest hs hss hr hk
    obtain ⟨hrun, hreads⟩ := stage_eq hfirst
    refine ⟨first, [], _, .source hrun hreads, ?_⟩
    simp only [Query.ofStages, List.foldl_nil, Query.recast, he]
  | .pipe q bar command, ps, rest, s, h, hs, hss, hr, hk => by
    obtain ⟨-, hitems, -⟩ := Yields.same_iff.1 h
    obtain ⟨qs, rs, rfl, hquery, hrest⟩ := Yields.cons_iff.1 hitems
    obtain ⟨x, rs, rfl, ⟨hx, hbar⟩, hcommand⟩ := Yields.terminal_iff.1 hrest
    have hx : x.1.kind = .pipe := by simpa using hx
    have hr' : s.stream.rest = qs ++ (x :: rs ++ rest) := by rw [hr, List.append_assoc]
    obtain ⟨first, stages, u, hbefore, he⟩ :=
      exists_pipelined hi hq hscope q hquery hs hss hr' (.inl hx)
    have hu := hbefore.reads
    have hurest : u.stream.rest = x :: (rs ++ rest) :=
      List.append_cancel_left (hu.rest.symm.trans hr')
    have hpipe : u.kind = .pipe := by rw [hu.clear'.kind_eq, hurest, frontKind_cons, hx]
    have hbump := accepts_take hu.clear' hurest
    obtain ⟨b, v, hb, hbe⟩ := reads_processingCommand hi hscope hcommand u.bump rest hbump.clear'
      (hbump.scope.trans (hu.scope.trans hss)) (hbump.rest_eq hurest) hk
    obtain ⟨hrun, hreads⟩ := stage_eq hb
    have hcurrent : u.current = x.1 := by simp [State.current, TokenStream.current, hurest]
    refine ⟨first, stages ++ [(u.current, b)], _,
      .pipe hbefore hpipe hrun (hbump.reads.trans hreads), ?_⟩
    rw [Query.ofStages_append_singleton, Query.recast, Query.recast, he, hbe, hcurrent, hbar]

theorem reads_pipeline [inner.Lawful true] [Lawful true query] (hi : inner.Complete ρ exact n)
    (hq : QueryComplete ρ exact query n) (hscope : scope.predicates = false) {q : Query}
    (h : Spells ρ exact (scope.context n) (.query q) ps) :
    (total (pipeline inner query)).Reads scope ps (EndsQuery scope)
      (·.recast ρ .erase = q.recast ρ .erase) := by
  intro s rest hs hss hr hk
  obtain ⟨first, stages, t, hstages, he⟩ :=
    exists_pipelined hi hq hscope q h hs hss hr hk.endsCommand
  have hreads := hstages.reads
  have htrest : t.stream.rest = rest := List.append_cancel_left (hreads.rest.symm.trans hr)
  have hend : EndsQuery t.scope t.kind := by
    rwa [hreads.scope, hss, hreads.clear'.kind_eq, htrest]
  obtain ⟨hpipe, hb⟩ := hend.atBoundary
  exact ⟨_, t, accepts_total.2 ⟨hstages.pipeline_eq hpipe hb, hreads⟩, he⟩

end

/-! ## Levels -/

/-- The queries that the grammar derives are read on all levels of nesting. -/
theorem reads_query (levels : Nat) {ps : List Placed} {q : Query}
    (hscope : scope.predicates = false)
    (h : Spells ρ exact (scope.context levels) (.query q) ps) :
    (total (query levels)).Reads scope ps (EndsQuery scope)
      (·.recast ρ .erase = q.recast ρ .erase) := by
  induction levels generalizing scope ps q with
  | zero =>
    rw [query_zero]
    refine reads_pipeline (expressions_complete 0) (fun scope ps q _ h => ?_) hscope h
    exact absurd h Yields.not_deeper_zero
  | succ levels ih =>
    rw [query_succ]
    refine reads_pipeline (expressions_complete (levels + 1)) (fun scope ps q hscope h => ?_)
      hscope h
    exact ih hscope (Yields.deeper_succ_iff.1 h)

/-- A statement whose query yields all that the grammar sees is read without a diagnostic, as that
query up to spans. -/
theorem reads_statement (config : Config) {tokens : List Token} {q : Query}
    (h : Spells ρ exact ⟨false, config.maxDepth⟩ (.query q) (TokenStream.significant tokens)) :
    (statement config.maxDepth (.start config tokens)).2.diagnostics = #[] ∧
      (statement config.maxDepth (.start config tokens)).1.query.erase ρ = q.erase ρ := by
  have hread : (total (query config.maxDepth)).Reads .outermost (TokenStream.significant tokens)
      (EndsQuery .outermost) (·.erase ρ = q.erase ρ) := reads_query config.maxDepth rfl h
  obtain ⟨q', t, hq', he⟩ := hread (.start config tokens) [] (State.clear_start config tokens) rfl
    (List.append_nil _).symm (.inl rfl)
  obtain ⟨hrun, hreads⟩ := accepts_total.1 hq'
  rw [statement, hrun]
  exact ⟨hreads.clear'.diagnostics, he⟩

end PipeQuery.Grammar
