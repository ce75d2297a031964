import PipeQuery.Proofs.LinkedRules

/-!
# A stage in two texts

Two texts have a stage in common when its tokens are the same in both, though they may stand further
on in one of them. A `Pairing` says what is compared of the tokens, how far the stage is moved, and
what comes in front of it and behind it. While the stage is read, the two streams agree on what is
left of the stage (`Pairing.Streams`), and the two states agree on all that the rules of the grammar
depend on (`Pairing.States`). Beyond the end of the stage nothing agrees.

That is a link (`Pairing.link`), so the rules of the grammar answer the same in both texts, up to
the place.
-/

namespace PipeQuery

open Grammar

namespace TokenStream

/-- The first of some tokens, or the end of the input. -/
def front (s : TokenStream) (ps : List Placed) : Placed := ps.head?.getD (s.endToken, s.limit)

theorem current_eq_front (s : TokenStream) : s.current = (s.front s.rest).1 := by
  unfold current front
  cases s.rest <;> rfl

theorem position_eq_front (s : TokenStream) : s.position = (s.front s.rest).2 := by
  unfold position front
  cases s.rest <;> rfl

/-- What is left begins no later than any later part of it. -/
theorem Valid.position_le_front {s : TokenStream} (h : s.Valid) {ps qs : List Placed}
    (hr : s.rest = ps ++ qs) : s.position ≤ (s.front qs).2 := by
  have hasc := h.ascending_rest
  cases ps with
  | nil =>
    rw [List.nil_append] at hr
    exact Nat.le_of_eq (by rw [position_eq_front, hr])
  | cons x ps =>
    have hx : s.position = x.2 := by
      simp [position, hr]
    rw [hr] at hasc
    rw [hx]
    cases qs with
    | nil =>
      have hmem := TokenStream.mem_significant.1 (h.mem_significant (x := x) (by simp [hr]))
      change x.2 ≤ s.limit
      rw [h.limit_eq]
      exact Nat.le_of_lt hmem.1
    | cons y qs =>
      have hpair := (List.pairwise_append.1 hasc).2.2 x (List.mem_cons_self ..) y
        (List.mem_cons_self ..)
      exact Nat.le_of_lt hpair

end TokenStream

/-- What is seen of a token: the kind and the text at least. -/
structure TokenView where
  /-- What is seen. -/
  seen : Token → Token
  /-- The kind is seen. -/
  kind_seen (t : Token) : (seen t).kind = t.kind
  /-- The text is seen. -/
  text_seen (t : Token) : (seen t).text = t.text
  /-- What is seen of the end of an input is what is seen of its last token. -/
  seen_endAfter {t t' : Token} (h : seen t = seen t') :
    seen (TokenStream.endAfter (some t)) = seen (TokenStream.endAfter (some t'))

namespace TokenView

/-- All of a token is seen. -/
def whole : TokenView where
  seen := id
  kind_seen _ := rfl
  text_seen _ := rfl
  seen_endAfter h := congrArg (TokenStream.endAfter ∘ some) h

/-- The place of a token in the source is not seen. -/
def placeless : TokenView where
  seen t := ⟨t.kind, t.text, 0, 0, 0, 0⟩
  kind_seen _ := rfl
  text_seen _ := rfl
  seen_endAfter _ := rfl

variable (v : TokenView) {t t' : Token}

theorem kind_eq (h : v.seen t = v.seen t') : t.kind = t'.kind := by
  rw [← v.kind_seen t, h, v.kind_seen]

theorem text_eq (h : v.seen t = v.seen t') : t.text = t'.text := by
  rw [← v.text_seen t, h, v.text_seen]

end TokenView

/-- A diagnostic about a token elsewhere. -/
def Diagnostic.moved (ρ : Token → Token) (d : Diagnostic) : Diagnostic :=
  { d with token := ρ d.token }

/-- How a stage of one text is found in another text. -/
structure Pairing where
  /-- What is compared of a token. -/
  view : TokenView
  /-- How far the stage of the first text is moved. -/
  left : Nat
  /-- How far the stage of the second text is moved. -/
  right : Nat
  /-- Where the stage begins in the first text. -/
  low : Nat
  /-- Where the stage ends in the first text. -/
  high : Nat
  /-- What stands behind the stage in the first text. -/
  behind : List Placed
  /-- What stands behind the stage in the second text. -/
  behind' : List Placed
  /-- What was reported in front of the stage in the first text. -/
  reported : List Diagnostic
  /-- What was reported in front of the stage in the second text. -/
  reported' : List Diagnostic

namespace Pairing

variable (E : Pairing)

/-- A token of the first text, as it is compared. -/
def place (x : Placed) : Placed := (E.view.seen x.1, x.2 + E.left)

/-- A token of the second text, as it is compared. -/
def place' (x : Placed) : Placed := (E.view.seen x.1, x.2 + E.right)

/-- Positions of one place in the stage. -/
structure Position (i i' : Nat) : Prop where
  /-- They are the same up to the move. -/
  eq : i + E.left = i' + E.right
  /-- The stage has begun. -/
  low_le : E.low ≤ i
  /-- The stage has not ended. -/
  le_high : i ≤ E.high

/-- The streams agree on what is left of the stage. -/
structure Streams (s s' : TokenStream) : Prop where
  /-- The first text is read from its beginning. -/
  valid : s.Valid
  /-- The second text is read from its beginning. -/
  valid' : s'.Valid
  /-- The tokens of the stage are the same. -/
  stage : ∃ c c', s.rest = c ++ E.behind ∧ s'.rest = c' ++ E.behind' ∧
    c.map E.place = c'.map E.place' ∧ ∀ x ∈ c, x.1.kind ≠ .pipe
  /-- What ends the stage is the same. -/
  front : E.place (s.front E.behind) = E.place' (s'.front E.behind')
  /-- The stage ends with a pipe, or with the input. -/
  ends : (s.front E.behind).1.kind = .pipe ∨ (s.front E.behind).1.kind = .endOfInput
  /-- The stage ends where it is said to end. -/
  high : (s.front E.behind).2 = E.high
  /-- The stage has begun. -/
  low : E.low ≤ s.position
  /-- The last token that was read is the same, or there is none. -/
  previous : s.previous.map (· + E.left) = s'.previous.map (· + E.right)
  /-- The texts are the same all over the stage. -/
  texts (i i' : Nat) (h : E.Position i i') (hi : i < s.limit) :
    s.tokens[i]?.map Token.text = s'.tokens[i']?.map Token.text
  /-- The inputs end at the same place, or behind the stage. -/
  limit : s.limit + E.left = s'.limit + E.right ∨
    E.high < s.limit ∧ E.high + E.left < s'.limit + E.right

variable {E}

namespace Streams

variable {s s' : TokenStream}

theorem front_append (h : E.Streams s s') {c c' : List Placed}
    (hc : c.map E.place = c'.map E.place') :
    E.place (s.front (c ++ E.behind)) = E.place' (s'.front (c' ++ E.behind')) := by
  cases c with
  | nil =>
    obtain rfl : c' = [] := by simpa using hc.symm
    exact h.front
  | cons x c =>
    cases c' with
    | nil => simp at hc
    | cons x' c' =>
      simp only [List.map_cons, List.cons.injEq] at hc
      exact hc.1

theorem current (h : E.Streams s s') : E.view.seen s.current = E.view.seen s'.current := by
  obtain ⟨c, c', hr, hr', hc, -⟩ := h.stage
  rw [s.current_eq_front, s'.current_eq_front, hr, hr']
  exact congrArg Prod.fst (h.front_append hc)

theorem kind (h : E.Streams s s') : s.kind = s'.kind := E.view.kind_eq h.current

theorem position (h : E.Streams s s') : E.Position s.position s'.position := by
  obtain ⟨c, c', hr, hr', hc, -⟩ := h.stage
  refine ⟨?_, h.low, h.high ▸ h.valid.position_le_front hr⟩
  rw [s.position_eq_front, s'.position_eq_front, hr, hr']
  exact congrArg Prod.snd (h.front_append hc)

/-- Where the stage has not ended, its next token is the same in both texts. -/
theorem exists_cons (h : E.Streams s s') (hk : Inside s.kind) :
    ∃ x x' c c', s.rest = x :: (c ++ E.behind) ∧ s'.rest = x' :: (c' ++ E.behind') ∧
      E.place x = E.place' x' ∧ c.map E.place = c'.map E.place' ∧ ∀ y ∈ c, y.1.kind ≠ .pipe := by
  obtain ⟨c, c', hr, hr', hc, hpipe⟩ := h.stage
  cases c with
  | nil =>
    have hfront : s.kind = (s.front E.behind).1.kind := by
      rw [TokenStream.kind, s.current_eq_front, hr, List.nil_append]
    exact absurd h.ends (by rw [← hfront]; simp [hk.ne_pipe, hk.ne_end])
  | cons x c =>
    cases c' with
    | nil => simp at hc
    | cons x' c' =>
      simp only [List.map_cons, List.cons.injEq] at hc
      exact ⟨x, x', c, c', hr, hr', hc.1, hc.2, fun y hy => hpipe y (List.mem_cons_of_mem _ hy)⟩

theorem kindAfter (h : E.Streams s s') (hk : Inside s.kind) :
    (s.lookahead 1).kind = (s'.lookahead 1).kind := by
  obtain ⟨x, x', c, c', hr, hr', -, hc, -⟩ := h.exists_cons hk
  have hafter (u : TokenStream) (y : Placed) (ps : List Placed) (hu : u.rest = y :: ps) :
      u.lookahead 1 = (u.front ps).1 := by
    rw [TokenStream.lookahead, hu, TokenStream.front]
    cases ps <;> rfl
  rw [hafter s x _ hr, hafter s' x' _ hr']
  exact E.view.kind_eq (congrArg Prod.fst (h.front_append hc))

theorem next (h : E.Streams s s') (hk : Inside s.kind) :
    E.Streams s.next s'.next := by
  obtain ⟨x, x', c, c', hr, hr', hx, hc, hpipe⟩ := h.exists_cons hk
  have hn : s.next = { s with rest := c ++ E.behind, previous := some x.2 } := by
    rw [TokenStream.next, hr]
  have hn' : s'.next = { s' with rest := c' ++ E.behind', previous := some x'.2 } := by
    rw [TokenStream.next, hr']
  have hvalid := h.valid.reads s.reads_next
  have hvalid' := h.valid'.reads s'.reads_next
  have hlow : E.low ≤ s.next.position := by
    have hprev : s.next.previous = some x.2 := by rw [hn]
    have hlt := hvalid.previous_lt_position hprev
    have hx : s.position = x.2 := by simp [TokenStream.position, hr]
    have := h.low
    omega
  have hprevious : s.next.previous.map (· + E.left) = s'.next.previous.map (· + E.right) := by
    rw [hn, hn']
    exact congrArg some (congrArg Prod.snd hx)
  refine ⟨hvalid, hvalid', ⟨c, c', by rw [hn], by rw [hn'], hc, hpipe⟩, ?_, ?_, ?_, hlow, hprevious,
    ?_, ?_⟩ <;> rw [hn]
  · rw [hn']
    exact h.front
  · exact h.ends
  · exact h.high
  · rw [hn']
    exact h.texts
  · rw [hn']
    exact h.limit

/-- Whatever was read since a place in the stage, its span is the same up to the move. -/
theorem spanFrom {u u' : Grammar.State} (h : E.Streams u.stream u'.stream) {i i' : Nat}
    (hi : E.Position i i') :
    (u.spanFrom i).moved E.left = (u'.spanFrom i').moved E.right := by
  have hprevious := h.previous
  have heq := hi.eq
  unfold Grammar.State.spanFrom
  cases hp : u.stream.previous with
  | none =>
    have hp' : u'.stream.previous = none := by simpa [hp] using hprevious.symm
    simp [hp', Span.moved, heq]
  | some j =>
    obtain ⟨j', hp', hj⟩ : ∃ j', u'.stream.previous = some j' ∧ j' + E.right = j + E.left := by
      simpa [hp] using hprevious.symm
    simp only [hp', Span.moved, Span.mk.injEq]
    omega

/-- The text of the stage between two places is the same. -/
theorem textBetween (h : E.Streams s s') {i i' j j' : Nat} (hi : E.Position i i')
    (hj : E.Position j j') : s.textBetween i j = s'.textBetween i' j' := by
  have hshown : s.endToken.shown = s'.endToken.shown := by
    simp [Token.shown, Token.isEnd, h.valid.kind_endToken, h.valid'.kind_endToken]
  have hlast : E.Position (max i j) (max i' j') := by
    have := hi.eq
    have := hj.eq
    exact ⟨by omega, Nat.le_trans hi.low_le (Nat.le_max_left ..),
      Nat.max_le.2 ⟨hi.le_high, hj.le_high⟩⟩
  have heq := hi.eq
  have hlasteq := hlast.eq
  have hhigh := hlast.le_high
  have hlimit := h.limit
  have hstop : min (max i j + 1) s.limit + E.left = min (max i' j' + 1) s'.limit + E.right := by
    omega
  have hend : s.limit ≤ max i j ↔ s'.limit ≤ max i' j' := by omega
  have htexts : (s.tokens.extract i (min (max i j + 1) s.limit)).map Token.text
      = (s'.tokens.extract i' (min (max i' j' + 1) s'.limit)).map Token.text := by
    apply List.ext_getElem?
    intro k
    simp only [List.extract_eq_take_drop, List.getElem?_map, List.getElem?_take, List.getElem?_drop]
    by_cases hk : k < min (max i j + 1) s.limit - i
    · have hk' : k < min (max i' j' + 1) s'.limit - i' := by omega
      rw [if_pos hk, if_pos hk']
      exact h.texts _ _ ⟨by omega, Nat.le_trans hi.low_le (Nat.le_add_right ..), by omega⟩
        (by omega)
    · have hk' : ¬ k < min (max i' j' + 1) s'.limit - i' := by omega
      rw [if_neg hk, if_neg hk']
  unfold TokenStream.textBetween
  simp only [htexts, hshown, hend]

/-- What stands behind the stage is left in both texts, or in none. -/
theorem remaining (h : E.Streams s s') :
    E.behind.length ≤ s.remaining ∧ E.behind'.length ≤ s'.remaining ∧
      (s.remaining = s'.remaining ∨ 0 < E.behind.length ∧ 0 < E.behind'.length) := by
  obtain ⟨c, c', hr, hr', hc, -⟩ := h.stage
  have hlen : c.length = c'.length := by simpa using congrArg List.length hc
  have hkind : (s.front E.behind).1.kind = (s'.front E.behind').1.kind :=
    E.view.kind_eq (congrArg Prod.fst h.front)
  have hend := h.valid.kind_endToken
  have hend' := h.valid'.kind_endToken
  unfold TokenStream.remaining
  rw [hr, hr', List.length_append, List.length_append]
  refine ⟨by omega, by omega, ?_⟩
  cases hb : E.behind with
  | nil =>
    cases hb' : E.behind' with
    | nil => exact .inl (by simpa using hlen)
    | cons x' d' =>
      have hx : x' ∈ s'.rest := by simp [hr', hb']
      rw [hb, hb'] at hkind
      exact absurd (hkind.symm.trans hend) (h.valid'.kind_ne_endOfInput hx)
  | cons x d =>
    cases hb' : E.behind' with
    | nil =>
      have hx : x ∈ s.rest := by simp [hr, hb]
      rw [hb, hb'] at hkind
      exact absurd (hkind.trans hend') (h.valid.kind_ne_endOfInput hx)
    | cons x' d' => exact .inr ⟨by simp, by simp⟩

end Streams

/-! ## States -/

/-- The states agree on what the rules of the grammar depend on, and on what was reported in the
stage. -/
structure States (E : Pairing) (s s' : State) : Prop where
  /-- The streams agree. -/
  streams : E.Streams s.stream s'.stream
  /-- The texts are read in the same way. -/
  config : s'.config = s.config
  /-- Reading goes on behind mistakes. -/
  recover : s.config.recover = true
  /-- The rules stand in the same place. -/
  scope : s'.scope = s.scope
  /-- Reports are held back in both or in none. -/
  recovering : s'.recovering = s.recovering
  /-- The first reading goes on. -/
  halted : s.halted = false
  /-- The second reading goes on. -/
  halted' : s'.halted = false
  /-- The same was reported since the beginning of the stage. -/
  diagnostics : ∃ ds ds', s.diagnostics.toList = E.reported ++ ds ∧
    s'.diagnostics.toList = E.reported' ++ ds' ∧
    ds.map (Diagnostic.moved E.view.seen) = ds'.map (Diagnostic.moved E.view.seen)

namespace States

variable {s s' : State}

theorem kind (h : E.States s s') : s.kind = s'.kind := h.streams.kind

theorem position (h : E.States s s') : E.Position s.position s'.position := h.streams.position

theorem current (h : E.States s s') : E.view.seen s.current = E.view.seen s'.current :=
  h.streams.current

theorem bump (h : E.States s s') (hk : Inside s.kind) :
    E.States s.bump s'.bump :=
  ⟨h.streams.next hk, h.config, h.recover, h.scope, rfl, h.halted, h.halted', h.diagnostics⟩

theorem skip (h : E.States s s') (hk : Inside s.kind) :
    E.States s.skip s'.skip :=
  ⟨h.streams.next hk, h.config, h.recover, h.scope, h.recovering, h.halted, h.halted',
    h.diagnostics⟩

theorem note (h : E.States s s') (e e' : Event) : E.States (s.note e) (s'.note e') :=
  ⟨h.streams, h.config, h.recover, h.scope, h.recovering, h.halted, h.halted', h.diagnostics⟩

theorem record (h : E.States s s') (kind : Kind) (span span' : Span) :
    E.States (s.record kind span) (s'.record kind span') :=
  ⟨h.streams, h.config, h.recover, h.scope, h.recovering, h.halted, h.halted', h.diagnostics⟩

theorem inScope (h : E.States s s') (scope : Scope) :
    E.States { s with scope := scope } { s' with scope := scope } :=
  ⟨h.streams, h.config, h.recover, rfl, h.recovering, h.halted, h.halted', h.diagnostics⟩

theorem report (h : E.States s s') {d d' : Diagnostic}
    (hd : d.moved E.view.seen = d'.moved E.view.seen) : E.States (s.report d) (s'.report d') := by
  rw [State.report, State.report, h.recovering]
  split
  · exact h.note _ _
  · obtain ⟨ds, ds', hr, hr', hds⟩ := h.diagnostics
    refine ⟨h.streams, h.config, h.recover, h.scope, rfl, ?_, ?_, ds ++ [d], ds' ++ [d'], ?_, ?_, ?_⟩
    · simp [h.halted, h.recover]
    · simp [h.halted', h.config, h.recover]
    · simp [hr]
    · simp [hr']
    · simp [hds, hd]

theorem blame (h : E.States s s') (cause : Diagnostic.Cause) :
    E.States (s.blame cause) (s'.blame cause) := by
  refine h.report ?_
  rw [Diagnostic.moved, Diagnostic.moved, h.current]

end States

/-- States that agree on a stage are linked. -/
def link (E : Pairing) : Link where
  view := E.view.seen
  values := True
  left := Span.moved E.left
  right := Span.moved E.right
  spell := id
  behind := E.behind.length
  behind' := E.behind'.length
  States := E.States
  Stopped := E.States
  Position := E.Position
  kind_of_view h := E.view.kind_eq h
  text_of_view h _ := E.view.text_eq h
  toLower_of_spell h := congrArg String.toLower h
  operator_of_view h _ := congrArg ComparisonOp.ofText? (E.view.text_eq h)
  comparison_of_view h _ := by rw [E.view.text_eq h]
  valid h := h.streams.valid
  valid' h := h.streams.valid'
  current h := h.current
  kindAfter h hk := h.streams.kindAfter hk
  config h := h.config
  scope h := h.scope
  position h := h.position
  span h _ _ hi _ := h.streams.spanFrom hi
  remaining h := h.streams.remaining
  bump h hk := h.bump hk
  skip h hk := h.skip hk
  note h e e' := h.note e e'
  record h kind span span' := h.record kind span span'
  inScope h scope := h.inScope scope
  stoppedInScope h scope := h.inScope scope
  delete h hb _ _ := ((h.note _ _).blame _).skip (by
    rw [State.kind, State.blame, State.stream_report]
    exact Link.inside_of_not_atBoundary hb)
  insert h _ _ := (h.note _ _).blame _
  stop h cause := h.blame cause
  noViable h i i' hi expected := by
    refine h.report ?_
    rw [h.streams.textBetween hi h.position, Diagnostic.moved, Diagnostic.moved, h.current]
  unknown h hk := by
    refine (h.bump (hk ▸ ⟨by decide, by decide⟩)).report ?_
    rw [Diagnostic.moved, Diagnostic.moved, h.current]

/-- The states agree behind rules with the same outcome, whether they have given up or not. -/
theorem states_of_outcome {α β : Type} {V : α → β → Prop} {x : Option α × State}
    {x' : Option β × State} (h : E.link.Outcome V x x') : E.States x.2 x'.2 := by
  cases h with
  | answer _ ht => exact ht
  | stop ht => exact ht

end Pairing

end PipeQuery
