import PipeQuery.Proofs.Lawful
import PipeQuery.Proofs.Spelling

/-!
# Runs that repair mistakes

What a rule answers it has made out of tokens, be there mistakes or not: of tokens that it matched,
and of tokens that stand in for those that were missing (`Token.Spare`). `s.Gives us t` says that
the tokens `us` are of these two sorts in a run from the state `s` to the state `t`. Tokens that were
passed over are not among them.

`r.Makes s Q` says that whatever the rule `r` answers from the state `s`, it makes out of tokens of
which `Q` holds. There is one lemma for each way of putting rules together, so that it is shown for a
rule along its definition.
-/

namespace PipeQuery

/-- The truth value that stands for one that is missing. -/
def Token.falsehood : Token := ⟨.boolean, "false", 0, 0, 0, 0⟩

/-- Whether the tokens of a kind are leaves of the tree, which keeps their texts: names, numbers and
strings. -/
def Kind.isLeaf : Kind → Bool
  | integer | decimal | string => true
  | k => k.isName

theorem Kind.isLeaf_of_isName {k : Kind} (h : k.isName = true) : k.isLeaf = true := by
  revert h
  cases k <;> decide

/-- A token that stands in for a missing one: it has the one text of its kind, or it is a truth value,
or it was taken for granted where a name, a number or a string was expected. -/
inductive Token.Spare : Token → Prop
  | fixed {t : Token} (h : t.kind.fixedText? = some t.text) : Spare t
  | falsehood : Spare falsehood
  | conjured (expected : KindSet) (t : Token) (h : (Token.conjured expected t).kind.isLeaf = true) :
    Spare (Token.conjured expected t)

/-- The kind of a token that is taken for granted is among the expected ones. -/
theorem Token.kind_conjured_mem {expected : KindSet} {k : Kind} (h : k ∈ expected) (t : Token) :
    (Token.conjured expected t).kind ∈ expected := by
  obtain ⟨k, ks, hks⟩ := List.exists_cons_of_ne_nil (List.ne_nil_of_mem (KindSet.mem_members.2 h))
  have hkind : (Token.conjured expected t).kind = k := by simp [Token.conjured, hks]
  rw [hkind, ← KindSet.mem_members, hks]
  exact List.mem_cons_self ..

namespace Grammar

open Rule

variable {α β : Type} {s t u : State} {us vs : List Placed}

/-- The tokens were matched from one state to another, or they stand in for missing ones. -/
structure State.Gives (s : State) (us : List Placed) (t : State) : Prop where
  /-- The run consists of steps. -/
  steps : s.Steps true t
  /-- The tokens are among those that were read, unless they stand in for missing ones. -/
  tokens : ∃ ps, s.stream.Reads ps t.stream ∧ ∀ x ∈ us, x ∈ ps ∨ x.1.Spare

namespace State.Gives

theorem of_steps (h : s.Steps true t) : s.Gives [] t := by
  obtain ⟨ps, hps⟩ := h.reads
  exact ⟨h, ps, hps, by simp⟩

theorem refl (s : State) : s.Gives [] s := .of_steps .refl

theorem trans (h : s.Gives us t) (k : t.Gives vs u) : s.Gives (us ++ vs) u := by
  obtain ⟨ps, hps, hus⟩ := h.tokens
  obtain ⟨qs, hqs, hvs⟩ := k.tokens
  refine ⟨h.steps.trans k.steps, ps ++ qs, hps.trans hqs, fun x hx => ?_⟩
  rcases List.mem_append.1 hx with hx | hx
  · exact (hus x hx).imp_left (List.mem_append_left _)
  · exact (hvs x hx).imp_left (List.mem_append_right _)

/-- A token that stands in for a missing one. -/
theorem spare (h : s.Steps true t) {x : Placed} (hx : x.1.Spare) : s.Gives [x] t := by
  obtain ⟨ps, hps⟩ := h.reads
  refine ⟨h, ps, hps, fun y hy => .inr ?_⟩
  rwa [List.mem_singleton.1 hy]

/-- Away from the end of the input the next token is read. -/
theorem of_next (hs : s.Regular) (hk : s.kind ≠ .endOfInput) (ht : t.stream = s.stream.next)
    (h : s.Steps true t) : ∃ x : Placed, x.1 = s.current ∧ s.Gives [x] t := by
  have hreads := s.stream.reads_next
  have hkind := hs.valid.kind_eq
  cases hr : s.stream.rest with
  | nil =>
    rw [hr] at hkind
    exact absurd hkind hk
  | cons x rest =>
    rw [hr, ← ht] at hreads
    refine ⟨x, by rw [State.current, TokenStream.current, hr], h, [x], hreads, ?_⟩
    exact fun y hy => .inl hy

theorem bump (hs : s.Regular) (hk : s.kind ≠ .endOfInput) :
    ∃ x : Placed, x.1 = s.current ∧ s.Gives [x] s.bump := of_next hs hk rfl (.single (.bump s))

theorem scope (h : s.Gives us t) : t.scope = s.scope := h.steps.scope

theorem regular (h : s.Gives us t) (hs : s.Regular) : t.Regular := h.steps.regular hs

theorem inScope (h : s.Gives us t) (scope : Scope) :
    ({ s with scope := scope } : State).Gives us { t with scope := scope } :=
  ⟨h.steps.inScope scope, h.tokens⟩

end State.Gives

/-- Whatever a rule answers it makes out of tokens that are as `Q` says. -/
def Rule.Makes (r : Rule α) (s : State) (Q : α → List Placed → State → Prop) : Prop :=
  s.Regular → ∀ a t, r.run s = (some a, t) → ∃ us, s.Gives us t ∧ Q a us t

namespace Rule.Makes

variable {r : Rule α} {P Q : α → List Placed → State → Prop} {R : β → List Placed → State → Prop}

theorem mono (h : r.Makes s P) (hPQ : ∀ a us t, s.Gives us t → P a us t → Q a us t) :
    r.Makes s Q := by
  intro hs a t hrun
  obtain ⟨us, hgives, hP⟩ := h hs a t hrun
  exact ⟨us, hgives, hPQ a us t hgives hP⟩

/-- What is known of the state in front of a rule. -/
theorem of_regular (h : s.Regular → r.Makes s Q) : r.Makes s Q := fun hs => h hs hs

theorem pure {a : α} (h : Q a [] s) : (Pure.pure a : Rule α).Makes s Q := by
  intro _ b t hrun
  simp only [run_pure, Prod.mk.injEq, Option.some.injEq] at hrun
  obtain ⟨rfl, rfl⟩ := hrun
  exact ⟨[], .refl s, h⟩

theorem giveUp {f : State → State} : (Rule.giveUp f : Rule α).Makes s Q := by
  intro _ a t hrun
  simp at hrun

theorem bind {f : α → Rule β} (hr : r.Makes s P)
    (hf : ∀ a us t, s.Gives us t → P a us t → (f a).Makes t fun b vs u => R b (us ++ vs) u) :
    (r >>= f).Makes s R := by
  intro hs b u hrun
  obtain ⟨a, t, hra, hrun⟩ := run_bind_eq_some.1 hrun
  obtain ⟨us, hus, hP⟩ := hr hs a t hra
  obtain ⟨vs, hvs, hR⟩ := hf a us t hus hP (hus.regular hs) b u hrun
  exact ⟨us ++ vs, hus.trans hvs, hR⟩

/-- A rule whose value is put into another one. -/
theorem bind_pure {g : α → β} (hr : r.Makes s fun a us t => R (g a) us t) :
    (r >>= fun a => Pure.pure (g a)).Makes s R :=
  hr.bind fun a us t _ hR => .pure (by simpa using hR)

theorem map {g : α → β} (hr : r.Makes s fun a us t => R (g a) us t) : (g <$> r).Makes s R :=
  bind_pure hr

theorem ask_bind {f : State → α} {g : α → Rule β} (h : (g (f s)).Makes s R) :
    (ask f >>= g).Makes s R := fun hs b t hrun => h hs b t hrun

/-- A rule whose value depends on the state behind it. -/
theorem bind_ask {g : α → State → β} (hr : r.Makes s fun a us t => R (g a t) us t) :
    (r >>= fun a => ask (g a)).Makes s R :=
  hr.bind fun a us t _ hR => by
    intro _ b u hrun
    simp only [run_ask, Prod.mk.injEq, Option.some.injEq] at hrun
    obtain ⟨rfl, rfl⟩ := hrun
    exact ⟨[], .refl t, by simpa using hR⟩

theorem change {f : State → State} {Q : Unit → List Placed → State → Prop} (hf : s.Steps true (f s))
    (h : Q () [] (f s)) : (Rule.change f).Makes s Q := by
  intro _ a t hrun
  simp only [run_change, Prod.mk.injEq, true_and] at hrun
  subst hrun
  exact ⟨[], .of_steps hf, h⟩

/-- A rule whose value takes the span of its tokens. -/
theorem spanned {r : Rule (Span → α)} (h : r.Makes s fun f us t => ∀ span, Q (f span) us t) :
    (Grammar.spanned r).Makes s Q :=
  .ask_bind (.bind_ask (h.mono fun _ _ _ _ hQ => hQ _))

theorem within {scope : Scope → Scope}
    (h : r.Makes { s with scope := scope s.scope } fun a us t => Q a us { t with scope := s.scope }) :
    (Rule.within scope r).Makes s Q := by
  intro hs a t hrun
  change ((r.run { s with scope := scope s.scope }).1,
    { (r.run { s with scope := scope s.scope }).2 with scope := s.scope }) = (some a, t) at hrun
  rw [Prod.mk.injEq] at hrun
  obtain ⟨ha, rfl⟩ := hrun
  obtain ⟨us, hus, hQ⟩ := h ⟨hs.valid, hs.recovering, hs.halted⟩ a _ (Prod.ext ha rfl)
  exact ⟨us, hus.inScope s.scope, hQ⟩

end Rule.Makes

/-! ## Tokens -/

variable {kind : Kind} {expected : KindSet}

/-- Away from the end of the input the next token is matched. -/
theorem makes_take (hk : s.kind ≠ .endOfInput) :
    take.Makes s fun token us t =>
      token = s.current ∧ t = s.bump ∧ ∃ x : Placed, us = [x] ∧ x.1 = token := by
  intro hs token t hrun
  simp only [run_take, Prod.mk.injEq, Option.some.injEq] at hrun
  obtain ⟨rfl, rfl⟩ := hrun
  obtain ⟨x, hx, hgives⟩ := State.Gives.bump hs hk
  exact ⟨[x], hgives, rfl, rfl, x, rfl, hx⟩

/-- A token of an expected kind is matched, or taken for granted. Where one stands in front it is
matched. -/
theorem makes_expectAny_or (hne : kind ∈ expected) (he : .endOfInput ∉ expected) :
    (expectAny expected).Makes s fun token us t =>
      (token.kind ∈ expected ∧ (s.kind ∈ expected → t = s.bump) ∧
          ∃ x : Placed, us = [x] ∧ x.1 = token) ∨
        us = [] ∧ token.kind ∈ expected ∧ s.kind ∉ expected ∧
          ∃ u, token = Token.conjured expected u := by
  intro hs token t hrun
  have hmatch {u : State} (hsteps : s.Steps true u) (hu : u.kind ∈ expected) :
      ∃ x : Placed, x.1 = u.current ∧ s.Gives [x] u.bump := by
    have hend : u.kind ≠ .endOfInput := fun heq => he (heq ▸ hu)
    obtain ⟨x, hx, hgives⟩ := State.Gives.bump (hsteps.regular hs) hend
    exact ⟨x, hx, (State.Gives.of_steps hsteps).trans hgives⟩
  obtain ⟨hk, h⟩ | ⟨hk, -, -, ha, h⟩ | ⟨hk, -, -, h⟩ | ⟨-, -, h⟩ := expectAny_cases expected s <;>
    rw [h] at hrun
  · obtain ⟨rfl, rfl⟩ : s.current = token ∧ s.bump = t := by simpa using hrun
    obtain ⟨x, hx, hgives⟩ := hmatch .refl hk
    exact ⟨[x], hgives, .inl ⟨hk, fun _ => rfl, x, rfl, hx⟩⟩
  · generalize hu : ((s.note (.deleting s.current)).blame (.extraneous expected)).skip = u at hrun
    obtain ⟨rfl, rfl⟩ : u.current = token ∧ u.bump = t := by simpa using hrun
    have hsteps : s.Steps true u := by
      rw [← hu]
      exact ((Relation.ReflTransGen.single (.note s _)).tail (.report _ _)).tail (.skip _)
    have hkind : u.kind = s.kindAfter := by
      have hstream : u.stream = s.stream.next := by
        rw [← hu, State.skip, State.blame, State.stream_report]
        rfl
      rw [State.kindAfter, TokenStream.lookahead_succ, State.kind, hstream]
      rfl
    obtain ⟨x, hx, hgives⟩ := hmatch hsteps (hkind ▸ ha)
    exact ⟨[x], hgives, .inl ⟨(hkind ▸ ha : u.kind ∈ expected), fun hmem => absurd hmem hk, x, rfl,
      hx⟩⟩
  · simp only [Prod.mk.injEq, Option.some.injEq] at hrun
    obtain ⟨rfl, rfl⟩ := hrun
    have hsteps : s.Steps true ((s.note (.inserting expected s.current)).blame (.missing expected)) :=
      (Relation.ReflTransGen.single (.note s _)).tail (.report _ _)
    exact ⟨[], .of_steps hsteps, .inr ⟨rfl, Token.kind_conjured_mem hne _, hk, _, rfl⟩⟩
  · simp at hrun

/-- Where a token is missing, another one stands in for it. -/
theorem Rule.Makes.stand_in {r : Rule α} {Q : α → List Placed → State → Prop}
    {R : α → State → Prop} (h : r.Makes s fun a us t => Q a us t ∨ us = [] ∧ R a t)
    (hspare : ∀ a t, R a t → ∃ x : Placed, x.1.Spare ∧ Q a [x] t) : r.Makes s Q := by
  intro hs a t hrun
  obtain ⟨us, hgives, hQ | ⟨rfl, hR⟩⟩ := h hs a t hrun
  · exact ⟨us, hgives, hQ⟩
  · obtain ⟨x, hx, hQ⟩ := hspare a t hR
    exact ⟨[x], .spare hgives.steps hx, hQ⟩

/-- A leaf of the tree is matched, or taken for granted. -/
theorem makes_expectAny (hne : kind ∈ expected) (hleaf : ∀ k ∈ expected, k.isLeaf = true) :
    (expectAny expected).Makes s fun token us t =>
      token.kind ∈ expected ∧ (s.kind ∈ expected → t = s.bump) ∧
        ∃ x : Placed, us = [x] ∧ x.1 = token := by
  have he : .endOfInput ∉ expected := fun hmem => absurd (hleaf _ hmem) (by decide)
  refine (makes_expectAny_or hne he).stand_in ?_
  rintro token t ⟨hmem, hnot, u, rfl⟩
  exact ⟨(_, 0), .conjured expected u (hleaf _ hmem), hmem, fun h => absurd h hnot, _, rfl, rfl⟩

/-- A token of a kind with one text. -/
theorem makes_expect {text : String} (hfixed : kind.fixedText? = some text) :
    (expect kind).Makes s fun _ us _ => ∃ x : Placed, us = [x] ∧ x.1.kind = kind := by
  have he : kind ≠ .endOfInput := by
    rintro rfl
    cases hfixed
  have hspare : Token.Spare ⟨kind, text, 0, 0, 0, 0⟩ := .fixed hfixed
  refine ((makes_expectAny_or (KindSet.mem_singleton.2 (rfl : kind = kind))
    (by simpa using he.symm)).mono (Q := fun _ us _ =>
      (∃ x : Placed, us = [x] ∧ x.1.kind = kind) ∨ us = [] ∧ True) ?_).stand_in
    fun _ _ _ => ⟨(_, 0), hspare, _, rfl, rfl⟩
  rintro token us t - (⟨hmem, -, x, rfl, rfl⟩ | ⟨rfl, -⟩)
  · exact .inl ⟨x, rfl, KindSet.mem_singleton.1 hmem⟩
  · exact .inr ⟨rfl, trivial⟩

/-! ## Optional parts and lists -/

/-- An optional token is matched, or it does not stand there. -/
theorem makes_accept (hk : kind ≠ .endOfInput) :
    (accept kind).Makes s fun token us t => match token with
      | some token =>
        token.kind = kind ∧ t = s.bump ∧ s.bump.stream.remaining < s.stream.remaining ∧
          ∃ x : Placed, us = [x] ∧ x.1 = token
      | none => us = [] := by
  refine .of_regular fun hs => ?_
  unfold accept
  refine .ask_bind ?_
  split
  · next h =>
    have hkind : s.kind = kind := eq_of_beq h
    refine .bind_pure ((makes_take (hkind ▸ hk)).mono ?_)
    rintro token us t - ⟨rfl, ht, hx⟩
    exact ⟨hkind, ht, remaining_bump_lt hs.valid (hkind ▸ hk), hx⟩
  · exact .pure rfl

/-- An optional part is made behind its token, or the token does not stand there. -/
theorem makes_behind {r : Rule α} {Q : α → List Placed → State → Prop} (hk : kind ≠ .endOfInput)
    (hr : ∀ u, u.scope = s.scope → r.Makes u Q) :
    (behind kind r).Makes s fun o us t => match o with
      | some a =>
        t.stream.remaining < s.stream.remaining ∧
          ∃ (x : Placed) (vs : List Placed), us = x :: vs ∧ x.1.kind = kind ∧ Q a vs t
      | none => us = [] := by
  refine .of_regular fun hs => ?_
  unfold behind
  refine (makes_accept hk).bind fun o us t hgives ho => ?_
  cases o with
  | some token =>
    obtain ⟨hkind, rfl, hlt, x, rfl, rfl⟩ := ho
    refine .bind_pure ((hr _ hgives.scope).mono fun a vs u hu ha => ⟨?_, x, vs, rfl, hkind, ha⟩)
    exact Nat.lt_of_le_of_lt (remaining_le_of_steps hu.steps) hlt
  | none =>
    obtain rfl : us = [] := ho
    exact .pure rfl

/-- What each value keeps is kept by the repetition of a rule, each of whose values takes a token. The
repetition ends where there is no value, or at the end of the input. -/
theorem makes_upTo {r : Rule (Option α)} {I : List α → List Placed → State → Prop}
    (stop : State → Prop) (hend : ∀ u : State, u.kind = .endOfInput → stop u)
    (hstep : ∀ as us u, s.Gives us u → I as us u → r.Makes u fun o vs t => match o with
      | some a => t.stream.remaining < u.stream.remaining ∧ I (as ++ [a]) (us ++ vs) t
      | none => I as (us ++ vs) t ∧ stop t) (n : Nat) :
    ∀ as us u, s.Gives us u → I as us u → u.stream.remaining ≤ n →
      (upTo r n as.reverse).Makes u fun bs vs t => I bs (us ++ vs) t ∧ stop t := by
  induction n with
  | zero =>
    intro as us u _ hI hn
    have hrest : u.stream.rest = [] := List.length_eq_zero_iff.1 (Nat.le_zero.1 hn)
    refine .of_regular fun hu => .pure ⟨by simpa using hI, hend u ?_⟩
    exact hu.valid.kind_eq_endOfInput_iff.2 hrest
  | succ n ih =>
    intro as us u hu hI hn
    rw [upTo_succ]
    refine (hstep as us u hu hI).bind fun o vs t ht ho => ?_
    cases o with
    | none => exact .pure (by simpa using ho)
    | some a =>
      obtain ⟨hlt, hI⟩ := ho
      have hrest := ih (as ++ [a]) (us ++ vs) t (hu.trans ht) hI (by omega)
      rw [List.reverse_append] at hrest
      refine hrest.mono fun bs ws v _ hI => ?_
      rwa [← List.append_assoc]

theorem makes_many {r : Rule (Option α)} {I : List α → List Placed → State → Prop}
    (stop : State → Prop) (hend : ∀ u : State, u.kind = .endOfInput → stop u)
    (hstep : ∀ as us u, s.Gives us u → I as us u → r.Makes u fun o vs t => match o with
      | some a => t.stream.remaining < u.stream.remaining ∧ I (as ++ [a]) (us ++ vs) t
      | none => I as (us ++ vs) t ∧ stop t) (hs : I [] [] s) :
    (many r).Makes s fun as us t => I as us t ∧ stop t :=
  fun hreg as t hrun =>
    makes_upTo stop hend hstep s.stream.remaining [] [] s (.refl s) hs (Nat.le_refl _) hreg as t hrun

/-- The elements of a list behind its first one are made one by one, each behind its separator. -/
theorem makes_many_behind {r : Rule α} {f : α → β} {D : β → List Placed → Prop} {b : β}
    (hk : kind ≠ .endOfInput)
    (hr : ∀ u, u.scope = s.scope → r.Makes u fun a us _ => D (f a) us) (hb : D b us) :
    (many (behind kind r)).Makes s fun as vs _ => Separated kind D (b :: as.map f) (us ++ vs) := by
  refine (makes_many (I := fun as vs _ => Separated kind D (b :: as.map f) (us ++ vs))
    (fun _ => True) (fun _ _ => trivial) (fun as vs u hu hI => ?_)
    (by simpa using Separated.one hb)).mono fun as vs u _ h => h.1
  refine (makes_behind hk fun v hv => hr v (hv.trans hu.scope)).mono fun o ws v _ ho => ?_
  cases o with
  | some a =>
    obtain ⟨hlt, x, ws, rfl, hx, ha⟩ := ho
    have happend := hI.append hx (.one ha)
    exact ⟨hlt, by simpa using happend⟩
  | none =>
    obtain rfl : ws = [] := ho
    exact ⟨by simpa using hI, trivial⟩

/-- The elements of a list are made one by one, with separators between them. -/
theorem makes_separated {r : Rule α} {D : α → List Placed → Prop} (hk : kind ≠ .endOfInput)
    (hr : ∀ u, u.scope = s.scope → r.Makes u fun a us _ => D a us) :
    (separated kind r).Makes s fun as us _ => Separated kind D as us := by
  unfold separated
  refine (hr s rfl).bind fun a us t ht ha => .bind_pure ?_
  refine (makes_many_behind (f := id) hk (fun u hu => hr u (hu.trans ht.scope)) ha).mono
    fun as vs u _ h => ?_
  rwa [List.map_id] at h

/-- What stands in parentheses is made between them. -/
theorem makes_parenthesised {r : Rule α} {D : α → List Placed → Prop}
    (hr : ∀ u, u.scope = s.scope → r.Makes u fun a us _ => D a us) :
    (parenthesised r).Makes s fun a us _ => ∃ (x y : Placed) (vs : List Placed),
      us = x :: (vs ++ [y]) ∧ x.1.kind = .leftParen ∧ y.1.kind = .rightParen ∧ D a vs := by
  unfold parenthesised
  refine (makes_expect rfl).bind fun _ us t ht hopen => ?_
  obtain ⟨x, rfl, hx⟩ := hopen
  refine (hr t ht.scope).bind fun a vs u _ ha => ?_
  refine .bind_pure ((makes_expect rfl).mono fun _ ws v _ hclose => ?_)
  obtain ⟨y, rfl, hy⟩ := hclose
  exact ⟨x, y, vs, rfl, hx, hy, ha⟩

end Grammar

end PipeQuery
