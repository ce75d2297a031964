import PipeQuery.Ast.Text
import PipeQuery.Proofs.Spelling

/-!
# What is printed

`Printed ts text` says that a text is the tokens `ts` in print: each token is as `Token.written`
has it, and between two neighbours there is one blank, or nothing where their kinds may touch
(`Kind.Touches`). The text of every phrase is its tokens in print (`Yields.printed`). So nothing but
single blanks and the case of words is left to printing, and no parenthesis is added or lost.

The proof goes over the items of a phrase. `Written items ts` puts in place of each phrase among the
items the tokens of its text, so each kind of phrase is settled by itself.
-/

namespace PipeQuery

/-! ## Tokens in print -/

/-- Whether two tokens may stand side by side in print without a blank between them. -/
def Kind.Touches (k l : Kind) : Prop :=
  k ∈ [leftParen, leftBracket, plus, minus] ∨ l ∈ [comma, leftParen, rightParen, rightBracket] ∨
    k ∈ [identifier, quotedIdentifier] ∧ l = dot ∨ k = dot ∧ l ∈ [identifier, quotedIdentifier]

/-- The text is the tokens in print. -/
inductive Printed : List Token → String → Prop
  | one (t : Token) : Printed [t] t.written
  | blank {t : Token} {ts : List Token} {text : String} (rest : Printed ts text) :
    Printed (t :: ts) (t.written ++ (" " ++ text))
  | touch {t u : Token} {ts : List Token} {text : String} (touches : t.kind.Touches u.kind)
    (rest : Printed (u :: ts) text) : Printed (t :: u :: ts) (t.written ++ text)

namespace Printed

variable {t u : Token} {ts us : List Token} {w text text' : String}

theorem single (ht : t.written = w) : Printed [t] w := by
  rw [← ht]
  exact .one t

/-- A word in front, and a blank. -/
theorem word (ht : t.written = w) (rest : Printed ts text) :
    Printed (t :: ts) (w ++ (" " ++ text)) := by
  rw [← ht]
  exact .blank rest

/-- An opening token or a sign in front. -/
theorem opening (ht : t.written = w) (hk : t.kind ∈ [Kind.leftParen, .leftBracket, .plus, .minus])
    (rest : Printed ts text) : Printed (t :: ts) (w ++ text) := by
  rw [← ht]
  cases ts with
  | nil => cases rest
  | cons u us => exact .touch (.inl hk) rest

theorem append_blank (h : Printed ts text) (rest : Printed us text') :
    Printed (ts ++ us) (text ++ (" " ++ text')) := by
  induction h with
  | one t => exact .blank rest
  | blank _ ih =>
    rw [String.append_assoc, String.append_assoc]
    exact .blank ih
  | touch touches _ ih =>
    rw [String.append_assoc]
    exact .touch touches ih

/-- A closing token or an opening parenthesis behind. -/
theorem append_closing (h : Printed ts text) (rest : Printed (u :: us) text')
    (hk : u.kind ∈ [Kind.comma, .leftParen, .rightParen, .rightBracket]) :
    Printed (ts ++ u :: us) (text ++ text') := by
  induction h with
  | one t => exact .touch (.inr (.inl hk)) rest
  | blank _ ih =>
    rw [String.append_assoc, String.append_assoc]
    exact .blank ih
  | touch touches _ ih =>
    rw [String.append_assoc]
    exact .touch touches ih

end Printed

/-! ## Lists of texts -/

@[simp] theorem commaSeparated_nil : commaSeparated [] = "" := String.intercalate_nil

@[simp] theorem commaSeparated_singleton (text : String) : commaSeparated [text] = text :=
  String.intercalate_singleton

theorem commaSeparated_cons_cons (text text' : String) (texts : List String) :
    commaSeparated (text :: text' :: texts)
      = text ++ ("," ++ (" " ++ commaSeparated (text' :: texts))) := by
  have hcomma : (", " : String) = "," ++ " " := rfl
  rw [commaSeparated, String.intercalate_cons_cons, String.append_assoc, hcomma,
    String.append_assoc]
  rfl

/-! ## Items in print -/

/-- A phrase as query text. -/
def Phrase.text : Phrase → String
  | query q => q.text
  | sourceCommand c => c.text
  | processingCommand c => c.text
  | field f => f.text
  | renameClause c => c.text
  | commandOption o => o.text
  | sortKey k => k.text
  | enrichClause c => c.text
  | boolean e => e.text
  | value v => v.text
  | operator e => e.text
  | primary p => p.text
  | scalarArgument a => a.text
  | fieldArgument a => a.text
  | predicateCall c => c.text
  | timeSpan t => t.text
  | constant c => c.text
  | number n => n.raw
  | string s => s.raw
  | truthValue b => b.text
  | qualifiedName q => q.text
  | identifier i => i.raw

/-- The tokens are those of a phrase in print. An identifier is a single token. -/
structure Phrase.Prints (p : Phrase) (ts : List Token) : Prop where
  text : Printed ts p.text
  single (i : Identifier) (h : p = .identifier i) :
    ∃ x, ts = [x] ∧ x.kind = i.kind ∧ x.written = i.raw

/-- The tokens are those of the items, with the phrases among the items in print. -/
inductive Written : List Item → List Token → Prop
  | nil : Written [] []
  | terminal {t : Terminal} {x : Token} {items : List Item} {ts : List Token}
    (token : t.Matches id x) (spelled : x.Spelled) (rest : Written items ts) :
    Written (.terminal t :: items) (x :: ts)
  | phrase {nesting : Nesting} {p : Phrase} {items : List Item} {ts us : List Token}
    (prints : p.Prints ts) (rest : Written items us) : Written (.phrase nesting p :: items) (ts ++ us)

namespace Written

variable {t : Terminal} {items items' : List Item} {ts : List Token} {nesting : Nesting} {p : Phrase}

theorem of_nil (h : Written [] ts) : ts = [] := by
  cases h
  rfl

theorem of_append (h : Written (items ++ items') ts) :
    ∃ us vs, ts = us ++ vs ∧ Written items us ∧ Written items' vs := by
  induction items generalizing ts with
  | nil => exact ⟨[], ts, rfl, .nil, h⟩
  | cons item items ih =>
    cases h with
    | terminal token spelled rest =>
      obtain ⟨us, vs, rfl, hu, hv⟩ := ih rest
      exact ⟨_ :: us, vs, rfl, .terminal token spelled hu, hv⟩
    | phrase prints rest =>
      obtain ⟨us, vs, rfl, hu, hv⟩ := ih rest
      exact ⟨_ ++ us, vs, (List.append_assoc ..).symm, .phrase prints hu, hv⟩

theorem of_terminal (h : Written (.terminal t :: items) ts) :
    ∃ x us, ts = x :: us ∧ t.Matches id x ∧ x.Spelled ∧ Written items us := by
  cases h with
  | terminal token spelled rest => exact ⟨_, _, rfl, token, spelled, rest⟩

theorem of_phrase (h : Written (.phrase nesting p :: items) ts) :
    ∃ us vs, ts = us ++ vs ∧ Printed us p.text ∧ Written items vs := by
  cases h with
  | phrase prints rest => exact ⟨_, _, rfl, prints.text, rest⟩

/-- A phrase alone is in print. -/
theorem of_singleton (h : Written [.phrase nesting p] ts) : Printed ts p.text := by
  obtain ⟨us, vs, rfl, hp, hrest⟩ := h.of_phrase
  obtain rfl := hrest.of_nil
  rwa [List.append_nil]

theorem of_identifier {i : Identifier} (h : Written (.same (.identifier i) :: items) ts) :
    ∃ x us, ts = x :: us ∧ x.kind = i.kind ∧ x.written = i.raw ∧ Written items us := by
  cases h with
  | phrase prints rest =>
    obtain ⟨x, rfl, hk, hw⟩ := prints.single i rfl
    exact ⟨x, _, rfl, hk, hw, rest⟩

/-- A token of a kind with one text. -/
theorem of_kind {k : Kind} (h : Written (.kind k :: items) ts) :
    ∃ x us, ts = x :: us ∧ x.kind = k ∧ (∀ w, k.fixedText? = some w → x.written = w) ∧
      Written items us := by
  obtain ⟨x, us, rfl, hx, hs, hrest⟩ := h.of_terminal
  obtain rfl : x.kind = k := hx
  exact ⟨x, us, rfl, rfl, hs.fixed, hrest⟩

/-- A token of a kind with one text that the tree keeps. -/
theorem of_kept {k : Kind} {token : Token} (h : Written (.kept k token :: items) ts) :
    ∃ x us, ts = x :: us ∧ x.kind = k ∧ (∀ w, k.fixedText? = some w → x.written = w) ∧
      Written items us := by
  obtain ⟨x, us, rfl, hx, hs, hrest⟩ := h.of_terminal
  obtain rfl : x.kind = k := by simpa using hx.1
  exact ⟨x, us, rfl, rfl, hs.fixed, hrest⟩

/-- A token with a given text alone. -/
theorem of_spelling {k : Kind} {w : String} (h : Written [.terminal (.spelling k w)] ts)
    (hk : k.isCased = false) : ∃ x, ts = [x] ∧ x.kind = k ∧ x.written = w := by
  obtain ⟨x, us, rfl, ⟨hxk, hx⟩, -, hnil⟩ := h.of_terminal
  obtain rfl := hnil.of_nil
  have hw : x.written = x.text := Token.written_of_not_isCased (hxk ▸ hk)
  exact ⟨x, rfl, hxk, hw.trans hx⟩

/-- Phrases with commas between them. -/
theorem of_list {α : Type} {phrase : α → Phrase} {as : List α} (hne : as ≠ [])
    (h : Written (Item.separated .comma (as.map fun a => .phrase nesting (phrase a))) ts) :
    Printed ts (commaSeparated (as.map fun a => (phrase a).text)) := by
  induction as generalizing ts with
  | nil => exact absurd rfl hne
  | cons a as ih =>
    obtain ⟨us, vs, rfl, ha, hrest⟩ := h.of_phrase
    cases as with
    | nil =>
      obtain rfl := hrest.of_nil
      rw [List.append_nil]
      simpa [commaSeparated] using ha
    | cons b bs =>
      obtain ⟨x, vs, rfl, hxk, hxw, hrest⟩ := of_kind hrest
      have hbs := ih (by simp) hrest
      have hx := Printed.word (hxw _ rfl) (ih (by simp) hrest)
      have htext := ha.append_closing hx (by simp [hxk])
      rw [List.map_cons, List.map_cons, commaSeparated_cons_cons]
      exact htext

/-- A list between an opening and a closing token. -/
theorem of_enclosed {α : Type} {phrase : α → Phrase} {as : List α} {k l : Kind} {w w' : String}
    (h : Written (.kind k ::
      (Item.separated .comma (as.map fun a => .phrase nesting (phrase a)) ++ [.kind l])) ts)
    (hk : k ∈ [Kind.leftParen, .leftBracket]) (hl : l ∈ [Kind.rightParen, .rightBracket])
    (hw : k.fixedText? = some w) (hw' : l.fixedText? = some w') :
    Printed ts (w ++ (commaSeparated (as.map fun a => (phrase a).text) ++ w')) := by
  obtain ⟨x, us, rfl, rfl, hx, hrest⟩ := h.of_kind
  obtain ⟨us, vs, rfl, hlist, hclose⟩ := hrest.of_append
  obtain ⟨y, vs, rfl, rfl, hy, hnil⟩ := hclose.of_kind
  obtain rfl := hnil.of_nil
  have hopen : x.kind ∈ [Kind.leftParen, .leftBracket, .plus, .minus] := by
    have hsub : [Kind.leftParen, .leftBracket] ⊆ [Kind.leftParen, .leftBracket, .plus, .minus] := by
      simp
    exact hsub hk
  apply Printed.opening (hx w hw) hopen
  cases as with
  | nil =>
    obtain rfl := hlist.of_nil
    simpa using Printed.single (hy w' hw')
  | cons a as =>
    have hclosing : y.kind ∈ [Kind.comma, .leftParen, .rightParen, .rightBracket] :=
      List.mem_cons_of_mem _ (List.mem_cons_of_mem _ hl)
    exact (of_list (by simp) hlist).append_closing (.single (hy w' hw')) hclosing

/-- A function and its arguments. -/
theorem of_call {α : Type} {phrase : α → Phrase} {as : List α} {name : Identifier}
    (h : Written (Item.call name (as.map fun a => .phrase nesting (phrase a))) ts) :
    Printed ts (callText name (as.map fun a => (phrase a).text)) := by
  obtain ⟨us, vs, rfl, hname, hrest⟩ := h.of_phrase
  have hargs := hrest.of_enclosed (by simp) (by simp) rfl rfl
  obtain ⟨x, vs, rfl, hx, -⟩ := hrest.of_kind
  have htext := hname.append_closing hargs (by simp [hx])
  rw [callText, String.append_assoc, String.append_assoc]
  exact htext

/-- A reference to a field. -/
theorem of_dotted {parts : List Identifier} (hne : parts ≠ []) (hplain : ∀ i ∈ parts, i.IsPlain)
    (h : Written (Item.separated .dot (parts.map fun part => .same (.identifier part))) ts) :
    ∃ x us, ts = x :: us ∧ x.kind ∈ [Kind.identifier, .quotedIdentifier] ∧
      Printed ts (".".intercalate (parts.map Identifier.raw)) := by
  induction parts generalizing ts with
  | nil => exact absurd rfl hne
  | cons i parts ih =>
    obtain ⟨x, us, rfl, hxk, hxw, hrest⟩ := h.of_identifier
    have hx : x.kind ∈ [Kind.identifier, .quotedIdentifier] := hxk ▸ hplain i (by simp)
    refine ⟨x, us, rfl, hx, ?_⟩
    cases parts with
    | nil =>
      obtain rfl := hrest.of_nil
      simpa using Printed.single hxw
    | cons j parts =>
      obtain ⟨d, vs, rfl, hdk, hdw, hrest⟩ := of_kind hrest
      obtain ⟨y, vs, rfl, hy, hparts⟩ := ih (by simp) (fun k hk => hplain k (by simp [hk])) hrest
      have hdot : Printed (d :: y :: vs) (d.written ++ ".".intercalate
          ((j :: parts).map Identifier.raw)) := .touch (.inr (.inr (.inr ⟨hdk, hy⟩))) hparts
      have htext := Printed.touch (.inr (.inr (.inl ⟨hx, hdk⟩))) hdot
      rw [hxw, hdw _ rfl] at htext
      rw [List.map_cons, List.map_cons, String.intercalate_cons_cons, String.append_assoc]
      exact htext

/-- A keyword in front. -/
theorem of_keyword {k : Kind} {token : Token} {w w' text : String}
    (h : Written (.kept k token :: items) ts) (hw : k.fixedText? = some w) (hw' : w' = w ++ " ")
    (hrest : ∀ us, Written items us → Printed us text) : Printed ts (w' ++ text) := by
  obtain ⟨x, us, rfl, -, hx, hitems⟩ := h.of_kept
  rw [hw', String.append_assoc]
  exact .word (hx w hw) (hrest us hitems)

/-- A keyword that the tree does not keep in front. -/
theorem of_word {k : Kind} {w w' text : String} (h : Written (.kind k :: items) ts)
    (hw : k.fixedText? = some w) (hw' : w' = w ++ " ")
    (hrest : ∀ us, Written items us → Printed us text) : Printed ts (w' ++ text) := by
  obtain ⟨x, us, rfl, -, hx, hitems⟩ := h.of_kind
  rw [hw', String.append_assoc]
  exact .word (hx w hw) (hrest us hitems)

end Written

/-- What may stand behind something, with a blank in front of it. -/
theorem Printed.append_optional {α : Type} {o : Option α} {f : α → List Item} {g : α → String}
    {ts us : List Token} {text : String} (h : Printed ts text) (hw : Written (o.elim [] f) us)
    (hf : ∀ a ∈ o, ∀ us, Written (f a) us → Printed us (g a)) :
    Printed (ts ++ us) (text ++ o.elim "" fun a => " " ++ g a) := by
  cases o with
  | none =>
    obtain rfl := hw.of_nil
    simpa using h
  | some a => exact h.append_blank (hf a rfl us hw)

end PipeQuery
