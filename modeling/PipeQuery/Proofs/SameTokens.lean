import PipeQuery.Proofs.Acceptance
import PipeQuery.Proofs.Lockstep
import PipeQuery.Proofs.Respelled

/-!
# Texts of the same tokens

Blanks, comments, and what stands behind the end of the input make no difference: two texts whose
tokens are the same without them are read as the same statement, up to its spans, with the same
diagnostics, up to the texts that they quote (`parse_of_seen`). A text that ends its input is, for
the grammar, its tokens without blanks and comments and the token that ends it
(`TokenStream.seen_append`).
-/

namespace PipeQuery

open Grammar

variable {tokens tokens' : List Token}

/-- A query is the same, up to its spans, in two texts of the same tokens. -/
theorem states_parse_of_seen (h : TokenStream.seen tokens = TokenStream.seen tokens')
    (config : Config) :
    (parse tokens config).statement.query.erase id
        = (parse tokens' config).statement.query.erase id ∧
      Sight.whole.States (query config.maxDepth (.start config tokens)).2
        (query config.maxDepth (.start config tokens')).2 := by
  have hstart : Sight.whole.States (.start config tokens) (.start config tokens') :=
    Sight.states_start (congrArg (List.map id) h) config
  obtain ⟨hquery, hend⟩ := Sight.whole.lasting_link.query config.maxDepth hstart
  exact ⟨hquery trivial, hend⟩

/-- Blanks, comments and what stands behind the end of the input make no difference. In two texts of
the same tokens the same statement is read, up to its spans, so it is written in the same way and has
the same index pattern. The same diagnostics are reported: of the same causes, about the same tokens,
with the same kinds expected there. Only the texts that they quote may differ. -/
theorem parse_of_seen (h : TokenStream.seen tokens = TokenStream.seen tokens') (config : Config) :
    (parse tokens config).statement.erase id = (parse tokens' config).statement.erase id ∧
      (parse tokens config).statement.endToken = (parse tokens' config).statement.endToken ∧
      (parse tokens config).statement.text = (parse tokens' config).statement.text ∧
      (parse tokens config).statement.sexpr = (parse tokens' config).statement.sexpr ∧
      (parse tokens config).statement.indexPattern
        = (parse tokens' config).statement.indexPattern ∧
      (parse tokens config).diagnostics.map (Diagnostic.seenAs id)
        = (parse tokens' config).diagnostics.map (Diagnostic.seenAs id) := by
  obtain ⟨hquery, hend⟩ := states_parse_of_seen h config
  have hendToken : (parse tokens config).statement.endToken
      = (parse tokens' config).statement.endToken := hend.current
  have hshown := fun tokens =>
    (parse tokens config).statement.query.shown_erase (ρ := id) fun _ => rfl
  have hpattern := fun tokens => (parse tokens config).statement.query.indexPattern_erase id
  refine ⟨?_, hendToken, ?_, ?_, ?_, hend.diagnostics⟩
  · rw [Statement.erase, Statement.erase, hquery, hendToken]
  · rw [Statement.text, Statement.text, ← (hshown tokens).1, hquery, (hshown tokens').1]
  · rw [Statement.sexpr, Statement.sexpr, ← (hshown tokens).2, hquery, (hshown tokens').2]
  · rw [Statement.indexPattern, Statement.indexPattern, ← hpattern tokens, hquery,
      hpattern tokens']

/-- The tokens of `SHOW x`. -/
def showSpaced : List Token :=
  [⟨.kwShow, "SHOW", 0, 4, 1, 0⟩, ⟨.whitespace, " ", 4, 5, 1, 4⟩, ⟨.identifier, "x", 5, 6, 1, 5⟩,
    .endOfInput 6 1 6]

/-- The same tokens without the blank, and with one more behind the end of the input. -/
def showPacked : List Token :=
  [⟨.kwShow, "SHOW", 0, 4, 1, 0⟩, ⟨.identifier, "x", 5, 6, 1, 5⟩, .endOfInput 6 1 6,
    ⟨.kwShow, "SHOW", 0, 4, 1, 0⟩]

/-- The diagnostics of `SHOW x` quote the blank if there is one, and are the same but for that. -/
theorem parse_of_seen_show :
    TokenStream.seen showSpaced = TokenStream.seen showPacked ∧
      (parse showSpaced {}).diagnostics.map (Diagnostic.seenAs id)
        = (parse showPacked {}).diagnostics.map (Diagnostic.seenAs id) ∧
      (parse showSpaced {}).diagnostics ≠ (parse showPacked {}).diagnostics := by
  have h : TokenStream.seen showSpaced = TokenStream.seen showPacked := by decide
  exact ⟨h, (parse_of_seen h {}).2.2.2.2.2, by decide⟩

end PipeQuery
