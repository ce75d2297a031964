/-!
# Kinds of tokens and nodes

`Kind` names every class of token that the lexer tells apart, followed by the few kinds of inner
node of the concrete tree. The order of the constructors is part of the language: sets of kinds are
listed in it (`Kind.all`), and `Kind.index` and `Kind.ofIndex` number the kinds along it. Keywords
form one block of that order.

A kind has two spellings. `Kind.symbol` is its symbolic name, and `Kind.wording` is how diagnostics
speak of it: fixed tokens in quotes, keywords in upper case, all others by a short name.
-/

namespace PipeQuery

/-- A class of tokens, or a kind of inner node of the concrete tree. -/
inductive Kind where
  /-- A run of blanks, tabs and line breaks. -/
  | whitespace
  /-- A comment up to the end of its line. -/
  | lineComment
  /-- A comment between `/*` and `*/`. -/
  | blockComment
  /-- The bar between two stages. -/
  | pipe
  /-- A string literal, quotes included. -/
  | string
  /-- An integer literal. -/
  | integer
  /-- A decimal literal. -/
  | decimal
  /-- A unit of time such as `hour`. -/
  | dateUnit
  /-- The equals sign. -/
  | assign
  /-- A comma. -/
  | comma
  /-- A dot. -/
  | dot
  /-- An opening parenthesis. -/
  | leftParen
  /-- A closing parenthesis. -/
  | rightParen
  /-- An opening bracket. -/
  | leftBracket
  /-- A closing bracket. -/
  | rightBracket
  /-- The word `TRUE` or `FALSE`. -/
  | boolean
  /-- A comparison operator such as `<=`. -/
  | comparison
  /-- A plus sign. -/
  | plus
  /-- A minus sign. -/
  | minus
  /-- An asterisk. -/
  | asterisk
  /-- A slash. -/
  | slash
  /-- A percent sign. -/
  | percent
  /-- The word `ASC` or `DESC`. -/
  | ordering
  /-- The word `FIRST` or `LAST`. -/
  | nullsDirection
  /-- The name of a scalar function such as `round`. -/
  | scalarFunction
  /-- The name of an aggregate function such as `avg`. -/
  | aggregateFunction
  /-- The name of a function that stands in conditions only, such as `is_null`. -/
  | predicateFunction
  /-- A plain identifier. -/
  | identifier
  /-- A plain identifier in backquotes. -/
  | quotedIdentifier
  /-- An index pattern after `FROM`. -/
  | sourceIdentifier
  /-- An index pattern in backquotes. -/
  | quotedSourceIdentifier
  /-- A policy or field name after `ENRICH`. -/
  | enrichIdentifier
  /-- A policy or field name in backquotes. -/
  | quotedEnrichIdentifier
  /-- The end of the input. -/
  | endOfInput
  /-- The keyword `DISSECT`. -/
  | kwDissect
  /-- The keyword `GROK`. -/
  | kwGrok
  /-- The keyword `EVAL`. -/
  | kwEval
  /-- The keyword `EXPLAIN`. -/
  | kwExplain
  /-- The keyword `FROM`. -/
  | kwFrom
  /-- The keyword `ROW`. -/
  | kwRow
  /-- The keyword `STATS`. -/
  | kwStats
  /-- The keyword `WHERE`. -/
  | kwWhere
  /-- The keyword `SORT`. -/
  | kwSort
  /-- The keyword `LIMIT`. -/
  | kwLimit
  /-- The keyword `KEEP`. -/
  | kwKeep
  /-- The keyword `PROJECT`. -/
  | kwProject
  /-- The keyword `DROP`. -/
  | kwDrop
  /-- The keyword `RENAME`. -/
  | kwRename
  /-- The keyword `SHOW`. -/
  | kwShow
  /-- The keyword `ENRICH`. -/
  | kwEnrich
  /-- The keyword `MV_EXPAND`. -/
  | kwMvExpand
  /-- The keyword `BY`. -/
  | kwBy
  /-- The keyword `AND`. -/
  | kwAnd
  /-- The keyword `OR`. -/
  | kwOr
  /-- The keyword `NOT`. -/
  | kwNot
  /-- The keyword `LIKE`. -/
  | kwLike
  /-- The keyword `RLIKE`. -/
  | kwRlike
  /-- The keyword `IN`. -/
  | kwIn
  /-- The keyword `NULL`. -/
  | kwNull
  /-- The keyword `INFO`. -/
  | kwInfo
  /-- The keyword `FUNCTIONS`. -/
  | kwFunctions
  /-- The keyword `NULLS`. -/
  | kwNulls
  /-- The keyword `ON`. -/
  | kwOn
  /-- The keyword `WITH`. -/
  | kwWith
  /-- The node of a whole statement. -/
  | statement
  /-- The node of a source command. -/
  | sourceCommand
  /-- The node of a processing command. -/
  | processingCommand
  /-- The node of a query in brackets. -/
  | subquery
  /-- Text that is no token, or the node of tokens that no rule accepts. -/
  | error
deriving DecidableEq, Repr, Inhabited

namespace Kind

/-- All kinds, in their order. -/
def all : List Kind :=
  [.whitespace, .lineComment, .blockComment, .pipe, .string, .integer, .decimal, .dateUnit,
   .assign, .comma, .dot, .leftParen, .rightParen, .leftBracket, .rightBracket, .boolean,
   .comparison, .plus, .minus, .asterisk, .slash, .percent, .ordering, .nullsDirection,
   .scalarFunction, .aggregateFunction, .predicateFunction, .identifier, .quotedIdentifier,
   .sourceIdentifier, .quotedSourceIdentifier, .enrichIdentifier, .quotedEnrichIdentifier,
   .endOfInput, .kwDissect, .kwGrok, .kwEval, .kwExplain, .kwFrom, .kwRow, .kwStats, .kwWhere,
   .kwSort, .kwLimit, .kwKeep, .kwProject, .kwDrop, .kwRename, .kwShow, .kwEnrich, .kwMvExpand,
   .kwBy, .kwAnd, .kwOr, .kwNot, .kwLike, .kwRlike, .kwIn, .kwNull, .kwInfo, .kwFunctions,
   .kwNulls, .kwOn, .kwWith, .statement, .sourceCommand, .processingCommand, .subquery, .error]

/-- The number of kinds. -/
def count : Nat := 69

/-- The place of a kind in the order, counted from zero. -/
def index (k : Kind) : Nat := k.ctorIdx

/-- The kind at a place of the order; a number beyond the last one stands for an error. -/
def ofIndex (n : Nat) : Kind := all[n]?.getD .error

@[simp] theorem length_all : all.length = count := rfl

@[simp] theorem getElem?_all_index (k : Kind) : all[k.index]? = some k := by
  cases k <;> rfl

@[simp] theorem ofIndex_index (k : Kind) : ofIndex k.index = k := by
  simp [ofIndex]

theorem index_lt_count (k : Kind) : k.index < count := by
  obtain ⟨h, -⟩ := List.getElem?_eq_some_iff.1 (getElem?_all_index k)
  simpa using h

theorem index_inj {k l : Kind} : k.index = l.index ↔ k = l :=
  ⟨fun h => by rw [← ofIndex_index k, h, ofIndex_index], fun h => h ▸ rfl⟩

theorem index_getElem_all (i : Fin all.length) : all[i].index = i := by
  revert i
  decide

/-- A kind stands in the list of all kinds at the place of its index, and nowhere else. -/
theorem getElem?_all_eq_some {n : Nat} {k : Kind} : all[n]? = some k ↔ k.index = n := by
  constructor
  · intro h
    obtain ⟨hn, rfl⟩ := List.getElem?_eq_some_iff.1 h
    exact index_getElem_all ⟨n, hn⟩
  · rintro rfl
    exact getElem?_all_index k

/-- Every number below the number of kinds is the place of a kind. -/
theorem exists_index_eq {n : Nat} (h : n < count) : ∃ k : Kind, k.index = n := by
  have hn : n < all.length := by simpa using h
  exact ⟨all[n], index_getElem_all ⟨n, hn⟩⟩

@[simp] theorem mem_all (k : Kind) : k ∈ all :=
  List.mem_of_getElem? (getElem?_all_index k)

/-- Blanks and comments, which the grammar does not see. -/
def isTrivia : Kind → Bool
  | whitespace | lineComment | blockComment => true
  | _ => false

/-- Keywords of commands and of expressions. -/
def isKeyword (k : Kind) : Bool :=
  kwDissect.index ≤ k.index && k.index ≤ kwWith.index

/-- The symbolic name of a kind. -/
def symbol : Kind → String
  | whitespace => "T_WS"
  | lineComment => "T_LINE_COMMENT"
  | blockComment => "T_MULTILINE_COMMENT"
  | pipe => "T_PIPE"
  | string => "T_STRING"
  | integer => "T_INTEGER_LITERAL"
  | decimal => "T_DECIMAL_LITERAL"
  | dateUnit => "T_DATE_LITERAL"
  | assign => "T_ASSIGN"
  | comma => "T_COMMA"
  | dot => "T_DOT"
  | leftParen => "T_LP"
  | rightParen => "T_RP"
  | leftBracket => "T_OPENING_BRACKET"
  | rightBracket => "T_CLOSING_BRACKET"
  | boolean => "T_BOOLEAN_VALUE"
  | comparison => "T_COMPARISON_OPERATOR"
  | plus => "T_PLUS"
  | minus => "T_MINUS"
  | asterisk => "T_ASTERISK"
  | slash => "T_SLASH"
  | percent => "T_PERCENT"
  | ordering => "T_ORDERING"
  | nullsDirection => "T_NULLS_ORDERING_DIRECTION"
  | scalarFunction => "T_MATH_FUNCTION"
  | aggregateFunction => "T_UNARY_FUNCTION"
  | predicateFunction => "T_WHERE_FUNCTIONS"
  | identifier => "T_UNQUOTED_IDENTIFIER"
  | quotedIdentifier => "T_QUOTED_IDENTIFIER"
  | sourceIdentifier => "T_SRC_UNQUOTED_IDENTIFIER"
  | quotedSourceIdentifier => "T_SRC_QUOTED_IDENTIFIER"
  | enrichIdentifier => "T_ENR_UNQUOTED_IDENTIFIER"
  | quotedEnrichIdentifier => "T_ENR_QUOTED_IDENTIFIER"
  | endOfInput => "T_EOF"
  | kwDissect => "K_DISSECT"
  | kwGrok => "K_GROK"
  | kwEval => "K_EVAL"
  | kwExplain => "K_EXPLAIN"
  | kwFrom => "K_FROM"
  | kwRow => "K_ROW"
  | kwStats => "K_STATS"
  | kwWhere => "K_WHERE"
  | kwSort => "K_SORT"
  | kwLimit => "K_LIMIT"
  | kwKeep => "K_KEEP"
  | kwProject => "K_PROJECT"
  | kwDrop => "K_DROP"
  | kwRename => "K_RENAME"
  | kwShow => "K_SHOW"
  | kwEnrich => "K_ENRICH"
  | kwMvExpand => "K_MV_EXPAND"
  | kwBy => "K_BY"
  | kwAnd => "K_AND"
  | kwOr => "K_OR"
  | kwNot => "K_NOT"
  | kwLike => "K_LIKE"
  | kwRlike => "K_RLIKE"
  | kwIn => "K_IN"
  | kwNull => "K_NULL"
  | kwInfo => "K_INFO"
  | kwFunctions => "K_FUNCTIONS"
  | kwNulls => "K_NULLS"
  | kwOn => "K_ON"
  | kwWith => "K_WITH"
  | statement => "N_SINGLE_STATEMENT"
  | sourceCommand => "N_SOURCE_COMMAND"
  | processingCommand => "N_PROCESSING_COMMAND"
  | subquery => "N_SUBQUERY"
  | error => "N_ERROR"

/-- The wording of a kind in diagnostics. -/
def wording : Kind → String
  | whitespace => "WS"
  | lineComment => "LINE_COMMENT"
  | blockComment => "MULTILINE_COMMENT"
  | pipe => "'|'"
  | string => "STRING"
  | integer => "INTEGER_LITERAL"
  | decimal => "DECIMAL_LITERAL"
  | dateUnit => "DATE_LITERAL"
  | assign => "'='"
  | comma => "','"
  | dot => "'.'"
  | leftParen => "'('"
  | rightParen => "')'"
  | leftBracket => "'['"
  | rightBracket => "']'"
  | boolean => "BOOLEAN_VALUE"
  | comparison => "COMPARISON_OPERATOR"
  | plus => "'+'"
  | minus => "'-'"
  | asterisk => "'*'"
  | slash => "'/'"
  | percent => "'%'"
  | ordering => "ORDERING"
  | nullsDirection => "NULLS_ORDERING_DIRECTION"
  | scalarFunction => "MATH_FUNCTION"
  | aggregateFunction => "UNARY_FUNCTION"
  | predicateFunction => "WHERE_FUNCTIONS"
  | identifier => "UNQUOTED_IDENTIFIER"
  | quotedIdentifier => "QUOTED_IDENTIFIER"
  | sourceIdentifier => "SRC_UNQUOTED_IDENTIFIER"
  | quotedSourceIdentifier => "SRC_QUOTED_IDENTIFIER"
  | enrichIdentifier => "ENR_UNQUOTED_IDENTIFIER"
  | quotedEnrichIdentifier => "ENR_QUOTED_IDENTIFIER"
  | endOfInput => "<EOF>"
  | kwDissect => "DISSECT"
  | kwGrok => "GROK"
  | kwEval => "EVAL"
  | kwExplain => "EXPLAIN"
  | kwFrom => "FROM"
  | kwRow => "ROW"
  | kwStats => "STATS"
  | kwWhere => "WHERE"
  | kwSort => "SORT"
  | kwLimit => "LIMIT"
  | kwKeep => "KEEP"
  | kwProject => "PROJECT"
  | kwDrop => "DROP"
  | kwRename => "RENAME"
  | kwShow => "SHOW"
  | kwEnrich => "ENRICH"
  | kwMvExpand => "MV_EXPAND"
  | kwBy => "BY"
  | kwAnd => "AND"
  | kwOr => "OR"
  | kwNot => "NOT"
  | kwLike => "LIKE"
  | kwRlike => "RLIKE"
  | kwIn => "IN"
  | kwNull => "NULL"
  | kwInfo => "INFO"
  | kwFunctions => "FUNCTIONS"
  | kwNulls => "NULLS"
  | kwOn => "ON"
  | kwWith => "WITH"
  | statement => "singleStatement"
  | sourceCommand => "sourceCommand"
  | processingCommand => "processingCommand"
  | subquery => "subqueryExpression"
  | error => "ERROR"

end Kind

end PipeQuery
