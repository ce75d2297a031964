import PipeQuery.Kind

/-!
# Words with a meaning

Which words are more than identifiers depends on where they stand. There is one table for the start
of a stage, one for expressions and one for the clauses of `ENRICH`. All of them disregard the case
of letters.
-/

namespace PipeQuery.Lexer

/-- A table of words in lower case. -/
abbrev Vocabulary := List (String × Kind)

/-- The kind of a word in a table, in whichever case it is written. -/
def Vocabulary.kind? (words : Vocabulary) (word : String) : Option Kind :=
  words.lookup word.toLower

/-- The words that start a command. -/
def commandWords : Vocabulary :=
  [("dissect", .kwDissect), ("grok", .kwGrok), ("eval", .kwEval), ("explain", .kwExplain),
   ("from", .kwFrom), ("row", .kwRow), ("stats", .kwStats), ("where", .kwWhere),
   ("sort", .kwSort), ("limit", .kwLimit), ("keep", .kwKeep), ("project", .kwProject),
   ("drop", .kwDrop), ("rename", .kwRename), ("show", .kwShow), ("enrich", .kwEnrich),
   ("mv_expand", .kwMvExpand)]

/-- The names of aggregate functions. -/
def aggregateNames : List String :=
  ["avg", "min", "max", "sum", "count", "count_distinct", "median", "median_absolute_deviation"]

/-- The names of scalar functions. -/
def scalarNames : List String :=
  ["round", "abs", "pow", "log10", "concat", "substring", "starts_with", "length", "date_format",
   "date_trunc", "auto_bucket", "is_finite", "is_infinite", "is_nan", "case", "split"]

/-- The names of the functions that stand in filters only. -/
def predicateNames : List String := ["cidr_match", "is_null"]

/-- The units of time, each in the singular and in the plural. -/
def dateUnits : List String :=
  ["millisecond", "second", "minute", "hour", "day", "week", "month", "year"].flatMap
    fun unit => [unit, unit ++ "s"]

/-- The words of expressions and of the modifiers behind them. -/
def expressionWords : Vocabulary :=
  [("by", .kwBy), ("and", .kwAnd), ("or", .kwOr), ("not", .kwNot), ("like", .kwLike),
   ("rlike", .kwRlike), ("in", .kwIn), ("null", .kwNull), ("info", .kwInfo),
   ("functions", .kwFunctions), ("nulls", .kwNulls), ("true", .boolean), ("false", .boolean),
   ("asc", .ordering), ("desc", .ordering), ("first", .nullsDirection),
   ("last", .nullsDirection)]
  ++ dateUnits.map (·, .dateUnit)
  ++ aggregateNames.map (·, .aggregateFunction)
  ++ scalarNames.map (·, .scalarFunction)
  ++ predicateNames.map (·, .predicateFunction)

/-- The words of the clauses of `ENRICH`. -/
def enrichWords : Vocabulary := [("on", .kwOn), ("with", .kwWith)]

end PipeQuery.Lexer
