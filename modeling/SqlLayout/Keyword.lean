import SqlLayout.Text

/-!
# Keywords

The words the layout knows. A word is looked up without regard to letter
case, so each look-up depends on the upper-case form of the word only.
-/

namespace SqlLayout

inductive Keyword where
  -- queries and changes of data
  | SELECT | FROM | WHERE | INSERT | UPDATE | DELETE | MERGE | INTO | VALUES | SET | OUTPUT
  | JOIN | INNER | LEFT | RIGHT | FULL | OUTER | CROSS | APPLY | ON | AS
  | GROUP | BY | ORDER | HAVING | UNION | INTERSECT | EXCEPT | ALL | DISTINCT
  | TOP | PERCENT | TIES | ASC | DESC | OPTION | WITH | RECURSIVE
  -- expressions
  | CASE | WHEN | THEN | ELSE | END | AND | OR | NOT | IN | EXISTS | BETWEEN | LIKE | IS | NULL
  -- windows
  | OVER | PARTITION | ROWS | RANGE | UNBOUNDED | PRECEDING | FOLLOWING | CURRENT | ROW
  -- definitions
  | CREATE | ALTER | DROP | TRUNCATE | TABLE | INDEX | VIEW | PROCEDURE | FUNCTION | TRIGGER
  | DATABASE | SCHEMA | PRIMARY | KEY | FOREIGN | REFERENCES | CONSTRAINT | UNIQUE | CHECK
  | DEFAULT | IDENTITY | AUTO_INCREMENT
  -- procedures
  | IF | WHILE | FOR | DECLARE | BEGIN | TRY | CATCH | RETURN | EXEC | EXECUTE | PRINT | GO
  -- cursors
  | CURSOR | OPEN | FETCH | NEXT | CLOSE | DEALLOCATE
deriving DecidableEq

namespace Keyword

def spellings : List (Keyword × String) :=
  [ (.SELECT, "SELECT"), (.FROM, "FROM"), (.WHERE, "WHERE"), (.INSERT, "INSERT"),
    (.UPDATE, "UPDATE"), (.DELETE, "DELETE"), (.MERGE, "MERGE"), (.INTO, "INTO"),
    (.VALUES, "VALUES"), (.SET, "SET"), (.OUTPUT, "OUTPUT"), (.JOIN, "JOIN"),
    (.INNER, "INNER"), (.LEFT, "LEFT"), (.RIGHT, "RIGHT"), (.FULL, "FULL"),
    (.OUTER, "OUTER"), (.CROSS, "CROSS"), (.APPLY, "APPLY"), (.ON, "ON"), (.AS, "AS"),
    (.GROUP, "GROUP"), (.BY, "BY"), (.ORDER, "ORDER"), (.HAVING, "HAVING"),
    (.UNION, "UNION"), (.INTERSECT, "INTERSECT"), (.EXCEPT, "EXCEPT"), (.ALL, "ALL"),
    (.DISTINCT, "DISTINCT"), (.TOP, "TOP"), (.PERCENT, "PERCENT"), (.TIES, "TIES"),
    (.ASC, "ASC"), (.DESC, "DESC"), (.OPTION, "OPTION"), (.WITH, "WITH"),
    (.RECURSIVE, "RECURSIVE"),
    (.CASE, "CASE"), (.WHEN, "WHEN"), (.THEN, "THEN"), (.ELSE, "ELSE"), (.END, "END"),
    (.AND, "AND"), (.OR, "OR"), (.NOT, "NOT"), (.IN, "IN"), (.EXISTS, "EXISTS"),
    (.BETWEEN, "BETWEEN"), (.LIKE, "LIKE"), (.IS, "IS"), (.NULL, "NULL"),
    (.OVER, "OVER"), (.PARTITION, "PARTITION"), (.ROWS, "ROWS"), (.RANGE, "RANGE"),
    (.UNBOUNDED, "UNBOUNDED"), (.PRECEDING, "PRECEDING"), (.FOLLOWING, "FOLLOWING"),
    (.CURRENT, "CURRENT"), (.ROW, "ROW"),
    (.CREATE, "CREATE"), (.ALTER, "ALTER"), (.DROP, "DROP"), (.TRUNCATE, "TRUNCATE"),
    (.TABLE, "TABLE"), (.INDEX, "INDEX"), (.VIEW, "VIEW"), (.PROCEDURE, "PROCEDURE"),
    (.FUNCTION, "FUNCTION"), (.TRIGGER, "TRIGGER"), (.DATABASE, "DATABASE"),
    (.SCHEMA, "SCHEMA"), (.PRIMARY, "PRIMARY"), (.KEY, "KEY"), (.FOREIGN, "FOREIGN"),
    (.REFERENCES, "REFERENCES"), (.CONSTRAINT, "CONSTRAINT"), (.UNIQUE, "UNIQUE"),
    (.CHECK, "CHECK"), (.DEFAULT, "DEFAULT"), (.IDENTITY, "IDENTITY"),
    (.AUTO_INCREMENT, "AUTO_INCREMENT"),
    (.IF, "IF"), (.WHILE, "WHILE"), (.FOR, "FOR"), (.DECLARE, "DECLARE"), (.BEGIN, "BEGIN"),
    (.TRY, "TRY"), (.CATCH, "CATCH"), (.RETURN, "RETURN"), (.EXEC, "EXEC"),
    (.EXECUTE, "EXECUTE"), (.PRINT, "PRINT"), (.GO, "GO"),
    (.CURSOR, "CURSOR"), (.OPEN, "OPEN"), (.FETCH, "FETCH"), (.NEXT, "NEXT"),
    (.CLOSE, "CLOSE"), (.DEALLOCATE, "DEALLOCATE") ]

def name (k : Keyword) : String := (spellings.lookup k).getD ""

def table : List (Text × Keyword) := spellings.map fun p => (p.2.toList, p.1)

def ofWord? (w : Text) : Option Keyword := table.lookup (upper w)

def startsStatement : Keyword → Bool
  | .SELECT | .WITH | .INSERT | .UPDATE | .DELETE | .CREATE | .ALTER | .DROP | .DECLARE
  | .OPEN | .FETCH | .CLOSE | .DEALLOCATE | .WHILE | .BEGIN | .END | .EXEC | .EXECUTE
  | .PRINT | .IF | .GO => true
  | _ => false

def isCursorCommand : Keyword → Bool
  | .OPEN | .FETCH | .CLOSE | .DEALLOCATE => true
  | _ => false

def isSetOperator : Keyword → Bool
  | .UNION | .INTERSECT | .EXCEPT => true
  | _ => false

/-- May stand before JOIN or APPLY. -/
def isJoinModifier : Keyword → Bool
  | .INNER | .LEFT | .RIGHT | .FULL | .OUTER | .CROSS => true
  | _ => false

/-- A keyword inside a phrase such as PRIMARY KEY or CURRENT ROW only; alone
it is more likely a column. -/
def isPhraseOnly : Keyword → Bool
  | .KEY | .INDEX | .ROW | .CURRENT | .NEXT | .OUTPUT | .DEFAULT | .CHECK | .RANGE => true
  | _ => false

/-- No statement ends in this word. -/
def expectsMore : Keyword → Bool
  | .SELECT | .FROM | .WHERE | .JOIN | .ON | .AS | .BY | .HAVING | .UNION | .INTERSECT
  | .EXCEPT | .ALL | .INTO | .SET | .CASE | .WHEN | .THEN | .ELSE | .AND | .OR | .NOT | .IN
  | .EXISTS | .BETWEEN | .LIKE | .IS | .FOR => true
  | _ => false

end Keyword

/-! ## Function and type names -/

def functionNames : List String :=
  [ "COUNT", "SUM", "AVG", "MIN", "MAX", "COUNT_BIG", "STRING_AGG",
    "ROW_NUMBER", "RANK", "DENSE_RANK", "NTILE", "LAG", "LEAD", "FIRST_VALUE", "LAST_VALUE",
    "ISNULL", "COALESCE", "NULLIF", "IIF", "CAST", "CONVERT", "TRY_CAST", "TRY_CONVERT",
    "GETDATE", "GETUTCDATE", "SYSDATETIME", "DATEADD", "DATEDIFF", "DATEPART", "DATENAME",
    "EOMONTH", "YEAR", "MONTH", "DAY",
    "LEN", "DATALENGTH", "SUBSTRING", "UPPER", "LOWER", "LTRIM", "RTRIM", "TRIM",
    "REPLACE", "CONCAT", "CHARINDEX", "PATINDEX", "STUFF", "REVERSE", "FORMAT",
    "ABS", "ROUND", "FLOOR", "CEILING", "POWER", "SQRT",
    "NEWID", "OBJECT_ID", "SCOPE_IDENTITY" ]

def typeNames : List String :=
  [ "INT", "BIGINT", "SMALLINT", "TINYINT", "BIT",
    "DECIMAL", "NUMERIC", "FLOAT", "REAL", "MONEY", "SMALLMONEY",
    "CHAR", "VARCHAR", "NCHAR", "NVARCHAR", "TEXT", "NTEXT",
    "DATE", "TIME", "DATETIME", "DATETIME2", "SMALLDATETIME", "DATETIMEOFFSET",
    "BINARY", "VARBINARY", "IMAGE", "UNIQUEIDENTIFIER", "XML", "SYSNAME" ]

def nameIn? (names : List String) (w : Text) : Option String :=
  names.find? fun n => n.toList = upper w

def isFunctionName (w : Text) : Bool := (nameIn? functionNames w).isSome

def isTypeName (w : Text) : Bool := (nameIn? typeNames w).isSome

end SqlLayout
