namespace SqlHighlight.Sql

def upper (s : String) : String := String.ofList (s.toList.map Char.toUpper)

namespace Vocabulary

def keywords : List String :=
  ["ADD", "ALTER", "AS", "ASC", "AUTHORIZATION", "BACKUP", "BEGIN", "BREAK", "BROWSE",
    "BULK", "BY", "CASCADE", "CASE", "CHECK", "CHECKPOINT", "CLOSE", "CLUSTERED", "COLLATE",
    "COLUMN", "COMMIT", "COMPUTE", "CONSTRAINT", "CONTAINS", "CONTINUE", "CREATE", "CROSS",
    "CURSOR", "DATABASE", "DEALLOCATE", "DECLARE", "DEFAULT", "DELETE", "DENY", "DESC",
    "DISTINCT", "DISTRIBUTED", "DROP", "DUMP", "ELSE", "END", "ERRLVL", "ESCAPE", "EXCEPT",
    "EXEC", "EXECUTE", "EXIT", "EXTERNAL", "FETCH", "FILE", "FILLFACTOR", "FOR", "FOREIGN",
    "FROM", "FULL", "FUNCTION", "GOTO", "GRANT", "GROUP", "HAVING", "HOLDLOCK", "IDENTITY",
    "IDENTITY_INSERT", "IDENTITYCOL", "IF", "INDEX", "INNER", "INSERT", "INTERSECT", "INTO",
    "JOIN", "KEY", "KILL", "LEFT", "LIMIT", "MATCHED", "MERGE", "NOCHECK", "NOCOUNT",
    "NONCLUSTERED", "NULL", "OF", "OFF", "OFFSET", "OFFSETS", "ON", "OPEN", "OPTION",
    "ORDER", "OUTER", "OUTPUT", "OVER", "PERCENT", "PIVOT", "PLAN", "PRIMARY", "PRINT",
    "PROC", "PROCEDURE", "PUBLIC", "RAISERROR", "READ", "RECONFIGURE", "REFERENCES",
    "REPLICATION", "RESTORE", "RESTRICT", "RETURN", "REVERT", "REVOKE", "RIGHT", "ROLLBACK",
    "ROWCOUNT", "ROWGUIDCOL", "RULE", "SAVE", "SCHEMA", "SELECT", "SET", "SHUTDOWN",
    "STATISTICS", "TABLE", "TABLESAMPLE", "TARGET", "TEXTSIZE", "THEN", "THROW", "TO",
    "TOP", "TRAN", "TRANSACTION", "TRIGGER", "TRUNCATE", "TRY", "CATCH", "UNION", "UNIQUE",
    "UNPIVOT", "UPDATE", "USE", "USING", "VALUES", "VIEW", "WAITFOR", "WHEN", "WHERE",
    "WHILE", "WITH", "NOLOCK", "ROWS", "ONLY", "NEXT", "FIRST", "APPLY",
    "SOURCE", "RECOMPILE", "GO", "TRUE", "FALSE"]

def dataTypes : List String :=
  ["BIGINT", "BINARY", "BIT", "CHAR", "CHARACTER", "DATE", "DATETIME", "DATETIME2",
    "DATETIMEOFFSET", "DEC", "DECIMAL", "DOUBLE", "FLOAT", "GEOGRAPHY", "GEOMETRY",
    "HIERARCHYID", "IMAGE", "INT", "INTEGER", "MONEY", "NCHAR", "NTEXT", "NUMERIC",
    "NVARCHAR", "PRECISION", "REAL", "SMALLDATETIME", "SMALLINT", "SMALLMONEY",
    "SQL_VARIANT", "SYSNAME", "TEXT", "TIME", "TIMESTAMP", "TINYINT", "UNIQUEIDENTIFIER",
    "VARBINARY", "VARCHAR", "XML"]

def functions : List String :=
  ["ABS", "AVG", "CAST", "CEILING", "CHARINDEX", "CHECKSUM", "COALESCE", "CONCAT",
    "CONVERT", "COUNT", "COUNT_BIG", "CURRENT_TIMESTAMP", "CURRENT_USER", "DATEADD",
    "DATEDIFF", "DATENAME", "DATEPART", "DAY", "DENSE_RANK", "FLOOR", "FORMAT", "GETDATE",
    "GETUTCDATE", "ISDATE", "ISNULL", "ISNUMERIC", "LAG", "LEAD", "LEN", "LOWER", "LTRIM",
    "MAX", "MIN", "MONTH", "NEWID", "NTILE", "NULLIF", "OBJECT_ID", "RANK", "REPLACE",
    "REPLICATE", "REVERSE", "ROUND", "ROW_NUMBER", "RTRIM", "SCOPE_IDENTITY",
    "SESSION_USER", "SPACE", "STR", "STRING_AGG", "STUFF", "SUBSTRING", "SUM",
    "SYSDATETIME", "SYSTEM_USER", "TRIM", "TRY_CAST", "TRY_CONVERT", "UPPER", "USER_NAME",
    "YEAR", "IIF", "CHOOSE"]

def alphaOperators : List String :=
  ["ALL", "ANY", "BETWEEN", "EXISTS", "IN", "IS", "LIKE", "NOT", "SOME"]

def clauseStarters : List String :=
  ["SELECT", "FROM", "WHERE", "GROUP", "HAVING", "ORDER", "INSERT", "VALUES", "UPDATE",
    "SET", "DELETE", "OUTPUT", "OPTION", "USING", "WHEN", "OFFSET", "FETCH"]

def setOperators : List String := ["UNION", "EXCEPT", "INTERSECT"]

end Vocabulary

inductive WordClass
  | conjunction
  | disjunction
  | alphaOperator
  | dataType
  | function
  | returns
  | keyword
  | name
  deriving DecidableEq, Repr

def WordClass.ofUpper (word : String) : WordClass :=
  if word = "AND" then .conjunction
  else if word = "OR" then .disjunction
  else if word = "RETURNS" then .returns
  else if Vocabulary.alphaOperators.contains word then .alphaOperator
  else if Vocabulary.dataTypes.contains word then .dataType
  else if Vocabulary.functions.contains word then .function
  else if Vocabulary.keywords.contains word then .keyword
  else .name

def WordClass.of (word : String) : WordClass := .ofUpper (upper word)

def startsClause (word : String) : Bool := Vocabulary.clauseStarters.contains (upper word)

def isSetOperator (word : String) : Bool := Vocabulary.setOperators.contains (upper word)

end SqlHighlight.Sql
