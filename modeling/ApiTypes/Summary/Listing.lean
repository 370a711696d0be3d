import ApiTypes.Summary.Basic
import ApiTypes.Table

/-!
The summary of a document as a table with one line for each operation.
-/

namespace ApiTypes.Summary

/-- A dash in place of nothing. -/
def orDash (s : String) : String := if s = "" then "-" else s

def listingLine (service : Service) (o : OperationSummary) : String :=
  Text.join "\t" [service.tag, o.method, o.path, orDash o.operationId, orDash o.success,
    orDash o.error] ++ "\n"

/-- The table of operations. -/
def listing (s : Summary) : String :=
  Table.render ("TAG\tMETHOD\tPATH\tOPERATION\tSUCCESS\tERROR\n" ++
    String.join (s.services.flatMap fun service => service.operations.map (listingLine service)))

end ApiTypes.Summary
