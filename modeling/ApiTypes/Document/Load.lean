import ApiTypes.External.Files

/-!
API descriptions from their locations.
-/

namespace ApiTypes

/-- Why there is no API description at a location. -/
inductive LoadError where
  | unreadable (location : String) (cause : ReadError)
  | invalid (location : String) (cause : DocumentError)

def LoadError.message : LoadError → String
  | .unreadable location cause => "read " ++ location ++ ": " ++ cause.message
  | .invalid location cause => location ++ ": " ++ cause.message

/-- Reads the API description at a location. -/
def Document.load (fs : FileSystem) (location : String) : Except LoadError Document := do
  let source ← (readLocation fs location).mapError (.unreadable location)
  (Document.parse source).mapError (.invalid location)

end ApiTypes
