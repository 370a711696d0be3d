import ApiTypes.Banner
import ApiTypes.Config.Basic
import ApiTypes.External.Files
import ApiTypes.Summary.Manifest
import ApiTypes.Text.CaseFold
import ApiTypes.Typing.Document

/-!
The text of an output. A file of declarations starts with a banner; a manifest is JSON or YAML,
depending on the name of the file.
-/

namespace ApiTypes

/-- Why there is no text for an output. -/
inductive RenderError where
  | typing (cause : Typing.Failure)
  | banner (cause : Template.Failure)

def RenderError.message : RenderError → String
  | .typing cause => cause.message
  | .banner cause => cause.message Banner.templateName

/-- A file of declarations, and what was noticed while it was made. -/
structure Rendered where
  text : String
  warnings : List Warning

namespace Target

/-- How the types of an output are to be made. References into other files are followed if it is
known where the description is. -/
def request (fs : FileSystem) (t : Target) : Typing.Request :=
  { options := t.options.effective
    schemaHooks := t.options.hooks
    external := if t.spec = "" then none else some (FileResolver.mk fs t.spec).toExternal }

/-- The file of declarations for a document. -/
def declarations (fs : FileSystem) (t : Target) (doc : Document) : Except RenderError Rendered := do
  let types ← (Typing.generate doc (t.request fs)).mapError .typing
  let banner ← (Banner.render (fs.engine fs.moment) t.banner
    (Banner.data doc.info t.spec t.out)).mapError .banner
  return ⟨banner ++ "\n" ++ types.text, types.warnings⟩

/-- Whether a manifest is written as JSON. -/
def wantsJson (t : Target) : Bool :=
  Text.equalIgnoringCase (Location.extension t.out) ".json"

/-- The manifest of a document. -/
def manifest (t : Target) (doc : Document) : String :=
  let summary := Summary.ofDocument doc
  if t.wantsJson then summary.jsonText else summary.yamlText

/-- The text of an output of the given kind. -/
def render (fs : FileSystem) (kind : ArtifactKind) (t : Target) (doc : Document) :
    Except RenderError String :=
  match kind with
  | .declarations => (t.declarations fs doc).map (·.text)
  | .manifest => .ok (t.manifest doc)

end Target

end ApiTypes
