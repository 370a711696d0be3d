import ApiTypes.Document.Basic
import ApiTypes.Location
import ApiTypes.Template.Run

/-!
The comment at the top of a file of declarations, made from a template.
-/

namespace ApiTypes.Banner

/-- The name of the template in messages. -/
def templateName : String := "banner.ts.gotmpl"

/-- The template of outputs that have none of their own. -/
def standard : String := Text.join "\n" [
  "/**",
  " * This file was auto-generated by typegen.",
  " * Do not make direct changes to the file.",
  "\x7b\x7b- with .Title \x7d\x7d",
  " *",
  " * \x7b\x7b . | trim \x7d\x7d\x7b\x7b with $.Version \x7d\x7d (\x7b\x7b . \x7d\x7d)\x7b\x7b end \x7d\x7d",
  "\x7b\x7b- end \x7d\x7d",
  " */",
  ""]

/-- What a template may speak of: the description and the file that is written. -/
def data (info : Info) (spec out : String) : Template.Data := [
  ("Title", info.title), ("Version", info.version), ("Spec", spec), ("Out", Location.base out)]

/-- The text with a line break at its end, unless it is empty. -/
def endLine (text : String) : String :=
  if text = "" || text.toList.getLast? = some '\n' then text else text ++ "\n"

/-- The banner that an engine makes of a template; an empty one stands for the standard one, which
is the same whatever the engine is. -/
def render (engine : Template.Engine) (source : String) (data : Template.Data) :
    Except Template.Failure String :=
  (if source = "" then Template.render templateName standard data
  else engine templateName source data).map endLine

end ApiTypes.Banner
