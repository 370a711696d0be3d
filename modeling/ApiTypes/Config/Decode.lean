import ApiTypes.Config.Basic
import ApiTypes.Schema.Decode

/-!
Configurations from nodes.
-/

namespace ApiTypes

open Yaml

namespace TargetOptions

/-- A switch of the options for types. -/
def switchField (name : String) (set : Options → Bool → Options) :
    RecordField TargetOptions :=
  setField name flag fun o x => { o with typing := set o.typing x }

/-- A text of the options for types. -/
def wordingField (name : String) (set : Options → String → Options) :
    RecordField TargetOptions :=
  setField name text fun o x => { o with typing := set o.typing x }

def fields : List (RecordField TargetOptions) := [
  switchField "additionalProperties" fun o x =>
    { o with additionalProperties := x },
  switchField "alphabetize" fun o x => { o with alphabetize := x },
  switchField "arrayLength" fun o x => { o with arrayLength := x },
  switchField "emptyObjectsUnknown" fun o x =>
    { o with emptyObjectsUnknown := x },
  switchField "enum" fun o x => { o with enum := x },
  switchField "excludeDeprecated" fun o x =>
    { o with excludeDeprecated := x },
  switchField "exportType" fun o x => { o with exportType := x },
  switchField "immutable" fun o x => { o with immutable := x },
  switchField "pathParamsAsTypes" fun o x =>
    { o with pathParamsAsTypes := x },
  switchField "propertiesRequiredByDefault" fun o x =>
    { o with propertiesRequiredByDefault := x },
  switchField "makePathsEnum" fun o x => { o with makePathsEnum := x },
  switchField "contentNever" fun o x => { o with contentNever := x },
  switchField "rootTypes" fun o x => { o with rootTypes := x },
  switchField "rootTypesNoSchemaPrefix" fun o x =>
    { o with rootTypesNoSchemaPrefix := x },
  switchField "silent" fun o x => { o with silent := x },
  switchField "strictOperationIds" fun o x =>
    { o with strictOperationIds := x },
  setField "defaultNonNullable" (Yaml.optional "bool" flag) fun o x =>
    { o with defaultNonNullable := x },
  setField "formats" textMap fun o x => { o with formats := x },
  wordingField "inject" fun o x => { o with inject := x },
  wordingField "injectFooter" fun o x => { o with injectFooter := x }]

def decoder : Decoder TargetOptions := record "config.Options" fields {}

end TargetOptions

namespace Target

def fields : List (RecordField Target) := [
  setField "type" text fun t x => { t with type := x },
  setField "out" text fun t x => { t with out := x },
  setField "spec" text fun t x => { t with spec := x },
  setField "includeTags" texts fun t x => { t with includeTags := x },
  setField "excludeTags" texts fun t x => { t with excludeTags := x },
  setField "preCommand" texts fun t x => { t with preCommand := x },
  setField "postCommand" texts fun t x => { t with postCommand := x },
  setField "banner" text fun t x => { t with banner := x },
  setField "options" TargetOptions.decoder fun t x => { t with options := x }]

def decoder : Decoder Target := record "config.Output" fields {}

end Target

namespace Config

/-- The outputs of a configuration. A null among them is left out. -/
def decodeTargets : Decoder (Option (List Target)) := sequence "[]config.Output" Target.decoder

def fields : List (RecordField Config) := [
  setField "spec" text fun c x => { c with spec := x },
  setField "name" text fun c x => { c with name := x },
  setField "concurrency" int fun c x => { c with concurrency := x },
  setField "outputs" decodeTargets fun c x => { c with targets := x.getD [] }]

def decoder : Decoder Config := record "config.Config" fields {}

end Config

end ApiTypes
