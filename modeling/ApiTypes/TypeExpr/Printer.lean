import ApiTypes.Text.Basic
import ApiTypes.Text.Quoted
import ApiTypes.TypeExpr.Basic

/-!
Declarations as text. Object types and enums are laid out over several lines, four blanks deeper
for each level; documentation is a block comment in front of what it documents. A union or
intersection is put in parentheses where an operator binds closer, as is the readonly operator.
-/

namespace ApiTypes

/-- A new line at the given depth. -/
def newline (depth : Nat) : String := "\n" ++ Text.replicate depth "    "

/-- Takes the end mark of a comment apart, so that documentation cannot close its own comment. -/
def escapeCommentChars : List Char → List Char
  | [] => []
  | '*' :: '/' :: rest => '*' :: '\\' :: '/' :: escapeCommentChars rest
  | c :: rest => c :: escapeCommentChars rest

def escapeComment (s : String) : String := String.ofList (escapeCommentChars s.toList)

/-- The lines of one entry of a comment: the first under the star, the others indented. -/
def docEntryLines (entry : String) : List String :=
  match Text.split '\n' (escapeComment entry) with
  | [] => []
  | first :: more =>
    Text.trimEnd (· = ' ') (" * " ++ first) ::
      more.map fun line => Text.trimEnd (· = ' ') (" *     " ++ line)

/-- The comment for some entries, and the line break after it. A single entry of one line stays
on one line; without entries there is no comment. -/
def docBlock (depth : Nat) : List String → String
  | [] => ""
  | entries =>
    match entries with
    | [entry] =>
      if entry.toList.contains '\n' then block entries
      else "/** " ++ escapeComment entry ++ " */" ++ newline depth
    | _ => block entries
where
  block (entries : List String) : String :=
    "/**" ++ String.join ((entries.flatMap docEntryLines).map (newline depth ++ ·)) ++
      newline depth ++ " */" ++ newline depth

def Literal.print : Literal → String
  | .null => "null"
  | .text s => Text.quote s
  | .bool b => if b then "true" else "false"
  | .int n => toString n
  | .number x => x.render Binary64.literalLayout

/-- Whether a type needs parentheses before a pair of brackets. -/
def TypeExpr.isCompound : TypeExpr → Bool
  | .union _ | .intersection _ | .readonly _ => true
  | _ => false

def TypeExpr.isUnion : TypeExpr → Bool
  | .union _ => true
  | _ => false

/-- The text in parentheses, if they are needed. -/
def parenthesize (needed : Bool) (s : String) : String :=
  if needed then "(" ++ s ++ ")" else s

mutual

/-- The text of a type that stands on a line of the given depth. -/
def TypeExpr.print (depth : Nat) : TypeExpr → String
  | .unstated => "unknown"
  | .keyword name => name
  | .literal value => value.print
  | .ref name args =>
    match args with
    | [] => name
    | arg :: more => name ++ "<" ++ Text.join ", " (arg.print depth :: printTypes depth more) ++ ">"
  | .access object index =>
    parenthesize object.isCompound (object.print depth) ++ "[" ++ index.print depth ++ "]"
  | .union types => Text.join " | " (printTypes depth types)
  | .intersection types => Text.join " & " (printFactors depth types)
  | .array elem => parenthesize elem.isCompound (elem.print depth) ++ "[]"
  | .readonly type => "readonly " ++ type.print depth
  | .tuple elems => "[" ++ Text.join ", " (printTypes depth elems) ++ "]"
  | .spread type => "..." ++ type.print depth
  | .object members =>
    match members with
    | [] => "{}"
    | member :: more =>
      "\x7b" ++ newline (depth + 1) ++ member.print (depth + 1) ++ printMembers (depth + 1) more ++
        newline depth ++ "\x7d"
  | .template head spans =>
    "\x60" ++ Text.escapeTemplate head ++ printSpans depth spans ++ "\x60"

def printTypes (depth : Nat) : List TypeExpr → List String
  | [] => []
  | type :: more => type.print depth :: printTypes depth more

/-- The members of an intersection, unions among them in parentheses. -/
def printFactors (depth : Nat) : List TypeExpr → List String
  | [] => []
  | type :: more => parenthesize type.isUnion (type.print depth) :: printFactors depth more

def printSpans (depth : Nat) : List TemplateSpan → String
  | [] => ""
  | .mk type tail :: more =>
    "$\x7b" ++ type.print depth ++ "\x7d" ++ Text.escapeTemplate tail ++ printSpans depth more

/-- The members of an object type, each on a new line. -/
def printMembers (depth : Nat) : List Member → String
  | [] => ""
  | member :: more => newline depth ++ member.print depth ++ printMembers depth more

def Member.print (depth : Nat) : Member → String
  | .property name isOptional isReadonly type doc =>
    docBlock depth doc ++ (if isReadonly then "readonly " else "") ++ Text.propertyKey name ++
      (if isOptional then "?" else "") ++ ": " ++ type.print depth ++ ";"
  | .indexSignature param key type isReadonly doc =>
    docBlock depth doc ++ (if isReadonly then "readonly " else "") ++ "[" ++ param ++ ": " ++
      key.print depth ++ "]: " ++ type.print depth ++ ";"

end

/-- The text of a type on its own. -/
def TypeExpr.render (t : TypeExpr) : String := t.print 0

/-- The entries of an enum, with a comma after each but the last. -/
def printEnumMembers : List EnumMember → String
  | [] => ""
  | m :: more =>
    newline 1 ++ docBlock 1 m.doc ++ m.name ++ " = " ++ m.value.print ++
      (if more.isEmpty then "" else ",") ++ printEnumMembers more

/-- The text of a declaration, with the line break that ends it. -/
def Decl.print : Decl → String
  | .alias name type exported doc =>
    docBlock 0 doc ++ marker exported ++ "type " ++ name ++ " = " ++ type.print 0 ++ ";\n"
  | .interface name members exported doc =>
    docBlock 0 doc ++ marker exported ++ "interface " ++ name ++ " " ++
      (TypeExpr.object members).print 0 ++ "\n"
  | .enum name members exported doc =>
    docBlock 0 doc ++ marker exported ++ "enum " ++ name ++ " \x7b" ++ printEnumMembers members ++
      (if members.isEmpty then "" else newline 0) ++ "\x7d\n"
  | .raw text =>
    match Text.trimEnd (· = '\n') text with
    | "" => ""
    | body => body ++ "\n"
  | .expression type => type.print 0 ++ "\n"
where
  marker (exported : Bool) : String := if exported then "export " else ""

/-- The text of declarations one after another. -/
def printDecls (decls : List Decl) : String := String.join (decls.map Decl.print)

/-- What a declaration is called when it stands where only a type can. -/
def Decl.misplaced? : Decl → Option String
  | .alias .. => some "tsast: cannot print tsast.TypeAlias as a type"
  | .interface .. => some "tsast: cannot print tsast.Interface as a type"
  | .enum .. => some "tsast: cannot print tsast.Enum as a type"
  | .raw .. => some "tsast: cannot print tsast.Raw as a type"
  | .expression .. => none

/-- The type that a piece of a file stands for, or the complaint that it is no type. -/
def Decl.toType : Decl → Except String TypeExpr
  | .expression type => .ok type
  | decl => .error (decl.misplaced?.getD "")

end ApiTypes
