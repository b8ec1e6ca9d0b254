import GraphqlCodegen.Script.Syntax
import GraphqlCodegen.Script.Quoted
import GraphqlCodegen.Text.Lines
import GraphqlCodegen.Text.Blank
/-!
# The text of scripts

How each part of a script is written. Object expressions take a line for each entry, two spaces of
indentation a level; object types stand on one line.
-/

namespace GraphqlCodegen.Script

def Primitive.text : Primitive → String
  | .string => "string"
  | .number => "number"
  | .boolean => "boolean"
  | .null => "null"
  | .undefined => "undefined"
  | .unknown => "unknown"

/-- The key of a property with the mark of an optional one. -/
def propertyHead (name : String) (optional : Bool) : String :=
  keyText name ++ (if optional then "?" else "") ++ ": "

/-- Properties between braces. -/
def bracesText : List String → String
  | [] => "\x7b\x7d"
  | properties => "\x7b " ++ Text.joined "; " properties ++ " \x7d"

def Ty.isUnion : Ty → Bool
  | .union _ => true
  | _ => false

mutual

/-- The text of a type. A union that is the item of an array stands in parentheses. -/
def Ty.text : Ty → String
  | .primitive p => p.text
  | .array item => if item.isUnion then "(" ++ item.text ++ ")[]" else item.text ++ "[]"
  | .union members => Text.joined " | " (Ty.texts members)
  | .object properties => bracesText (Ty.propertyTexts properties)
  | .tuple items => "[" ++ Text.joined ", " (Ty.texts items) ++ "]"
  | .literal value => quoted value
  | .ref text => text
  | .lookup map name => map ++ "[\"" ++ name ++ "\"]"
  | .apply generic argument => generic ++ "<" ++ argument.text ++ ">"

def Ty.texts : List Ty → List String
  | [] => []
  | t :: ts => t.text :: Ty.texts ts

def Ty.propertyTexts : List (Property Ty) → List String
  | [] => []
  | ⟨name, optional, type⟩ :: ps =>
    (propertyHead name optional ++ type.text) :: Ty.propertyTexts ps

end

def Property.text (p : Property Ty) : String := propertyHead p.name p.optional ++ p.type.text

/-- The indentation of a level. -/
def indentation (level : Nat) : String := String.ofList (List.replicate (2 * level) ' ')

mutual

/-- The text of an expression that begins on a line of the given level. -/
def Expr.textAt (level : Nat) : Expr → String
  | .string value => quoted value
  | .object [] => "\x7b\x7d"
  | .object (e :: es) =>
    "\x7b\n" ++ Text.concat (Expr.entryTexts (level + 1) (e :: es)) ++ indentation level ++ "\x7d"
  | .cast expr type => expr.textAt level ++ " as " ++ type.text

def Expr.entryTexts (level : Nat) : List (String × Expr) → List String
  | [] => []
  | (key, e) :: es =>
    (indentation level ++ keyText key ++ ": " ++ e.textAt level ++ ",\n")
      :: Expr.entryTexts level es

end

def Expr.text (e : Expr) : String := e.textAt 0

def Keyword.text : Keyword → String
  | .const => "const"
  | .type => "type"
  | .classDecl => "class"

def exportText (exported : Bool) : String := if exported then "export " else ""

/-- A declaration with its comment on the line above. -/
def Declaration.text (d : Declaration) : String :=
  (match d.comment with
    | some c => "// " ++ c ++ "\n"
    | none => "")
  ++ exportText d.exported ++ d.keyword.text ++ " " ++ d.name ++ d.rest

def Block.text (b : Block) : String :=
  Text.joined (if b.spaced then "\n\n" else "\n") (b.declarations.map Declaration.text)

/-- The text without the line feeds at both its ends. -/
def dropLineFeeds (code : List Char) : List Char :=
  ((code.dropWhile (· = '\n')).reverse.dropWhile (· = '\n')).reverse

/-- A statement with the end of its line. -/
def Stmt.text : Stmt → String
  | .const name type init exported =>
    exportText exported ++ "const " ++ name
      ++ (match type with
        | some t => ": " ++ t.text
        | none => "")
      ++ " = " ++ init.text ++ ";\n"
  | .block b => b.text ++ "\n"
  | .raw code => String.ofList (dropLineFeeds code.toList) ++ "\n"

def Import.text (i : Import) : String :=
  let bindings := i.default.toList
    ++ if i.items.isEmpty then [] else ["\x7b " ++ Text.joined ", " i.items ++ " \x7d"]
  "import " ++ Text.joined ", " bindings ++ " from \"" ++ i.source ++ "\";\n"

def TypeDef.text : TypeDef → String
  | .interface name properties =>
    "export interface " ++ name ++ " \x7b\n"
      ++ Text.concat (properties.map fun p => "  " ++ p.text ++ ";\n") ++ "\x7d\n"
  | .enum name members isConst =>
    "export " ++ (if isConst then "const enum" else "enum") ++ " " ++ name ++ " \x7b\n"
      ++ Text.concat (members.map fun m => "  " ++ keyText m.1 ++ " = " ++ quoted m.2 ++ ",\n")
      ++ "\x7d\n"

/-- The parts of a module before its end is trimmed. -/
def Module.body (m : Module) : String :=
  Text.concat (m.header.map (· ++ "\n")) ++ (if m.header.isEmpty then "" else "\n")
    ++ Text.concat (m.imports.map Import.text) ++ (if m.imports.isEmpty then "" else "\n")
    ++ Text.concat (m.statements.map (Stmt.text · ++ "\n"))
    ++ Text.concat (m.types.map (TypeDef.text · ++ "\n"))

/-- The text of a module ends with one line feed. -/
def Module.text (m : Module) : String :=
  String.ofList (Text.trimEnd m.body.toList) ++ "\n"

end GraphqlCodegen.Script
