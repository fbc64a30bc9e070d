import SfcTsx.Component.Options
import SfcTsx.Json.Commented
import SfcTsx.Json.Parse
import SfcTsx.Project.Arguments

namespace SfcTsx.Project

structure FileOptions where
  marker : Option Text := none
  helpersModule : Option Text := none
  keepEmpty : Option Bool := none
  ascii : Option Bool := none
  extensions : List Text := []
deriving DecidableEq, Repr

def lookup? (fields : List (Option Text × Json)) (name : String) : Option (Option Json) :=
  match fields.filter (·.1 == some name.toList) with
  | [] => some none
  | [(_, value)] => some (some value)
  | _ => none

def optionalText? : Option Json → Option (Option Text)
  | none | some .null => some none
  | some (.str (some t)) => some (some t)
  | _ => none

def optionalBool? : Option Json → Option (Option Bool)
  | none | some .null => some none
  | some (.bool b) => some (some b)
  | _ => none

def texts? : Option Json → Option (List Text)
  | none => some []
  | some (.arr items) => items.mapM fun
    | .str t => t
    | _ => none
  | _ => none

def hasNames (fields : List (Option Text × Json)) : Bool := fields.all (·.1.isSome)

namespace FileOptions

def ofFields? (marker helpersModule keepEmpty ascii extensions : Option Json) : Option FileOptions := do
  return { marker := ← optionalText? marker, helpersModule := ← optionalText? helpersModule
           keepEmpty := ← optionalBool? keepEmpty, ascii := ← optionalBool? ascii
           extensions := ← texts? extensions }

/-- Reads the options from an object, or from an array with the values of the fields in order, of which
only the last may be missing. -/
def ofJson? : Json → Option FileOptions
  | .obj fields => do
    guard (hasNames fields)
    ofFields? (← lookup? fields "markerPrefix") (← lookup? fields "helpersModule")
      (← lookup? fields "keepEmptyBlocks") (← lookup? fields "normalizeNonAscii")
      (← lookup? fields "extensions")
  | .arr [marker, helpersModule, keepEmpty, ascii] =>
    ofFields? (some marker) (some helpersModule) (some keepEmpty) (some ascii) none
  | .arr [marker, helpersModule, keepEmpty, ascii, extensions] =>
    ofFields? (some marker) (some helpersModule) (some keepEmpty) (some ascii) (some extensions)
  | _ => none

def ofProject? : Json → Option FileOptions
  | .obj fields => do
    guard (hasNames fields)
    match ← lookup? fields "vueCompilerOptions" with
    | some options => ofJson? options
    | none => return {}
  | .arr [] => some {}
  | .arr [options] => ofJson? options
  | _ => none

def parse? (content : Text) : Option FileOptions :=
  (Json.parse? (Json.stripComments content)).bind ofProject?

end FileOptions

structure Settings where
  compile : Component.Options := {}
  extensions : List Text := [".vue".toList]
deriving DecidableEq, Repr

def fileName? (path : Text) : Option Text :=
  match ((Text.splitOn '/' path).filter fun part => part != [] && part != ['.']).getLast? with
  | some ['.', '.'] => none
  | part => part

namespace Settings

def dotted (extension : Text) : Text :=
  if extension.head? = some '.' then extension else '.' :: extension

def resolve (args : Arguments) (file : FileOptions) : Settings :=
  let default : Component.Options := {}
  let choose (given : Option Text) (otherwise : String) : String :=
    (given.map String.ofList).getD otherwise
  { compile := { default with
      marker := choose (args.marker <|> file.marker) default.marker
      helpersModule := choose (args.helpersModule <|> file.helpersModule) default.helpersModule
      keepEmpty := file.keepEmpty.getD default.keepEmpty
      ascii := file.ascii.getD default.ascii
      hiresMaps := args.hiresMaps }
    extensions := if file.extensions.isEmpty then [".vue".toList] else file.extensions.map dotted }

def selects (s : Settings) (path : Text) : Bool :=
  let name := (fileName? path).getD []
  s.extensions.any fun extension => (Text.before? extension name).isSome

end Settings
end SfcTsx.Project
