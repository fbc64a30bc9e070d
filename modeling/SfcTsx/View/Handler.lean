import SfcTsx.Text.Category
import SfcTsx.Text.Space
import SfcTsx.View.TagName

namespace SfcTsx.View

def isIdentifier : Text → Bool
  | [] => false
  | c :: cs =>
    (Text.isAlphabetic c || c == '_' || c == '$') &&
      cs.all fun c => Text.isAlphanumeric c || c == '_' || c == '$'

def isNameStart (c : Char) : Bool := c.isAlpha || c == '_' || c == '$'

def isNamePart (c : Char) : Bool := Text.isWordChar c || c == '$'

def afterName? : Text → Option Text
  | [] => none
  | c :: cs => if isNameStart c then some (cs.dropWhile isNamePart) else none

def afterWord? (t : Text) : Option Text :=
  if t.head?.any isNamePart then some (t.dropWhile isNamePart) else none

/-- What follows one step of a path: a name behind a dot, or an index without brackets in it. -/
def afterStep? (t : Text) : Option Text :=
  match t with
  | '[' :: index =>
    match index.dropWhile fun c => c != '[' && c != ']' with
    | ']' :: rest => some rest
    | _ => none
  | _ =>
    match Text.trimStart t with
    | '.' :: rest => afterName? (Text.trimStart rest)
    | _ => none

/-- Nothing but at most `fuel` steps of a path. -/
def isSteps : Nat → Text → Bool
  | _, [] => true
  | 0, _ => false
  | fuel + 1, t => (afterStep? t).any (isSteps fuel)

/-- A path to a value, such as `store.go` or `handlers[name]`. -/
def isPath (t : Text) : Bool := (afterName? t).any fun rest => isSteps rest.length rest

/-- The arrow of a function, which a result type may precede. -/
def hasArrow (t : Text) : Bool :=
  match Text.trimStart t with
  | ':' :: result =>
    !(result.takeWhile (· != '=')).isEmpty &&
      ("=>" : String).toList.isPrefixOf (result.dropWhile (· != '='))
  | t => ("=>" : String).toList.isPrefixOf t

def isArrow (t : Text) : Bool :=
  match t with
  | '(' :: params =>
    match params.dropWhile (· != ')') with
    | ')' :: rest => hasArrow rest
    | _ => false
  | _ => (afterWord? t).any hasArrow

/-- The keyword of a function, perhaps its name, and a parenthesis. -/
def isFunction (t : Text) : Bool :=
  match Text.after? ("function" : String) t with
  | none => false
  | some rest =>
    let behind := Text.trimStart rest
    let opens (t : Text) : Bool := (Text.trimStart t).head? == some '('
    opens rest || (rest.head?.any Text.isSpace && (afterWord? behind).any opens)

def isHandlerReference (expression : Text) : Bool :=
  let t := Text.trim expression
  let behindAsync := Text.after? ("async" : String) t
  isPath t || behindAsync.any (fun rest => isArrow (Text.trimStart rest)) || isArrow t ||
    behindAsync.any (fun rest => rest.head?.any Text.isSpace && isFunction (Text.trimStart rest)) ||
    isFunction t

def handlerName (event : Text) : Text := 'o' :: 'n' :: capitalize (camelize event)

end SfcTsx.View
