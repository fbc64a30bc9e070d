import SfcTsx.Script.Token
import SfcTsx.Script.Tree

namespace SfcTsx.Script

structure Call where
  span : Span
  callee : Expr
  typeArgs : Option Span
  args : List Expr

def Expr.call? : Expr → Option Call
  | .call s callee typeArgs args => some ⟨s, callee, typeArgs, args⟩
  | _ => none

namespace Call

def name? (c : Call) : Option String := c.callee.name?

def firstArg? (c : Call) : Option Expr := c.args.head?.map Expr.unwrapped

end Call

inductive MacroKind where
  | props
  | emits
  | model
  | slots
deriving DecidableEq, Repr

namespace MacroKind

def ofCallee? : String → Option MacroKind
  | "defineProps" | "withDefaults" => some .props
  | "defineEmits" => some .emits
  | "defineModel" => some .model
  | "defineSlots" => some .slots
  | _ => none

/-- The type that extracts what was declared from the type of the call. -/
def helper : MacroKind → String
  | .props => "ExtractProps"
  | .emits => "ExtractEmits"
  | .model => "ExtractModel"
  | .slots => "ExtractSlots"

def modelSuffix (model : String) : String :=
  model.map fun c => if c.isAlphanum || c == '_' || c == '$' then c else '_'

def variableName (start : String) (model : String) : MacroKind → String
  | .props => start ++ "props"
  | .emits => start ++ "emits"
  | .model => start ++ "model_" ++ modelSuffix model
  | .slots => start ++ "slots"

def aliasName (start : String) (model : String) : MacroKind → String
  | .props => start ++ "Props"
  | .emits => start ++ "Emits"
  | .model => start ++ "Model_" ++ modelSuffix model
  | .slots => start ++ "Slots"

end MacroKind

def defaultModelName : String := "modelValue"

namespace Call

def macroKind? (c : Call) : Option MacroKind := c.name?.bind MacroKind.ofCallee?

def modelName (c : Call) : String :=
  match c.firstArg? with
  | some (.lit l) => if l.kind = .string then l.value else defaultModelName
  | _ => defaultModelName

/-- The call that declares the props: the call itself, or the first argument of `withDefaults`. -/
def propsCall (c : Call) : Call :=
  if c.name? = some "withDefaults" then (c.firstArg?.bind Expr.call?).getD c else c

end Call

/-- The names of the members of the outermost object type, from tokens: `depth` brackets are open,
and with `atKey` the next word may be a name. -/
def memberNamesFrom : (depth : Nat) → (atKey : Bool) → List Token → List String
  | _, _, [] => []
  | depth, atKey, token :: rest =>
    let next := (rest.head?.map Token.kind).getD .endOfText
    match token.kind with
    | .openBrace => memberNamesFrom (depth + 1) (depth == 0) rest
    | .closeBrace => memberNamesFrom (depth - 1) false rest
    | .openParen | .openBracket | .less =>
      memberNamesFrom (if 1 ≤ depth then depth + 1 else depth) false rest
    | .closeParen | .closeBracket | .greater =>
      memberNamesFrom (if 1 < depth then depth - 1 else depth) false rest
    | .semicolon | .comma => memberNamesFrom depth (depth == 1) rest
    | .word | .string =>
      if depth == 1 && (atKey || token.newlineBefore) then
        if token.text == "readonly" && next = .word then memberNamesFrom depth true rest
        else if next = .colon || next = .question || next = .openParen then
          String.ofList (unquote token.text.toList) :: memberNamesFrom depth false rest
        else memberNamesFrom depth false rest
      else memberNamesFrom depth false rest
    | _ => memberNamesFrom depth false rest

def memberNames (text : Text) : List String := memberNamesFrom 0 false (Token.tokenize text)

/-- The names of the props that a call declares, as far as the script shows them: keys of a type, keys
of an object, or strings of an array. -/
def Call.propNames (c : Call) (source : Text) : List String :=
  match c.typeArgs with
  | some span => memberNames (span.text source)
  | none =>
    match c.firstArg? with
    | some (.object _ props) => props.filterMap ObjectProp.name?
    | some (.array _ elems) =>
      elems.filterMap fun e => match e.map Expr.unwrapped with
        | some (.lit l) => if l.kind = .string then some l.value else none
        | _ => none
    | _ => []

end SfcTsx.Script
