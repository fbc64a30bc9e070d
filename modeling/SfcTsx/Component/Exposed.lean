import SfcTsx.Script.Tree

namespace SfcTsx.Component

open Script

def objectProps? (e : Expr) : Option (List ObjectProp) :=
  match e.unwrapped with
  | .object _ props => some props
  | _ => none

def findProp? (props : List ObjectProp) (name : String) : Option ObjectProp :=
  props.find? (·.name? = some name)

def stringElems (elems : List (Option Expr)) : List String :=
  elems.filterMap fun elem => match elem.map Expr.unwrapped with
    | some (.lit l) => if l.kind = .string then some l.value else none
    | _ => none

/-- The names that a property declares by the keys of an object or the strings of an array. -/
def declaredBy : ObjectProp → List String
  | .keyValue _ _ value =>
    match value.unwrapped with
    | .object _ props => props.filterMap ObjectProp.name?
    | .array _ elems => stringElems elems
    | _ => []
  | _ => []

def returnedHere? : Stmt → Option (List ObjectProp)
  | .ret _ (some arg) => objectProps? arg
  | _ => none

/-- The object that a function returns: that of its last statement which returns one. -/
def returned? (f : Fn) : Option (List ObjectProp) :=
  match f.body with
  | .expr e => objectProps? e
  | .block _ stmts => stmts.reverse.findSome? returnedHere?
  | .none => none

def returnedBy (prop : ObjectProp) : List String :=
  let fn : Option Fn := match prop with
    | .method _ _ f => some f
    | .keyValue _ _ value =>
      match value.unwrapped with
      | .fn f => some f
      | _ => none
    | _ => none
  ((fn.bind returned?).getD []).filterMap ObjectProp.name?

/-- The options of a component, given as an object or as the first argument of a call. -/
def optionsObject? (e : Expr) : Option (List ObjectProp) :=
  match e.unwrapped with
  | .object _ props => some props
  | .call _ _ _ (arg :: _) => objectProps? arg
  | _ => none

def exposedNames (options : Expr) : List String :=
  match optionsObject? options with
  | none => []
  | some props =>
    let declared := ["props", "inject", "computed", "methods"].flatMap fun key =>
      ((findProp? props key).map declaredBy).getD []
    let returned := ["data", "setup"].flatMap fun key =>
      ((findProp? props key).map returnedBy).getD []
    (declared ++ returned).eraseDups

end SfcTsx.Component
