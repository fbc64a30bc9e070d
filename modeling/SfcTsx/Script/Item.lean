import SfcTsx.Script.Macro

namespace SfcTsx.Script

structure ImportBinding where
  name : String
  /-- The name in the other module, if it is written. -/
  imported : Option String
  kind : ImportKind
  span : Span
  typeOnly : Bool
deriving DecidableEq, Repr

structure ImportItem where
  span : Span
  bindings : List ImportBinding
  source : String
  typeOnly : Bool
  /-- A macro brought it in. -/
  generated : Bool
deriving DecidableEq, Repr

inductive ExportItemKind where
  | default
  | named
  | declaration
  | all
deriving DecidableEq, Repr

structure ExportItem where
  span : Span
  kind : ExportItemKind
  names : List String
  typeOnly : Bool
  /-- The module from which everything is exported. -/
  source : Option String
deriving DecidableEq, Repr

inductive DeclarationKind where
  | variable (kind : VarKind)
  | typeAlias
deriving DecidableEq, Repr

structure DeclarationItem where
  name : String
  kind : DeclarationKind
  /-- The name in the pattern, or the call of the macro that brought it in. -/
  content : Span
  declarator : Span
  parent : Span
  /-- The name takes what is left over. -/
  rest : Bool
  generated : Bool
deriving DecidableEq, Repr

structure FunctionCallItem where
  name : String
  span : Span
  callee : Span
deriving DecidableEq, Repr

inductive BindingKind where
  | function
  | classDecl
  | enum
deriving DecidableEq, Repr

structure BindingItem where
  name : String
  span : Span
  kind : BindingKind
deriving DecidableEq, Repr

structure MacroItem where
  kind : MacroKind
  call : Span
  callee : Span
  /-- The type arguments, where they declare everything. -/
  typeArgs : Option Span
  statement : Span
  bare : Bool
  /-- The variable that the script assigns the result to. -/
  binding : Option String
  modelName : Option String
  propNames : List String
  variableName : String
  aliasName : String
deriving DecidableEq, Repr

structure Problem where
  message : String
  span : Span
deriving DecidableEq, Repr

inductive Item where
  | importItem (item : ImportItem)
  | exportItem (item : ExportItem)
  | declaration (item : DeclarationItem)
  | functionCall (item : FunctionCallItem)
  | binding (item : BindingItem)
  | async (first : Option Span)
  | macroCall (item : MacroItem)
  | error (problem : Problem)
  | warning (problem : Problem)
deriving DecidableEq, Repr

mutual

/-- The names that a pattern binds in order, and whether each takes what is left over. -/
def Pat.leaves (rest : Bool) : Pat → List (Ident × Bool)
  | .ident i _ => [(i, rest)]
  | .object _ props _ => propLeaves rest props
  | .array _ elems _ => elemLeaves rest elems
  | .rest _ arg => arg.leaves true
  | .assign _ left _ => left.leaves rest
  | .invalid _ => []

def propLeaves (rest : Bool) : List PatProp → List (Ident × Bool)
  | [] => []
  | .keyValue _ _ value :: props => value.leaves rest ++ propLeaves rest props
  | .shorthand _ key _ :: props => (key, rest) :: propLeaves rest props
  | .rest _ arg :: props => arg.leaves true ++ propLeaves rest props

def elemLeaves (rest : Bool) : List (Option Pat) → List (Ident × Bool)
  | [] => []
  | none :: elems => elemLeaves rest elems
  | some p :: elems => p.leaves rest ++ elemLeaves rest elems

end

def Stmt.declaredNames : Stmt → List String
  | .varDecl _ _ _ ds => ds.flatMap fun d => (d.name.leaves false).map (·.1.name)
  | .fn f => (f.ident.map Ident.name).toList
  | .classDecl _ i _ => (i.map Ident.name).toList
  | .enumDecl d => [d.ident.name]
  | .typeDecl d => [d.ident.name]
  | _ => []

end SfcTsx.Script
