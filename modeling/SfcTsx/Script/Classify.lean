import SfcTsx.Script.Item
import SfcTsx.Script.Walk

namespace SfcTsx.Script

def defaultMarker : String := "___VTSX___"

def defaultHelpersModule : String := "vue-tsx/types"

structure ClassifyOptions where
  mode : WalkMode := .deep
  marker : String := defaultMarker
  helpersModule : String := defaultHelpersModule

structure Classification where
  items : Array Item := #[]
  /-- The statement of the top level that the walk is in, and the number of statements of depth 0
  around the node: an export and what it declares are two. -/
  top : Option Stmt := none
  openStmts : Nat := 0
  sawAwait : Bool := false
  macros : List MacroKind := []
  models : List String := []

namespace Classification

def push (c : Classification) (item : Item) : Classification := { c with items := c.items.push item }

def warn (c : Classification) (message : String) (span : Span) : Classification :=
  c.push (.warning ⟨message, span⟩)

end Classification

def ImportDecl.item (d : ImportDecl) : ImportItem :=
  { span := d.span
    bindings := d.specifiers.map fun s =>
      { name := s.name.name, imported := s.imported, kind := s.kind, span := s.span,
        typeOnly := d.typeOnly || s.typeOnly }
    source := d.source.value
    typeOnly := d.typeOnly
    generated := false }

def Stmt.exportItem? : Stmt → Option ExportItem
  | .exportDefault s _ => some ⟨s, .default, ["default"], false, none⟩
  | .exportNamed s typeOnly specifiers _ =>
    some ⟨s, .named, specifiers.map ExportSpecifier.exportedName, typeOnly, none⟩
  | .exportDecl s decl =>
    let isType := match decl with
      | .typeDecl _ => true
      | _ => false
    some ⟨s, .declaration, decl.declaredNames, isType, none⟩
  | .exportAll s typeOnly source => some ⟨s, .all, [], typeOnly, some source.value⟩
  | .exportOther s _ => some ⟨s, .all, [], false, none⟩
  | _ => none

def Declarator.items (d : Declarator) (kind : VarKind) (parent : Span) : List Item :=
  (d.name.leaves false).map fun (ident, rest) =>
    .declaration
      { name := ident.name, kind := .variable kind, content := ident.span, declarator := d.span
        parent, rest, generated := false }

namespace Classification

def macroOutsideSetup (c : Classification) (e : Expr) : Classification :=
  match e.unwrapped.call? with
  | some call =>
    match call.name?, call.macroKind? with
    | some name, some _ =>
      c.warn s!"`{name}()` is a compiler macro and is only usable inside <script setup>" call.span
    | _, _ => c
  | none => c

/-- The call that a statement consists of, unless it is that of a macro. -/
def functionCall? (e : Expr) : Option Item := do
  let call ← e.unwrapped.call?
  let name ← call.name?
  if (MacroKind.ofCallee? name).isSome then none
  else some (.functionCall ⟨name, call.span, call.callee.span⟩)

def topLevel (o : ClassifyOptions) (c : Classification) (stmt : Stmt) : Classification :=
  let binding (ident : Option Ident) (kind : BindingKind) : Classification :=
    match ident with
    | some i => c.push (.binding ⟨i.name, i.span, kind⟩)
    | none => c
  let outside (c : Classification) (e : Expr) : Classification :=
    if o.mode = .shallow then c.macroOutsideSetup e else c
  match stmt with
  | .importDecl d => c.push (.importItem d.item)
  | .varDecl s kind _ ds =>
    ds.foldl (fun c d =>
      let c := (d.items kind s).foldl push c
      match d.init with
      | some e => outside c e
      | none => c) c
  | .fn f => binding f.ident .function
  | .classDecl _ i _ => binding i .classDecl
  | .enumDecl d => binding (some d.ident) .enum
  | .expr _ e =>
    let c := match functionCall? e with
      | some item => c.push item
      | none => c
    outside c e
  | stmt =>
    match stmt.exportItem? with
    | some item =>
      let c :=
        if o.mode = .deep && !item.typeOnly then
          c.push (.error ⟨"<script setup> cannot contain ES module exports", item.span⟩)
        else c
      c.push (.exportItem item)
    | none => c

def isBare (top : Stmt) (call : Call) : Bool :=
  match top with
  | .expr _ e => e.unwrapped.span == call.span
  | _ => false

def assignedName? (top : Stmt) (call : Call) : Option String :=
  let ofDeclarators (ds : List Declarator) : Option String :=
    ds.findSome? fun d =>
      match d.init, d.name with
      | some e, .ident i _ => if e.unwrapped.span = call.span then some i.name else none
      | _, _ => none
  match top with
  | .varDecl _ _ _ ds => ofDeclarators ds
  | .exportDecl _ (.varDecl _ _ _ ds) => ofDeclarators ds
  | _ => none

/-- The items that a macro without type arguments brings in: an import of its helper type, a variable
and a type alias. -/
def macroImports (o : ClassifyOptions) (m : MacroItem) : List Item :=
  let helper := m.kind.helper
  let declared (name : String) (kind : DeclarationKind) : Item :=
    .declaration
      { name, kind, content := m.call, declarator := m.call, parent := m.statement
        rest := false, generated := true }
  [ .importItem
      { span := m.call
        bindings := [⟨o.marker ++ helper, some helper, .named, m.call, true⟩]
        source := o.helpersModule
        typeOnly := true
        generated := true },
    declared m.variableName (.variable .const),
    declared m.aliasName .typeAlias ]

/-- The marker of a macro call. The type arguments of `withDefaults` do not declare everything. -/
def macroItem (o : ClassifyOptions) (source : Text) (top : Stmt) (kind : MacroKind) (call : Call) :
    MacroItem :=
  let model := call.modelName
  { kind
    call := call.span
    callee := call.callee.span
    typeArgs := if call.name? = some "withDefaults" then none else call.typeArgs
    statement := top.span
    bare := isBare top call
    binding := assignedName? top call
    modelName := if kind = .model then some model else none
    propNames := match kind with
      | .props => call.propsCall.propNames source
      | .model => [model]
      | .emits | .slots => []
    variableName := kind.variableName o.marker model
    aliasName := kind.aliasName o.marker model }

/-- Expands a macro call that is not a second one of its kind; each model counts for itself. -/
def expand (o : ClassifyOptions) (source : Text) (c : Classification) (top : Stmt) (name : String)
    (kind : MacroKind) (call : Call) : Classification :=
  let m := macroItem o source top kind call
  let items := (if m.typeArgs.isSome then [] else macroImports o m) ++ [.macroCall m]
  match m.modelName with
  | some model =>
    if c.models.contains model then c.warn s!"duplicate model name \"{model}\"" call.span
    else items.foldl push { c with models := model :: c.models }
  | none =>
    if c.macros.contains kind then c.warn s!"duplicate `{name}()` call" call.span
    else items.foldl push { c with macros := kind :: c.macros }

/-- A macro call counts outside of functions and in a statement of the top level only. -/
def macroCall (o : ClassifyOptions) (source : Text) (c : Classification) (ctx : Context)
    (kind : MacroKind) (call : Call) : Classification :=
  let name := call.name?.getD ""
  if 0 < ctx.functionDepth then
    c.warn s!"`{name}()` is a compiler macro and cannot be called inside a function" call.span
  else match c.top with
    | none => c
    | some top =>
      if 1 < ctx.depth then
        c.warn s!"`{name}()` must be called in a top-level statement of <script setup>" call.span
      else c.expand o source top name kind call

def enter (o : ClassifyOptions) (source : Text) (node : Node) (ctx : Context) (c : Classification) :
    Bool × Classification :=
  match node with
  | .stmt s =>
    if ctx.depth = 0 then
      let c := { c with top := c.top.or (some s), openStmts := c.openStmts + 1 }
      (true, c.topLevel o s)
    else (true, c)
  | .expr (.await s _) =>
    if ctx.functionDepth = 0 && !c.sawAwait then
      (true, { c.push (.async (some s)) with sawAwait := true })
    else (true, c)
  | .expr e =>
    match e.call?, e.call?.bind Call.macroKind? with
    | some call, some kind => (false, c.macroCall o source ctx kind call)
    | _, _ => (true, c)
  | .pat _ => (true, c)

def leave (node : Node) (ctx : Context) (c : Classification) : Classification :=
  match node with
  | .stmt _ =>
    if ctx.depth = 0 then
      { c with
        openStmts := c.openStmts - 1
        top := if c.openStmts ≤ 1 then none else c.top }
    else c
  | _ => c

end Classification

def classify (o : ClassifyOptions) (source : Text) (program : Program) : List Item :=
  let visitor : Visitor Classification :=
    { enter := Classification.enter o source, leave := Classification.leave }
  let c := walk visitor o.mode program {}
  let c := if o.mode = .deep && !c.sawAwait then c.push (.async none) else c
  c.items.toList

end SfcTsx.Script
