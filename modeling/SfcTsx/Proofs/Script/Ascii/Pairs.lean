import SfcTsx.Proofs.Script.Ascii.Tokens
import SfcTsx.Script.Tolerant
import Mathlib.Data.Option.Defs

namespace SfcTsx.Script

variable {b b' : Bool} {α : Type} {i i' : Ident} {s s' : Span} {i? i?' : Option Ident} {n n' : Nat}

variable (source : Text)

/-- The name is what stands at the span. -/
def Ident.spelled (i : Ident) : Ident := ⟨i.span, String.ofList (i.span.text source)⟩

/-- The names in the other module are in ASCII. -/
def ImportDecl.viaAscii (d : ImportDecl) : ImportDecl :=
  { d with specifiers := d.specifiers.map fun s => { s with imported := s.imported.map asciiText } }

mutual

def Stmt.viaAscii : Stmt → Stmt
  | .importDecl d => .importDecl d.viaAscii
  | .exportDecl s d => .exportDecl s d.viaAscii
  | .exportDefault s e => .exportDefault s e.viaAscii
  | .exportNamed s t names module => .exportNamed s t names module
  | .exportAll s t module => .exportAll s t module
  | .exportOther s exprs => .exportOther s (viaAsciiExprs exprs)
  | .varDecl s kind declare ds => .varDecl s kind declare (viaAsciiDeclarators ds)
  | .fn fn => .fn fn.viaAscii
  | .classDecl s i members => .classDecl s i (viaAsciiExprs members)
  | .enumDecl d => .enumDecl d
  | .typeDecl d => .typeDecl d
  | .expr s e => .expr s e.viaAscii
  | .block s stmts => .block s (viaAsciiStmts stmts)
  | .ifElse s test cons alt => .ifElse s test.viaAscii cons.viaAscii (viaAsciiStmt? alt)
  | .ret s arg => .ret s (viaAsciiExpr? arg)
  | .other s stmts exprs => .other s (viaAsciiStmts stmts) (viaAsciiExprs exprs)

def viaAsciiStmts : List Stmt → List Stmt
  | [] => []
  | s :: ss => s.viaAscii :: viaAsciiStmts ss

def viaAsciiStmt? : Option Stmt → Option Stmt
  | none => none
  | some s => some s.viaAscii

def viaAsciiExprs : List Expr → List Expr
  | [] => []
  | e :: es => e.viaAscii :: viaAsciiExprs es

def viaAsciiExpr? : Option Expr → Option Expr
  | none => none
  | some e => some e.viaAscii

def viaAsciiElems : List (Option Expr) → List (Option Expr)
  | [] => []
  | e :: es => viaAsciiExpr? e :: viaAsciiElems es

def viaAsciiDeclarators : List Declarator → List Declarator
  | [] => []
  | d :: ds => d.viaAscii :: viaAsciiDeclarators ds

def Declarator.viaAscii : Declarator → Declarator
  | ⟨s, name, init⟩ => ⟨s, name.viaAscii, viaAsciiExpr? init⟩

def Fn.viaAscii : Fn → Fn
  | ⟨s, ident, isAsync, isArrow, params, body⟩ =>
    ⟨s, ident, isAsync, isArrow, viaAsciiPats params, body.viaAscii⟩

def FnBody.viaAscii : FnBody → FnBody
  | .block s stmts => .block s (viaAsciiStmts stmts)
  | .expr e => .expr e.viaAscii
  | .none => .none

def Expr.viaAscii : Expr → Expr
  | .ident i => .ident i
  | .lit l => .lit l
  | .call s callee typeArgs args => .call s callee.viaAscii typeArgs (viaAsciiExprs args)
  | .member s obj name => .member s obj.viaAscii name
  | .privateMember s obj name => .privateMember s obj.viaAscii name
  | .index s obj key => .index s obj.viaAscii key.viaAscii
  | .fn fn => .fn fn.viaAscii
  | .object s props => .object s (viaAsciiProps props)
  | .array s elems => .array s (viaAsciiElems elems)
  | .spread s arg => .spread s arg.viaAscii
  | .await s arg => .await s arg.viaAscii
  | .paren s e => .paren s e.viaAscii
  | .cast s kind e type => .cast s kind e.viaAscii type
  | .other s exprs => .other s (viaAsciiExprs exprs)

def viaAsciiProps : List ObjectProp → List ObjectProp
  | [] => []
  | p :: ps => p.viaAscii :: viaAsciiProps ps

def ObjectProp.viaAscii : ObjectProp → ObjectProp
  | .keyValue s key value => .keyValue s key.viaAscii value.viaAscii
  | .shorthand i => .shorthand (i.spelled source)
  | .method s key fn => .method s key.viaAscii fn.viaAscii
  | .spread s arg => .spread s arg.viaAscii

def PropKey.viaAscii : PropKey → PropKey
  | .ident i => .ident (i.spelled source)
  | .string l => .string l
  | .number l => .number l
  | .computed e => .computed e.viaAscii

def viaAsciiPats : List Pat → List Pat
  | [] => []
  | p :: ps => p.viaAscii :: viaAsciiPats ps

def viaAsciiPatElems : List (Option Pat) → List (Option Pat)
  | [] => []
  | none :: ps => none :: viaAsciiPatElems ps
  | some p :: ps => some p.viaAscii :: viaAsciiPatElems ps

def Pat.viaAscii : Pat → Pat
  | .ident i type => .ident i type
  | .object s props type => .object s (viaAsciiPatProps props) type
  | .array s elems type => .array s (viaAsciiPatElems elems) type
  | .rest s arg => .rest s arg.viaAscii
  | .assign s left right => .assign s left.viaAscii right.viaAscii
  | .invalid s => .invalid s

def viaAsciiPatProps : List PatProp → List PatProp
  | [] => []
  | p :: ps => p.viaAscii :: viaAsciiPatProps ps

def PatProp.viaAscii : PatProp → PatProp
  | .keyValue s key value => .keyValue s key.viaAscii value.viaAscii
  | .shorthand s key value => .shorthand s (key.spelled source) (viaAsciiExpr? value)
  | .rest s arg => .rest s arg.viaAscii

end

def Program.viaAscii (p : Program) : Program := { p with body := viaAsciiStmts source p.body }

/-- When a value of the ASCII form and a value of the script belong together. -/
class Paired (α : Type) where
  rel : Ascii → α → α → Prop

class Pair (a : Ascii) {α : Type} [Paired α] (x y : α) : Prop where
  rel : Paired.rel a x y

structure Match (a : Ascii) (α : Type) [Paired α] where
  left : α
  right : α
  rel : Paired.rel a left right

instance (a : Ascii) [Paired α] (z : Match a α) : Pair a z.left z.right := ⟨z.rel⟩

/-- The two values do not differ, though one is of the ASCII form and one of the script. -/
class Same (a : Ascii) {α : Type} (x y : α) : Prop where
  eq : x = y

/-- Of this kind, values that belong together do not differ. -/
class Rigid (α : Type) [Paired α] : Prop where
  eq_of_rel : ∀ {a : Ascii} {x y : α}, Paired.rel a x y → x = y

instance : Paired PUnit := ⟨fun _ => Eq⟩

instance : Paired Bool := ⟨fun _ => Eq⟩

instance : Paired Nat := ⟨fun a n n' => a.offset n = n'⟩

instance : Paired String := ⟨fun _ s s' => s = asciiText s'⟩

instance : Paired Span := ⟨fun a s s' => a.span s = s'⟩

instance : Paired Token := ⟨Token.Twin⟩

instance : Paired Ident := ⟨fun a i i' => a.relocation.ident i = i'⟩

instance : Paired StringLit := ⟨fun a l l' => a.relocation.stringLit l = l'⟩

instance : Paired ImportSpecifier :=
  ⟨fun a s s' => { s with span := a.span s.span, name := a.relocation.ident s.name } =
    { s' with imported := s'.imported.map asciiText }⟩

instance : Paired ExportSpecifier :=
  ⟨fun a s s' => a.relocation.exportSpecifier s = s'⟩

instance : Paired Stmt :=
  ⟨fun a x y => x.relocate a.relocation = y.viaAscii a.source⟩

instance : Paired Declarator :=
  ⟨fun a x y => x.relocate a.relocation = y.viaAscii a.source⟩

instance : Paired Fn :=
  ⟨fun a x y => x.relocate a.relocation = y.viaAscii a.source⟩

instance : Paired FnBody :=
  ⟨fun a x y => x.relocate a.relocation = y.viaAscii a.source⟩

instance : Paired Expr :=
  ⟨fun a x y => x.relocate a.relocation = y.viaAscii a.source⟩

instance : Paired ObjectProp :=
  ⟨fun a x y => x.relocate a.relocation = y.viaAscii a.source⟩

instance : Paired PropKey :=
  ⟨fun a x y => x.relocate a.relocation = y.viaAscii a.source⟩

instance : Paired Pat :=
  ⟨fun a x y => x.relocate a.relocation = y.viaAscii a.source⟩

instance : Paired PatProp :=
  ⟨fun a x y => x.relocate a.relocation = y.viaAscii a.source⟩

instance [Paired α] : Paired (Option α) := ⟨fun a => Option.Rel (Paired.rel a)⟩

instance [Paired α] : Paired (List α) := ⟨fun a => List.Forall₂ (Paired.rel a)⟩

instance {β : Type} [Paired α] [Paired β] : Paired (α × β) :=
  ⟨fun a x y => Paired.rel a x.1 y.1 ∧ Paired.rel a x.2 y.2⟩

instance : Rigid PUnit := ⟨id⟩

instance : Rigid Bool := ⟨id⟩

section spans

variable (m : Relocation)

@[simp] theorem Fn.span_relocate (fn : Fn) : (fn.relocate m).span = m.span fn.span := by
  cases fn
  rfl

@[simp] theorem Fn.span_viaAscii (fn : Fn) : (fn.viaAscii source).span = fn.span := by
  cases fn
  rfl

@[simp] theorem Stmt.span_relocate (x : Stmt) : (x.relocate m).span = m.span x.span := by
  cases x <;> simp [Stmt.relocate, Stmt.span, Relocation.importDecl]

@[simp] theorem Stmt.span_viaAscii (x : Stmt) : (x.viaAscii source).span = x.span := by
  cases x <;> simp [Stmt.viaAscii, Stmt.span, ImportDecl.viaAscii]

@[simp] theorem Expr.span_relocate (e : Expr) : (e.relocate m).span = m.span e.span := by
  cases e <;> simp [Expr.relocate, Expr.span, Relocation.ident, Relocation.lit]

@[simp] theorem Expr.span_viaAscii (e : Expr) : (e.viaAscii source).span = e.span := by
  cases e <;> simp [Expr.viaAscii, Expr.span]

@[simp] theorem PropKey.span_relocate (k : PropKey) : (k.relocate m).span = m.span k.span := by
  cases k <;>
    simp [PropKey.relocate, PropKey.span, Relocation.ident, Relocation.stringLit]

@[simp] theorem PropKey.span_viaAscii (k : PropKey) : (k.viaAscii source).span = k.span := by
  cases k <;> simp [PropKey.viaAscii, PropKey.span, Ident.spelled]

end spans

variable {a : Ascii} {α β : Type}

namespace Pair

theorem congr₃ {γ δ : Type} (f : α → β → γ → δ) {x x' : α} {y y' : β} {z z' : γ} (hx : x = x')
    (hy : y = y') (hz : z = z') : f x y z = f x' y' z' := congr (congrArg₂ f hx hy) hz

theorem congr₄ {γ δ ε : Type} (f : α → β → γ → δ → ε) {x x' : α} {y y' : β} {z z' : γ} {w w' : δ}
    (hx : x = x') (hy : y = y') (hz : z = z') (hw : w = w') : f x y z w = f x' y' z' w' :=
  congr (congr₃ f hx hy hz) hw

theorem span (h : Pair a s s') : a.relocation.span s = s' := h.rel

theorem spelled (h : Pair a i.span i'.span) : a.relocation.ident i = i'.spelled a.source :=
  congrArg (fun s => Ident.mk s (String.ofList (s.text a.source))) h.rel

theorem map_eq [Paired α] {f : α → α} {x y : Option α} (h : Pair a x y)
    (hf : ∀ x y, Paired.rel a x y → f x = y) : x.map f = y := by
  cases h.rel with
  | none => rfl
  | some hxy => exact congrArg some (hf _ _ hxy)

theorem list_eq [Paired α] {f g : List α → List β} {xs ys : List α} (h : Pair a xs ys)
    (hnil : f [] = g []) (hcons : ∀ {x y xs ys}, Paired.rel a x y → f xs = g ys →
      f (x :: xs) = g (y :: ys)) : f xs = g ys := by
  obtain ⟨h⟩ := h
  induction h with
  | nil => exact hnil
  | cons hxy _ ih => exact hcons hxy ih

theorem map_eq_map [Paired α] {f g : α → β} {xs ys : List α} (h : Pair a xs ys)
    (hfg : ∀ x y, Paired.rel a x y → f x = g y) : xs.map f = ys.map g :=
  h.list_eq rfl fun hxy ih => congrArg₂ List.cons (hfg _ _ hxy) ih

theorem type {s s' : Option Span} (h : Pair a s s') :
    s.map a.relocation.span = s' := h.map_eq fun _ _ => id

theorem ident? {i i' : Option Ident} (h : Pair a i i') :
    i.map a.relocation.ident = i' := h.map_eq fun _ _ => id

theorem stringLit? {l l' : Option StringLit} (h : Pair a l l') :
    l.map a.relocation.stringLit = l' := h.map_eq fun _ _ => id

theorem stmts {ss ss' : List Stmt} (h : Pair a ss ss') :
    relocateStmts a.relocation ss = viaAsciiStmts a.source ss' :=
  h.list_eq rfl fun hx ih => congrArg₂ List.cons hx ih

theorem stmt? {s s' : Option Stmt} (h : Pair a s s') :
    relocateStmt? a.relocation s = viaAsciiStmt? a.source s' := by
  cases h.rel with
  | none => rfl
  | some hs => exact congrArg some hs

theorem exprs {es es' : List Expr} (h : Pair a es es') :
    relocateExprs a.relocation es = viaAsciiExprs a.source es' :=
  h.list_eq rfl fun hx ih => congrArg₂ List.cons hx ih

theorem expr? {e e' : Option Expr} (h : Pair a e e') :
    relocateExpr? a.relocation e = viaAsciiExpr? a.source e' := by
  cases h.rel with
  | none => rfl
  | some he => exact congrArg some he

theorem elems {es es' : List (Option Expr)} (h : Pair a es es') :
    relocateElems a.relocation es = viaAsciiElems a.source es' :=
  h.list_eq rfl fun hx ih => congrArg₂ List.cons (expr? ⟨hx⟩) ih

theorem declarators {ds ds' : List Declarator} (h : Pair a ds ds') :
    relocateDeclarators a.relocation ds =
      viaAsciiDeclarators a.source ds' :=
  h.list_eq rfl fun hx ih => congrArg₂ List.cons hx ih

theorem props {ps ps' : List ObjectProp} (h : Pair a ps ps') :
    relocateProps a.relocation ps = viaAsciiProps a.source ps' :=
  h.list_eq rfl fun hx ih => congrArg₂ List.cons hx ih

theorem pats {ps ps' : List Pat} (h : Pair a ps ps') :
    relocatePats a.relocation ps = viaAsciiPats a.source ps' :=
  h.list_eq rfl fun hx ih => congrArg₂ List.cons hx ih

theorem patElems {ps ps' : List (Option Pat)} (h : Pair a ps ps') :
    relocatePatElems a.relocation ps =
      viaAsciiPatElems a.source ps' := by
  obtain ⟨h⟩ := h
  induction h with
  | nil => rfl
  | cons hx _ ih =>
    cases hx with
    | none => exact congrArg (none :: ·) ih
    | some hx => exact congrArg₂ (some · :: ·) hx ih

theorem patProps {ps ps' : List PatProp} (h : Pair a ps ps') : relocatePatProps a.relocation ps =
      viaAsciiPatProps a.source ps' :=
  h.list_eq rfl fun hx ih => congrArg₂ List.cons hx ih

section trees

variable {s s' : Span} [hs : Pair a s s'] {i i' : Ident} [hi : Pair a i i'] {l l' : StringLit}
  [hl : Pair a l l'] {t t' : Option Span} [ht : Pair a t t'] {e e' e₁ e₁' : Expr} [he : Pair a e e']
  [he₁ : Pair a e₁ e₁'] {e? e?' : Option Expr} [he? : Pair a e? e?'] {es es' : List Expr}
  [hes : Pair a es es'] {x x' : Stmt} [hx : Pair a x x'] {xs xs' : List Stmt} [hxs : Pair a xs xs']
  {f f' : Fn} [hf : Pair a f f'] {p p' : Pat} [hp : Pair a p p'] {k k' : PropKey} [hk : Pair a k k']

instance importSpecifierMk {kind : ImportKind} {v v' : Option String} [hv : Pair a v v'] [hb : Same a b b'] :
    Pair a (ImportSpecifier.mk s kind i v b) (ImportSpecifier.mk s' kind i' v' b') where
  rel := by
    have hv : v = v'.map asciiText := by
      cases hv.rel with
      | none => rfl
      | some hx => exact congrArg Option.some hx
    exact congr₄ (ImportSpecifier.mk · kind · · ·) hs.rel hi.rel hv hb.eq

instance exportSpecifierMk [hi? : Pair a i? i?']
    [hb : Same a b b'] : Pair a (ExportSpecifier.mk s i i? b) (ExportSpecifier.mk s' i' i?' b') where
  rel := congr₄ ExportSpecifier.mk hs.rel hi.rel hi?.ident? hb.eq

instance stmtImport {ss ss' : List ImportSpecifier} [hss : Pair a ss ss'] [hb : Same a b b'] :
    Pair a (Stmt.importDecl ⟨s, ss, l, b⟩) (Stmt.importDecl ⟨s', ss', l', b'⟩) where
  rel := by
    have hss : (a.relocation.importDecl ⟨s, ss, l, b⟩).specifiers =
        (ImportDecl.viaAscii ⟨s', ss', l', b'⟩).specifiers := map_eq_map hss fun _ _ => id
    exact congr₄ (fun s ss l b => Stmt.importDecl ⟨s, ss, l, b⟩) hs.rel hss hl.rel hb.eq

instance stmtExportDecl : Pair a (Stmt.exportDecl s x) (Stmt.exportDecl s' x') :=
  ⟨congrArg₂ Stmt.exportDecl hs.rel hx.rel⟩

instance stmtExportDefault : Pair a (Stmt.exportDefault s e) (Stmt.exportDefault s' e') :=
  ⟨congrArg₂ Stmt.exportDefault hs.rel he.rel⟩

instance stmtExportNamed {ss ss' : List ExportSpecifier} [hss : Pair a ss ss'] {l? l?' : Option StringLit}
    [hl? : Pair a l? l?'] [hb : Same a b b'] :
    Pair a (Stmt.exportNamed s b ss l?) (Stmt.exportNamed s' b' ss' l?') where
  rel := by
    have hss : ss.map a.relocation.exportSpecifier = ss' := by
      rw [← List.map_id ss']
      exact map_eq_map hss fun _ _ => id
    exact congr₄ Stmt.exportNamed hs.rel hb.eq hss hl?.stringLit?

instance stmtExportAll [hb : Same a b b'] :
    Pair a (Stmt.exportAll s b l) (Stmt.exportAll s' b' l') :=
  ⟨congr₃ Stmt.exportAll hs.rel hb.eq hl.rel⟩

instance stmtExportOther : Pair a (Stmt.exportOther s es) (Stmt.exportOther s' es') :=
  ⟨congrArg₂ Stmt.exportOther hs.rel hes.exprs⟩

instance stmtVarDecl {kind kind' : VarKind} [hkind : Same a kind kind']
    {ds ds' : List Declarator} [hds : Pair a ds ds'] :
    Pair a (Stmt.varDecl s kind b ds) (Stmt.varDecl s' kind' b ds') :=
  ⟨congr₃ (Stmt.varDecl · · b ·) hs.rel hkind.eq hds.declarators⟩

instance stmtFn : Pair a (Stmt.fn f) (Stmt.fn f') := ⟨congrArg Stmt.fn hf.rel⟩

instance stmtClassDecl [hi? : Pair a i? i?'] :
    Pair a (Stmt.classDecl s i? es) (Stmt.classDecl s' i?' es') :=
  ⟨congr₃ Stmt.classDecl hs.rel hi?.ident? hes.exprs⟩

instance stmtEnumDecl {c : Bool} :
    Pair a (Stmt.enumDecl ⟨s, i, b, c⟩) (Stmt.enumDecl ⟨s', i', b, c⟩) :=
  ⟨congrArg₂ (fun s i => Stmt.enumDecl ⟨s, i, b, c⟩) hs.rel hi.rel⟩

instance stmtTypeDecl {kind : TypeDeclKind} :
    Pair a (Stmt.typeDecl ⟨s, kind, i⟩) (Stmt.typeDecl ⟨s', kind, i'⟩) :=
  ⟨congrArg₂ (fun s i => Stmt.typeDecl ⟨s, kind, i⟩) hs.rel hi.rel⟩

instance stmtExpr : Pair a (Stmt.expr s e) (Stmt.expr s' e') := ⟨congrArg₂ Stmt.expr hs.rel he.rel⟩

instance stmtBlock : Pair a (Stmt.block s xs) (Stmt.block s' xs') :=
  ⟨congrArg₂ Stmt.block hs.rel hxs.stmts⟩

instance stmtIfElse {x? x?' : Option Stmt} [hx? : Pair a x? x?'] :
    Pair a (Stmt.ifElse s e x x?) (Stmt.ifElse s' e' x' x?') :=
  ⟨congr₄ Stmt.ifElse hs.rel he.rel hx.rel hx?.stmt?⟩

instance stmtRet : Pair a (Stmt.ret s e?) (Stmt.ret s' e?') := ⟨congrArg₂ Stmt.ret hs.rel he?.expr?⟩

instance stmtOther : Pair a (Stmt.other s xs es) (Stmt.other s' xs' es') :=
  ⟨congr₃ Stmt.other hs.rel hxs.stmts hes.exprs⟩

instance declaratorMk : Pair a (Declarator.mk s p e?) (Declarator.mk s' p' e?') :=
  ⟨congr₃ Declarator.mk hs.rel hp.rel he?.expr?⟩

instance fnMk [hi? : Pair a i? i?'] {c : Bool} {ps ps' : List Pat}
    [hps : Pair a ps ps'] {body body' : FnBody} [hbody : Pair a body body'] :
    Pair a (Fn.mk s i? b c ps body) (Fn.mk s' i?' b c ps' body') :=
  ⟨congr₄ (Fn.mk · · b c · ·) hs.rel hi?.ident? hps.pats hbody.rel⟩

instance bodyBlock : Pair a (FnBody.block s xs) (FnBody.block s' xs') :=
  ⟨congrArg₂ FnBody.block hs.rel hxs.stmts⟩

instance bodyExpr : Pair a (FnBody.expr e) (FnBody.expr e') := ⟨congrArg FnBody.expr he.rel⟩

instance bodyNone : Pair a FnBody.none FnBody.none := ⟨rfl⟩

instance exprIdent : Pair a (Expr.ident i) (Expr.ident i') := ⟨congrArg Expr.ident hi.rel⟩

instance exprCall : Pair a (Expr.call s e t es) (Expr.call s' e' t' es') :=
  ⟨congr₄ Expr.call hs.rel he.rel ht.type hes.exprs⟩

instance exprMember : Pair a (Expr.member s e i) (Expr.member s' e' i') :=
  ⟨congr₃ Expr.member hs.rel he.rel hi.rel⟩

instance exprPrivateMember : Pair a (Expr.privateMember s e i) (Expr.privateMember s' e' i') :=
  ⟨congr₃ Expr.privateMember hs.rel he.rel hi.rel⟩

instance exprIndex : Pair a (Expr.index s e e₁) (Expr.index s' e' e₁') :=
  ⟨congr₃ Expr.index hs.rel he.rel he₁.rel⟩

instance exprFn : Pair a (Expr.fn f) (Expr.fn f') := ⟨congrArg Expr.fn hf.rel⟩

instance exprObject {ps ps' : List ObjectProp} [hps : Pair a ps ps'] :
    Pair a (Expr.object s ps) (Expr.object s' ps') := ⟨congrArg₂ Expr.object hs.rel hps.props⟩

instance exprArray {es es' : List (Option Expr)} [hes : Pair a es es'] :
    Pair a (Expr.array s es) (Expr.array s' es') := ⟨congrArg₂ Expr.array hs.rel hes.elems⟩

instance exprSpread : Pair a (Expr.spread s e) (Expr.spread s' e') :=
  ⟨congrArg₂ Expr.spread hs.rel he.rel⟩

instance exprAwait : Pair a (Expr.await s e) (Expr.await s' e') := ⟨congrArg₂ Expr.await hs.rel he.rel⟩

instance exprParen : Pair a (Expr.paren s e) (Expr.paren s' e') := ⟨congrArg₂ Expr.paren hs.rel he.rel⟩

instance exprCast {kind kind' : CastKind} [hkind : Same a kind kind'] :
    Pair a (Expr.cast s kind e t) (Expr.cast s' kind' e' t') :=
  ⟨congr₄ Expr.cast hs.rel hkind.eq he.rel ht.type⟩

instance exprOther : Pair a (Expr.other s es) (Expr.other s' es') :=
  ⟨congrArg₂ Expr.other hs.rel hes.exprs⟩

instance propKeyValue : Pair a (ObjectProp.keyValue s k e) (ObjectProp.keyValue s' k' e') :=
  ⟨congr₃ ObjectProp.keyValue hs.rel hk.rel he.rel⟩

instance propShorthand [hi : Pair a i.span i'.span] :
    Pair a (ObjectProp.shorthand i) (ObjectProp.shorthand i') :=
  ⟨congrArg ObjectProp.shorthand hi.spelled⟩

instance propMethod : Pair a (ObjectProp.method s k f) (ObjectProp.method s' k' f') :=
  ⟨congr₃ ObjectProp.method hs.rel hk.rel hf.rel⟩

instance propSpread : Pair a (ObjectProp.spread s e) (ObjectProp.spread s' e') :=
  ⟨congrArg₂ ObjectProp.spread hs.rel he.rel⟩

instance keyIdent [hi : Pair a i.span i'.span] :
    Pair a (PropKey.ident i) (PropKey.ident i') := ⟨congrArg PropKey.ident hi.spelled⟩

instance keyString : Pair a (PropKey.string l) (PropKey.string l') := ⟨congrArg PropKey.string hl.rel⟩

instance keyNumber {v v' : String} [hv : Same a v v'] :
    Pair a (PropKey.number ⟨s, .number, v⟩) (PropKey.number ⟨s', .number, v'⟩) :=
  ⟨congrArg₂ (fun s v => PropKey.number ⟨s, .number, v⟩) hs.rel hv.eq⟩

instance keyComputed : Pair a (PropKey.computed e) (PropKey.computed e') :=
  ⟨congrArg PropKey.computed he.rel⟩

instance patIdent : Pair a (Pat.ident i t) (Pat.ident i' t') := ⟨congrArg₂ Pat.ident hi.rel ht.type⟩

instance patObject {ps ps' : List PatProp} [hps : Pair a ps ps'] :
    Pair a (Pat.object s ps t) (Pat.object s' ps' t') :=
  ⟨congr₃ Pat.object hs.rel hps.patProps ht.type⟩

instance patArray {ps ps' : List (Option Pat)} [hps : Pair a ps ps'] :
    Pair a (Pat.array s ps t) (Pat.array s' ps' t') :=
  ⟨congr₃ Pat.array hs.rel hps.patElems ht.type⟩

instance patRest : Pair a (Pat.rest s p) (Pat.rest s' p') := ⟨congrArg₂ Pat.rest hs.rel hp.rel⟩

instance patAssign : Pair a (Pat.assign s p e) (Pat.assign s' p' e') :=
  ⟨congr₃ Pat.assign hs.rel hp.rel he.rel⟩

instance patInvalid : Pair a (Pat.invalid s) (Pat.invalid s') := ⟨congrArg Pat.invalid hs.rel⟩

instance patKeyValue : Pair a (PatProp.keyValue s k p) (PatProp.keyValue s' k' p') :=
  ⟨congr₃ PatProp.keyValue hs.rel hk.rel hp.rel⟩

instance patShorthand [hi : Pair a i.span i'.span] :
    Pair a (PatProp.shorthand s i e?) (PatProp.shorthand s' i' e?') :=
  ⟨congr₃ PatProp.shorthand hs.rel hi.spelled he?.expr?⟩

instance patPropRest : Pair a (PatProp.rest s p) (PatProp.rest s' p') :=
  ⟨congrArg₂ PatProp.rest hs.rel hp.rel⟩

end trees

section values

variable [Paired α] [Paired β] {x y : α} {xs ys zs ws : List α} {o o' : Option α}

instance punit (x y : PUnit) : Pair a x y := ⟨rfl⟩

instance none : Pair a (none : Option α) none := ⟨.none⟩

instance some [h : Pair a x y] : Pair a (some x) (some y) := ⟨.some h.rel⟩

instance nil : Pair a ([] : List α) [] := ⟨.nil⟩

instance cons [h : Pair a x y] [hs : Pair a xs ys] : Pair a (x :: xs) (y :: ys) := ⟨.cons h.rel hs.rel⟩

instance singleton [h : Pair a x y] : Pair a (List.singleton x) (List.singleton y) := cons

instance append [h : Pair a xs ys] [h' : Pair a zs ws] : Pair a (xs ++ zs) (ys ++ ws) :=
  ⟨List.rel_append h.rel h'.rel⟩

instance toList [h : Pair a o o'] : Pair a o.toList o'.toList := by
  cases h.rel with
  | none => exact nil
  | some hx => exact ⟨.cons hx .nil⟩

instance map {f g : α → β} [h : Pair a o o'] [hf : ∀ z : Match a α, Pair a (f z.left) (g z.right)] :
    Pair a (o.map f) (o'.map g) := by
  cases h.rel with
  | none => exact none
  | some hx => exact ⟨.some (hf ⟨_, _, hx⟩).rel⟩

instance prod {x' y' : β} [h : Pair a x y] [h' : Pair a x' y'] : Pair a (x, x') (y, y') :=
  ⟨h.rel, h'.rel⟩

instance of_same [h : Same a b b'] : Pair a b b' := ⟨h.eq⟩

end values

section spans

variable {t t' : Token} [ht : Pair a t t']

instance tokenSpan : Pair a t.span t'.span := ⟨ht.rel.span⟩

instance tokenText : Pair a t.text t'.text := ⟨ht.rel.text⟩

instance tokenIdentSpan : Pair a t.ident.span t'.ident.span := ⟨ht.rel.span⟩

instance tokenIdent : Pair a t.ident t'.ident where
  rel := by
    refine congrArg₂ Ident.mk ht.rel.span ?_
    rw [show t.ident.span = t.span from rfl, ht.rel.text_eq, String.ofList_toList]

instance tokenStringLit : Pair a t.stringLit t'.stringLit where
  rel := congrArg₂ (fun s v => StringLit.mk s (String.ofList (unquote v))) ht.rel.span ht.rel.text_eq

theorem tokenLit {v : String} {kind : LitKind} (hkind : kind ≠ .string) :
    Pair a (Expr.lit ⟨t.span, kind, v⟩) (Expr.lit ⟨t'.span, kind, t'.text⟩) where
  rel := by
    refine congrArg₂ (fun s v => Expr.lit ⟨s, kind, v⟩) ht.rel.span ?_
    rw [if_neg hkind, ht.rel.text_eq, String.ofList_toList]

section literals

variable {v : String}

instance litNumber : Pair a (Expr.lit ⟨t.span, .number, v⟩) (Expr.lit ⟨t'.span, .number, t'.text⟩) :=
  tokenLit nofun

instance litRegex : Pair a (Expr.lit ⟨t.span, .regex, v⟩) (Expr.lit ⟨t'.span, .regex, t'.text⟩) :=
  tokenLit nofun

instance litTemplate : Pair a (Expr.lit ⟨t.span, .template, v⟩) (Expr.lit ⟨t'.span, .template, t'.text⟩) :=
  tokenLit nofun

instance litBool (b : Bool) :
    Pair a (Expr.lit ⟨t.span, .bool b, v⟩) (Expr.lit ⟨t'.span, .bool b, t'.text⟩) := tokenLit nofun

instance litNull : Pair a (Expr.lit ⟨t.span, .null, v⟩) (Expr.lit ⟨t'.span, .null, t'.text⟩) :=
  tokenLit nofun

instance litString :
    Pair a (Expr.lit ⟨t.span, .string, v⟩) (Expr.lit ⟨t'.span, .string, t'.stringLit.value⟩) where
  rel := by
    refine congrArg₂ (fun s v => Expr.lit ⟨s, .string, v⟩) ht.rel.span ?_
    rw [if_pos rfl, ht.rel.text_eq]
    rfl

end literals

instance emptyStringLit [hn : Pair a n n'] :
    Pair a (StringLit.mk (Span.empty n) "") (StringLit.mk (Span.empty n') "") where
  rel := by
    have hs : a.relocation.span (Span.empty n) = Span.empty n' := congrArg Span.empty hn.rel
    have htext : a.relocation.text (Span.empty n) = [] := by
      rw [Relocation.text, hs, Span.text, Span.empty, Text.slice, Text.slice?, if_pos (Nat.le_refl _),
        Nat.sub_self]
      cases Text.drop? n' a.relocation.source with
      | none => rfl
      | some rest => cases rest <;> rfl
    simp only [Paired.rel, Relocation.stringLit, hs, htext]
    rfl

instance start [hs : Pair a s s'] : Pair a s.start s'.start :=
  ⟨congrArg Span.start hs.rel⟩

instance stop [hs : Pair a s s'] : Pair a s.stop s'.stop :=
  ⟨congrArg Span.stop hs.rel⟩

instance spanMk {k k' : Nat} [hn : Pair a n n'] [hk : Pair a k k'] :
    Pair a (Span.mk n k) (Span.mk n' k') := ⟨congrArg₂ Span.mk hn.rel hk.rel⟩

instance spanEmpty [hn : Pair a n n'] : Pair a (Span.empty n) (Span.empty n') := spanMk

instance stmtSpan {x x' : Stmt} [hx : Pair a x x'] : Pair a x.span x'.span := by
  have h := congrArg Stmt.span hx.rel
  rw [Stmt.span_viaAscii, Stmt.span_relocate] at h
  exact ⟨h⟩

instance keySpan {k k' : PropKey} [hk : Pair a k k'] : Pair a k.span k'.span := by
  have h := congrArg PropKey.span hk.rel
  rw [PropKey.span_viaAscii, PropKey.span_relocate] at h
  exact ⟨h⟩

end spans
end Pair

end SfcTsx.Script
