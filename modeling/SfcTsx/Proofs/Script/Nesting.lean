import SfcTsx.Proofs.Script.Classify
import SfcTsx.Proofs.Script.Spans

namespace SfcTsx.Script

variable {x : Stmt} {p q : Place} {o : ClassifyOptions} {source : Text} {s : Span}

def Item.declared? : Item → Option DeclarationItem
  | .declaration d => if d.generated then none else some d
  | _ => none

/-- The name that is called and the type arguments lie in the call, and the call in the statement. -/
structure MacroItem.Nests (m : MacroItem) : Prop where
  callee : m.callee.Inside m.call
  call : m.call.Inside m.statement
  typeArgs : ∀ t ∈ m.typeArgs, t.Inside m.call

def Stmt.declarations (x : Stmt) : List DeclarationItem :=
  x.declarators.flatMap fun d => (d.2.2.items d.2.1 d.1).filterMap Item.declared?

theorem Node.within_stmt (s : Span) (x : Stmt) : (Node.stmt x).Within s := by
  induction x using Stmt.induct_export with
  | hdecl span d ih =>
    refine .intro trivial fun ctx q hq _ => ?_
    obtain rfl := List.mem_singleton.mp hq
    exact ih
  | hother x hx =>
    refine .intro trivial fun ctx q hq hctx => absurd (Node.depth_lt hx hq) ?_
    rw [hctx]
    exact Nat.lt_irrefl _

/-- A place in a statement of the top level: where a macro call counts, it fits the span. -/
def Place.Fits (s : Span) (p : Place) : Prop :=
  0 < p.ctx.depth ∧ (p.ctx.functionDepth = 0 → p.ctx.depth ≤ 1 → p.node.Within s)

theorem Place.Fits.child (h : p.Fits s) (hq : q ∈ p.node.children false p.ctx) : q.Fits s := by
  obtain ⟨_, hdepth, hfunction⟩ := Node.inside hq
  have hpos := h.1
  refine ⟨Nat.lt_of_lt_of_le hpos hdepth, fun hf hd => ?_⟩
  have hctx : q.ctx = p.ctx := congrArg₂ Context.mk
    (show q.ctx.functionDepth = p.ctx.functionDepth by omega) (show q.ctx.depth = p.ctx.depth by omega)
  cases h.2 (by omega) (by omega) with
  | intro _ below => exact below p.ctx q hq hctx

theorem Stmt.mem_nodes {ctx : Context} (hx : ∀ span d, x ≠ .exportDecl span d)
    (hq : q ∈ (Node.stmt x).children false ctx) (hctx : q.ctx = ctx.inStmt) :
    q.node ∈ x.nodes ∨ ∃ y, q.node = .stmt y := by
  cases x with
  | exportDecl span d => exact absurd rfl (hx span d)
  | fn f => exact absurd hctx (Fn.ctx_ne hq)
  | _ => grind [Node.children, Stmt.nodes, Declarator.nodes, Declarator.children]

theorem Stmt.fits_children (hx : ∀ span d, x ≠ .exportDecl span d)
    (hnodes : ∀ n ∈ x.nodes, n.Within s) (hq : q ∈ (Node.stmt x).children false {}) :
    q.Fits s := by
  have hlt : 0 < q.ctx.depth := Node.depth_lt hx hq
  refine ⟨hlt, fun hf hd => ?_⟩
  have hctx : q.ctx = Context.inStmt {} := congrArg₂ Context.mk
    (show q.ctx.functionDepth = 0 from hf) (show q.ctx.depth = 1 by omega)
  rcases mem_nodes hx hq hctx with hmem | ⟨y, hy⟩
  · exact hnodes _ hmem
  · rw [hy]
    exact Node.within_stmt s y

namespace Classification

variable {c c' c₁ c₂ : Classification}

def declared (c : Classification) : List DeclarationItem := c.items.toList.filterMap Item.declared?

/-- Of a statement of the top level, the declarations are added and calls of macros that nest. -/
structure Extends (s : Span) (ds : List DeclarationItem) (c c' : Classification) : Prop where
  top : c'.top = c.top
  openStmts : c'.openStmts = c.openStmts
  declared : c'.declared = c.declared ++ ds
  marked : ∀ m, .macroCall m ∈ c'.items → .macroCall m ∈ c.items ∨ m.statement = s ∧ m.Nests

namespace Extends

theorem refl : Extends s [] c c := ⟨rfl, rfl, (List.append_nil _).symm, fun _ => .inl⟩

theorem trans {ds es : List DeclarationItem} (h₁ : Extends s ds c c₁) (h₂ : Extends s es c₁ c₂) :
    Extends s (ds ++ es) c c₂ where
  top := h₂.top.trans h₁.top
  openStmts := h₂.openStmts.trans h₁.openStmts
  declared := by rw [h₂.declared, h₁.declared, List.append_assoc]
  marked m hm := (h₂.marked m hm).elim (h₁.marked m) .inr

theorem of_items (xs : List Item) (htop : c'.top = c.top) (hopen : c'.openStmts = c.openStmts)
    (hitems : c'.items = c.items ++ xs.toArray)
    (hxs : ∀ x ∈ xs, x.declared? = none ∧ ∀ m, x = .macroCall m → m.statement = s ∧ m.Nests) :
    Extends s [] c c' where
  top := htop
  openStmts := hopen
  declared := by
    have hnone : xs.filterMap Item.declared? = [] := List.filterMap_eq_nil_iff.mpr fun x hx => (hxs x hx).1
    simp [Classification.declared, hitems, hnone]
  marked m hm := by
    rw [hitems, Array.mem_append] at hm
    exact hm.imp id fun hm => (hxs _ (List.mem_toArray.mp hm)).2 m rfl

end Extends

/-- The marker of a macro call nests, if the call fits the statement. -/
theorem nests_macroItem {e : Expr} {top : Stmt} {kind : MacroKind} {call : Call}
    (hcall : e.macroCall? = some (call, kind)) (hfits : (Node.expr e).Within top.span) :
    (macroItem o source top kind call).Nests := by
  simp only [Expr.macroCall?, Option.bind_eq_bind, Option.bind_eq_some_iff, Option.pure_def,
    Option.some.injEq, Prod.mk.injEq] at hcall
  obtain ⟨call, hcall, kind, hkind, rfl, rfl⟩ := hcall
  simp only [Call.macroKind?, Option.bind_eq_some_iff] at hkind
  obtain ⟨name, hname, -⟩ := hkind
  cases e with
  | call t callee typeArgs args =>
    obtain rfl := Option.some.inj hcall
    cases callee with
    | ident i =>
      cases hfits with
      | intro fits _ =>
        obtain ⟨hcallee, hspan, htype⟩ := fits i rfl
        refine ⟨hcallee, hspan, fun u hu => htype u ?_⟩
        simp only [macroItem, Option.mem_def, Option.ite_none_left_eq_some] at hu
        exact hu.2
    | _ => cases hname
  | _ => cases hcall

theorem extends_macroCall {e : Expr} {ctx : Context} {kind : MacroKind} {call : Call}
    (hcall : e.macroCall? = some (call, kind)) (htop : c.top.map Stmt.span = some s)
    (hfits : ctx.functionDepth = 0 → ctx.depth ≤ 1 → (Node.expr e).Within s) :
    Extends s [] c (c.macroCall o source ctx kind call) := by
  have hwarn (message : String) : Extends s [] c (c.warn message call.span) := by
    refine .of_items [.warning ⟨message, call.span⟩] rfl rfl (by simp [warn, push]) ?_
    simp [Item.declared?]
  obtain ⟨top, hopen, rfl⟩ := Option.map_eq_some_iff.mp htop
  simp only [macroCall, hopen]
  split
  · exact hwarn _
  split
  · exact hwarn _
  have hnests : (macroItem o source top kind call).Nests :=
    nests_macroItem hcall (hfits (by omega) (by omega))
  have hspan : (macroItem o source top kind call).statement = top.span := rfl
  simp only [expand, foldl_push]
  generalize macroItem o source top kind call = item at hnests hspan ⊢
  have hitems : ∀ x ∈ (if item.typeArgs.isSome then [] else macroImports o item) ++ [.macroCall item],
      x.declared? = none ∧ ∀ m, x = .macroCall m → m.statement = top.span ∧ m.Nests := by
    split <;> simp [macroImports, Item.declared?, hnests, hspan]
  split
  · split
    · exact hwarn _
    · exact .of_items _ rfl rfl rfl hitems
  · split
    · exact hwarn _
    · exact .of_items _ rfl rfl rfl hitems

theorem extends_enter (hp : p.Fits s) (htop : c.top.map Stmt.span = some s) :
    Extends s [] c (c.enter o source p.node p.ctx).2 := by
  obtain ⟨ctx, node⟩ := p
  cases node with
  | stmt x =>
    rw [enter_stmt hp.1]
    exact .refl
  | pat p => exact .refl
  | expr e =>
    rcases enter_expr_cases o source e ctx c with ⟨call, kind, hcall, heq⟩ | ⟨t, _, _, _, _, heq⟩ | ⟨_, _, heq⟩
    · rw [heq]
      exact extends_macroCall hcall htop hp.2
    · rw [heq]
      refine .of_items [.async (some t)] rfl rfl (by simp [push]) ?_
      simp [Item.declared?]
    · rw [heq]
      exact .refl

theorem extends_walkPlaces {ps : List Place}
    (hps : ∀ p ∈ ps, ∀ c : Classification, c.top.map Stmt.span = some s →
      Extends s [] c (p.walk (classifier o source) c)) (htop : c.top.map Stmt.span = some s) :
    Extends s [] c (walkPlaces (classifier o source) ps c) := by
  induction ps generalizing c with
  | nil => exact .refl
  | cons p ps ih =>
    have hfirst := hps p (.head _) c htop
    exact hfirst.trans (ih (fun q hq => hps q (.tail _ hq)) (hfirst.top ▸ htop))

theorem extends_walk (hp : p.Fits s) (htop : c.top.map Stmt.span = some s) :
    Extends s [] c (p.walk (classifier o source) c) := by
  obtain ⟨ctx, n⟩ := p
  induction n using Node.induct generalizing ctx c with
  | h n ih =>
    have henter : Extends s [] c ((classifier o source).enter n ctx c).2 := extends_enter hp htop
    rw [Place.walk_eq, Visitor.around]
    show Extends s [] c (leave n ctx _)
    rw [leave_eq hp.1]
    split
    · refine henter.trans (extends_walkPlaces (fun q hq c htop => ?_) (henter.top ▸ htop))
      exact ih false ctx q hq htop q.ctx (hp.child hq)
    · exact henter

theorem declared_push {x : Item} (h : x.declared? = none) (c : Classification) :
    (c.push x).declared = c.declared := by simp [declared, push, h]

theorem declared_export (c : Classification) (item : ExportItem) :
    ((if o.mode = .deep && !item.typeOnly then
      c.push (.error ⟨"<script setup> cannot contain ES module exports", item.span⟩) else c).push
        (.exportItem item)).declared = c.declared := by
  rw [declared_push rfl]
  split
  · exact declared_push rfl c
  · rfl

theorem declared_topLevel (ho : o.mode = .deep) (c : Classification)
    (hx : ∀ span d, x ≠ .exportDecl span d) :
    (c.topLevel o x).declared = c.declared ++ x.declarations := by
  cases x with
  | exportDecl span d => exact absurd rfl (hx span d)
  | varDecl t kind _ ds =>
    clear hx
    simp only [topLevel, Stmt.declarations, Stmt.declarators, List.flatMap_map]
    induction ds generalizing c with
    | nil => simp
    | cons d ds ih =>
      rw [List.foldl_cons, ih, List.flatMap_cons, ← List.append_assoc]
      cases d.init <;> simp [ho, foldl_push, declared]
  | importDecl | enumDecl => exact (declared_push rfl c).trans (List.append_nil _).symm
  | fn f =>
    obtain ⟨_, i, _, _, _, _⟩ := f
    cases i with
    | none => exact (List.append_nil _).symm
    | some i => exact (declared_push rfl c).trans (List.append_nil _).symm
  | classDecl _ i _ =>
    cases i with
    | none => exact (List.append_nil _).symm
    | some i => exact (declared_push rfl c).trans (List.append_nil _).symm
  | expr t e =>
    refine Eq.trans ?_ (List.append_nil _).symm
    cases hcall : functionCall? e with
    | none => simp [topLevel, ho, hcall]
    | some x =>
      obtain ⟨item, rfl⟩ := functionCall?_eq hcall
      simpa [topLevel, ho, hcall] using declared_push rfl c
  | exportDefault | exportNamed | exportAll | exportOther =>
    exact (declared_export c _).trans (List.append_nil _).symm
  | _ => exact (List.append_nil _).symm

theorem extends_around (own : List DeclarationItem) {ds : List DeclarationItem}
    {inside : Classification → Classification} (hopen : c.top = none ↔ c.openStmts = 0)
    (hown : ∀ c : Classification, (c.topLevel o x).declared = c.declared ++ own)
    (hinside : ∀ c₁ : Classification, c₁.top = c.top.or (some x) → c₁.openStmts = c.openStmts + 1 →
      Extends s ds c₁ (inside c₁)) :
    Extends s (own ++ ds) c ((classifier o source).around {} (.stmt x) inside c) := by
  have hdeclared := hown (c.opened x)
  obtain ⟨xs, heq, hwritten⟩ := adds_topLevel o (c.opened x) x
  have henter : Extends s own (c.opened x) ((c.opened x).topLevel o x) := by
    rw [heq] at hdeclared ⊢
    refine ⟨rfl, rfl, hdeclared, fun m hm => ?_⟩
    rcases Array.mem_append.mp hm with hm | hm
    · exact .inl hm
    · exact absurd (hwritten _ (List.mem_toArray.mp hm)).marker nofun
  have hrest := henter.trans (hinside _ henter.top henter.openStmts)
  show Extends s _ c (leave (.stmt x) {} (inside ((c.opened x).topLevel o x)))
  generalize inside ((c.opened x).topLevel o x) = c' at hrest
  have hcount : c'.openStmts = c.openStmts + 1 := hrest.openStmts
  have htop : c'.top = c.top.or (some x) := hrest.top
  refine ⟨?_, ?_, hrest.declared, hrest.marked⟩
  · show (if c'.openStmts ≤ 1 then none else c'.top) = c.top
    rw [hcount, htop]
    cases hc : c.top with
    | none => simp [hopen.mp hc]
    | some y =>
      have hpos : c.openStmts ≠ 0 := fun hzero => by simp [hopen.mpr hzero] at hc
      rw [if_neg (by omega)]
      rfl
  · show c'.openStmts - 1 = c.openStmts
    omega

theorem extends_stmt (ho : o.mode = .deep) (hopen : c.top = none ↔ c.openStmts = 0)
    (hs : (c.top.or (some x)).map Stmt.span = some s) (hnodes : ∀ n ∈ x.nodes, n.Within s) :
    Extends s x.declarations c (walkStmt (classifier o source) .deep {} x c) := by
  induction x using Stmt.induct_export generalizing c with
  | hdecl span d ih =>
    rw [walkStmt_exportDecl]
    refine extends_around [] hopen (fun c => ?_) fun c₁ htop hcount => ih ?_ ?_ hnodes
    · exact (declared_export c _).trans (List.append_nil _).symm
    · simp [htop, hcount]
    · rw [htop]
      simpa using hs
  | hother x hx =>
    rw [walkStmt_eq _ _ _ hx, if_pos rfl, ← List.append_nil x.declarations]
    refine extends_around _ hopen (declared_topLevel ho · hx) fun c₁ htop _ => ?_
    exact extends_walkPlaces (fun p hp c => extends_walk (Stmt.fits_children hx hnodes hp)) (htop ▸ hs)

/-- The walk over a script: each statement of the top level by itself. -/
theorem walk_body (ho : o.mode = .deep) {body : List Stmt}
    (hbody : ∀ x ∈ body, ∀ n ∈ x.nodes, n.Within x.span) (hopen : c.top = none ∧ c.openStmts = 0) :
    let c' := body.foldl (fun c x => walkStmt (classifier o source) .deep {} x c) c
    c'.declared = c.declared ++ body.flatMap Stmt.declarations ∧
      ∀ m, .macroCall m ∈ c'.items → .macroCall m ∈ c.items ∨ m.Nests ∧ ∃ x ∈ body, m.statement = x.span := by
  induction body generalizing c with
  | nil => simp
  | cons x body ih =>
    have hx : Extends x.span x.declarations c (walkStmt (classifier o source) .deep {} x c) :=
      extends_stmt ho (by simp [hopen]) (by simp [hopen]) (hbody x (.head _))
    obtain ⟨hdeclared, hmarked⟩ := ih (fun y hy => hbody y (.tail _ hy))
      ⟨hx.top.trans hopen.1, hx.openStmts.trans hopen.2⟩
    refine ⟨?_, fun m hm => ?_⟩
    · rw [List.foldl_cons, hdeclared, hx.declared, List.flatMap_cons, List.append_assoc]
    · rcases hmarked m hm with hm | ⟨hnests, y, hy, hspan⟩
      · exact (hx.marked m hm).imp id fun h => ⟨h.2, x, .head _, h.1⟩
      · exact .inr ⟨hnests, y, .tail _ hy, hspan⟩

end Classification

theorem classify_items (ho : o.mode = .deep) {program : Program}
    (hbody : ∀ x ∈ program.body, ∀ n ∈ x.nodes, n.Within x.span) :
    (classify o source program).filterMap Item.declared? = program.body.flatMap Stmt.declarations ∧
      ∀ m, .macroCall m ∈ classify o source program → m.Nests ∧ ∃ x ∈ program.body, m.statement = x.span := by
  obtain ⟨hdeclared, hmarked⟩ := Classification.walk_body (o := o) (c := {}) ho hbody ⟨rfl, rfl⟩
  rw [classify_deep ho]
  dsimp only
  split
  · exact ⟨hdeclared, fun m hm => (hmarked m (Array.mem_toList_iff.mp hm)).resolve_left nofun⟩
  · refine ⟨(Classification.declared_push rfl _).trans hdeclared, fun m hm => ?_⟩
    have hm := Array.mem_push.mp (Array.mem_toList_iff.mp hm)
    exact (hmarked m (hm.resolve_right nofun)).resolve_left nofun

theorem Tolerant.lies_parse (dialect : Dialect) (source : Text) :
    ∃ z : Zone, z.source = source ∧ z.next ≤ source.size ∧ Lies z (parse dialect source).body := by
  have hstmts (z : Zone) : Keeps (.ofText dialect source) True z stmts := inferInstance
  have hlast := (hstmts (.nil 0)).forward.le_last 0 (Nat.zero_le _)
  obtain ⟨z, hz, -⟩ := Taken.zone (Nat.zero_le _) hlast
  refine ⟨z, hz.source, ?_, (hstmts z).lies trivial 0 hz⟩
  rw [← hz.next]
  exact Nat.le_trans (Input.Lined.span_le _) (Input.Lined.stop_le _)

/-- For every script and dialect, of what is classified in a setup script: a declaration that is written
there stands for one name that its declarator binds, in order, lies in the declarator, which lies in the
declaration, which lies in the text, and ends with the name; no two of them overlap. What a macro marker
says is called lies in the call, as the type arguments do, the call in the statement, and the statement in
the text. -/
theorem classify_nests (o : ClassifyOptions) (dialect : Dialect) (source : Text) :
    let program := Tolerant.parse dialect source
    let items := classify { o with mode := .deep } source program
    let declared := items.filterMap Item.declared?
    let text : Span := ⟨0, source.size⟩
    (∀ d ∈ declared, d.content.Inside d.declarator ∧ d.declarator.Inside d.parent ∧ d.parent.Inside text ∧
      d.name.toList <:+ d.content.text source) ∧
    declared.Pairwise (fun a b => a.content.stop ≤ b.content.start) ∧
    declared.map (fun d => (d.parent, d.declarator, d.content, d.name)) =
      (program.body.flatMap Stmt.declarators).flatMap (fun d =>
        d.2.2.name.names.map fun i => (d.1, d.2.2.span, i.span, i.name)) ∧
    ∀ m, .macroCall m ∈ items → m.callee.Inside m.call ∧ m.call.Inside m.statement ∧
      m.statement.Inside text ∧ ∀ t ∈ m.typeArgs, t.Inside m.call := by
  intro program items declared text
  obtain ⟨z, hsource, hnext, hlies⟩ := Tolerant.lies_parse dialect source
  obtain ⟨hdeclared, hmarked⟩ : declared = _ ∧ ∀ m, .macroCall m ∈ items → _ :=
    classify_items rfl fun x hx n hn => ((hlies.tree x hx).nodes n hn).2
  have heach : declared.map (fun d => (d.parent, d.declarator, d.content, d.name)) =
      (program.body.flatMap Stmt.declarators).flatMap (fun d =>
        d.2.2.name.names.map fun i => (d.1, d.2.2.span, i.span, i.name)) := by
    rw [hdeclared]
    simp [Stmt.declarations, Declarator.items, Item.declared?, ← Pat.leaves_names false, List.map_flatMap,
      List.flatMap_assoc, Function.comp_def, program]
  have hcontents : declared.map (·.content) = (Tree.names program.body).map (·.span) := by
    have h := congrArg (List.map (·.2.2.1)) heach
    simpa [List.map_flatMap, List.flatMap_assoc, Tree.names, Function.comp_def] using h
  refine ⟨fun d hd => ?_, ?_, heach, fun m hm => ?_⟩
  · have hmem := List.mem_map_of_mem (f := fun d => (d.parent, d.declarator, d.content, d.name)) hd
    rw [heach] at hmem
    obtain ⟨t, ht, hmem⟩ := List.mem_flatMap.mp hmem
    obtain ⟨i, hi, heq⟩ := List.mem_map.mp hmem
    obtain ⟨x, hx, ht⟩ := List.mem_flatMap.mp ht
    have hname : i ∈ Tree.names program.body := List.mem_flatMap.mpr ⟨x, hx, List.mem_flatMap.mpr ⟨t, ht, hi⟩⟩
    obtain ⟨hcontent, hdecl, hparent⟩ := (hlies.tree x hx).declared t ht i hi
    obtain ⟨name, kind, content, declarator, parent, rest, generated⟩ := d
    cases heq
    have hstop := Nat.le_trans hparent.stop_le (Nat.le_trans z.stop_le hnext)
    exact ⟨hcontent, hdecl, ⟨Nat.zero_le _, hparent.le, hstop⟩, hsource ▸ (hlies.names i hname).2⟩
  · have hordered : ((Tree.names program.body).map (·.span)).Pairwise fun s t => s.stop ≤ t.start :=
      List.pairwise_map.mpr hlies.ordered
    rw [← hcontents] at hordered
    exact List.pairwise_map.mp hordered
  · obtain ⟨hnests, x, hx, hspan⟩ := hmarked m hm
    have hspans := (hlies.tree x hx).spans
    refine ⟨hnests.callee, hnests.call, ?_, hnests.typeArgs⟩
    rw [hspan]
    exact ⟨Nat.zero_le _, hspans.le, Nat.le_trans hspans.stop_le hnext⟩

end SfcTsx.Script
