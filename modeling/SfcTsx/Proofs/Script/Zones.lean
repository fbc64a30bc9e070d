import SfcTsx.Proofs.Script.Walk
import SfcTsx.Script.Item
import SfcTsx.Script.Tolerant

namespace SfcTsx

variable {s : Span} {i : Ident} {b : Bool} {z : Zone} {f : Fn} {α β : Type} {l : StringLit}

/-- The span runs forward and lies in the other. -/
structure Span.Inside (s t : Span) : Prop where
  start_le : t.start ≤ s.start
  le : s.start ≤ s.stop
  stop_le : s.stop ≤ t.stop

theorem Span.Inside.trans {t u : Span} (h : s.Inside t) (h' : t.Inside u) : s.Inside u :=
  ⟨Nat.le_trans h'.start_le h.start_le, h.le, Nat.le_trans h.stop_le h'.stop_le⟩

namespace Script

/-- What a parser has taken of a text: from an offset to the end of the last token, and where the next
starts. -/
structure Zone where
  source : Text
  start : Nat
  stop : Nat
  next : Nat
  start_le : start ≤ next
  stop_le : stop ≤ next

namespace Zone

def nil (offset : Nat) : Zone := ⟨[], offset, offset, offset, Nat.le_refl _, Nat.le_refl _⟩

abbrev span (z : Zone) : Span := ⟨z.start, z.stop⟩

/-- The span of a tree that begins with the zone: it is empty if no token was taken. -/
abbrev whole (z : Zone) : Span := ⟨z.start, max z.stop z.start⟩

/-- The zone is a part of the other. -/
structure Part (z w : Zone) : Prop where
  source_eq : w.source = z.source
  start_le : w.start ≤ z.start
  stop_le : z.stop ≤ w.stop
  next_le : z.next ≤ w.next

theorem Part.inside {w : Zone} (h : z.Part w) (hs : s.Inside z.span) : s.Inside w.span :=
  ⟨Nat.le_trans h.start_le hs.start_le, hs.le, Nat.le_trans hs.stop_le h.stop_le⟩

/-- The span begins in the zone and ends in front of the next token. -/
structure Spans (z : Zone) (s : Span) : Prop where
  start_le : z.start ≤ s.start
  le : s.start ≤ s.stop
  stop_le : s.stop ≤ z.next

theorem spans_whole (z : Zone) : z.Spans z.whole :=
  ⟨Nat.le_refl _, Nat.le_max_right _ _, Nat.max_le.mpr ⟨z.stop_le, z.start_le⟩⟩

theorem Spans.mono {w : Zone} (h : z.Spans s) (hzw : z.Part w) : w.Spans s :=
  ⟨Nat.le_trans hzw.start_le h.start_le, h.le, Nat.le_trans h.stop_le hzw.next_le⟩

theorem inside_whole (h : s.Inside z.span) : s.Inside z.whole :=
  ⟨h.start_le, h.le, Nat.le_trans h.stop_le (Nat.le_max_left _ _)⟩

theorem whole_inside (h : s.Inside z.span) : z.whole.Inside z.span := by
  obtain ⟨hstart, hle, hstop⟩ := h
  exact ⟨Nat.le_refl _, Nat.le_max_right _ _, Nat.max_le.mpr ⟨Nat.le_refl _, by simp only at *; omega⟩⟩

end Zone

/-- A name lies in the span. The name that is called lies in the call, as the type arguments do, and the
call in the span. -/
def Node.Fits (s : Span) : Node → Prop
  | .expr (.ident i) => i.span.Inside s
  | .expr (.call t callee typeArgs _) => ∀ i, callee = .ident i →
      i.span.Inside t ∧ t.Inside s ∧ ∀ u ∈ typeArgs, u.Inside t
  | _ => True

/-- The node fits the span, and so do those below it that are not in a function. -/
inductive Node.Within (s : Span) : Node → Prop
  | intro {n : Node} (fits : n.Fits s)
      (below : ∀ ctx, ∀ q ∈ n.children false ctx, q.ctx = ctx → q.node.Within s) : n.Within s

theorem Node.Within.mono {t : Span} {n : Node} (h : n.Within s)
    (hst : ∀ u : Span, u.Inside s → u.Inside t) : n.Within t := by
  induction h with
  | @intro n fits _ ih =>
    refine .intro ?_ ih
    unfold Node.Fits at fits ⊢
    split
    · exact hst _ fits
    · intro i hi
      obtain ⟨hcallee, hcall, htype⟩ := fits i hi
      exact ⟨hcallee, hst _ hcall, htype⟩
    · trivial

theorem Node.Within.only {n : Node} (h : n.Within s) (ctx : Context) :
    ∀ q ∈ [Place.mk ctx n], q.ctx = ctx → q.node.Within s := by
  simpa using h

theorem Fn.ctx_ne {ctx : Context} {q : Place} (h : q ∈ f.children ctx) : q.ctx ≠ ctx := by
  obtain ⟨_, _, _, _, params, body⟩ := f
  have hne : ctx.inFunction ≠ ctx := fun heq => by
    have := congrArg Context.functionDepth heq
    simp [Context.inFunction] at this
  cases body <;> grind [Fn.children]

mutual

/-- The names that a pattern binds, from left to right. -/
def Pat.names : Pat → List Ident
  | .ident i _ => [i]
  | .object _ ps _ => propNames ps
  | .array _ ps _ => elemNames ps
  | .rest _ p | .assign _ p _ => p.names
  | .invalid _ => []

def PatProp.names : PatProp → List Ident
  | .shorthand _ i _ => [i]
  | .keyValue _ _ p | .rest _ p => p.names

def propNames : List PatProp → List Ident
  | [] => []
  | p :: ps => p.names ++ propNames ps

def elemNames : List (Option Pat) → List Ident
  | [] => []
  | none :: ps => elemNames ps
  | some p :: ps => p.names ++ elemNames ps

end

theorem propNames_eq (ps : List PatProp) : propNames ps = ps.flatMap PatProp.names := by
  induction ps with
  | nil => rfl
  | cons p ps ih => rw [propNames, ih, List.flatMap_cons]

theorem elemNames_eq (ps : List (Option Pat)) : elemNames ps = ps.flatMap (·.toList.flatMap Pat.names) := by
  induction ps with
  | nil => rfl
  | cons p? ps ih => cases p? <;> simp [elemNames, ih]

mutual

theorem Pat.leaves_names (rest : Bool) : ∀ p : Pat, (p.leaves rest).map (·.1) = p.names
  | .ident .. => rfl
  | .object _ ps _ => propLeaves_names rest ps
  | .array _ ps _ => elemLeaves_names rest ps
  | .rest _ p => p.leaves_names true
  | .assign _ p _ => p.leaves_names rest
  | .invalid _ => rfl

theorem propLeaves_names (rest : Bool) : ∀ ps : List PatProp, (propLeaves rest ps).map (·.1) = propNames ps
  | [] => rfl
  | .keyValue _ _ p :: ps => by
    rw [propLeaves, List.map_append, p.leaves_names, propLeaves_names]
    rfl
  | .shorthand .. :: ps => congrArg (_ :: ·) (propLeaves_names rest ps)
  | .rest _ p :: ps => by
    rw [propLeaves, List.map_append, p.leaves_names, propLeaves_names]
    rfl

theorem elemLeaves_names (rest : Bool) :
    ∀ ps : List (Option Pat), (elemLeaves rest ps).map (·.1) = elemNames ps
  | [] => rfl
  | none :: ps => elemLeaves_names rest ps
  | some p :: ps => by rw [elemLeaves, List.map_append, p.leaves_names, elemLeaves_names, elemNames]

end

def Declarator.nodes (d : Declarator) : List Node := .pat d.name :: d.init.toList.map .expr

/-- What a walk comes to in a statement, other statements apart but for one that is exported. -/
def Stmt.nodes : Stmt → List Node
  | .exportDecl _ d => d.nodes
  | .exportDefault _ e | .expr _ e | .ifElse _ e _ _ => [.expr e]
  | .exportOther _ es | .classDecl _ _ es | .other _ _ es => es.map .expr
  | .varDecl _ _ _ ds => ds.flatMap Declarator.nodes
  | .ret _ e => e.toList.map .expr
  | _ => []

/-- The declarators of a statement, with the span and the kind of the declaration. -/
def Stmt.declarators : Stmt → List (Span × VarKind × Declarator)
  | .exportDecl _ d => d.declarators
  | .varDecl s kind _ ds => ds.map (s, kind, ·)
  | _ => []

/-- How a tree lies in what a parser has taken, and the names that it binds. -/
class Tree (α : Type) where
  In : Zone → α → Prop
  names : α → List Ident
  mono : ∀ {z w : Zone} {x : α}, z.Part w → In z x → In w x

/-- The tree lies in what a parser has taken. Its names stand there in order, each at the end of its
span. -/
structure Lies (z : Zone) {α : Type} [Tree α] (x : α) : Prop where
  tree : Tree.In z x
  names : ∀ i ∈ Tree.names x, i.span.Inside z.span ∧ i.name.toList <:+ i.span.text z.source
  ordered : (Tree.names x).Pairwise fun a b => a.span.stop ≤ b.span.start

/-- From what is known of the trees taken before, the tree lies in what a parser has taken. -/
class Within (known : Prop) (z : Zone) {α : Type} [Tree α] (x : α) : Prop where
  lies : known → Lies z x

instance : Tree Span := ⟨fun z s => s.Inside z.span, fun _ => [], fun hzw => hzw.inside⟩

instance : Tree Ident := ⟨fun _ _ => True, fun i => [i], fun _ => id⟩

instance : Tree Expr :=
  ⟨fun z e => (Node.expr e).Within z.span, fun _ => [], fun hzw h => h.mono fun _ => hzw.inside⟩

instance : Tree Pat :=
  ⟨fun z p => (Node.pat p).Within z.span, Pat.names, fun hzw h => h.mono fun _ => hzw.inside⟩

instance : Tree PropKey where
  In z k := ∀ e, k = .computed e → (Node.expr e).Within z.span
  names
    | .ident i => [i]
    | _ => []
  mono hzw h e he := (h e he).mono fun _ => hzw.inside

instance : Tree ObjectProp where
  In z p := ∀ ctx, ∀ q ∈ p.children false ctx, q.ctx = ctx → q.node.Within z.span
  names _ := []
  mono hzw h ctx q hq hctx := (h ctx q hq hctx).mono fun _ => hzw.inside

instance : Tree PatProp where
  In z p := ∀ ctx, ∀ q ∈ p.children false ctx, q.ctx = ctx → q.node.Within z.span
  names := PatProp.names
  mono hzw h ctx q hq hctx := (h ctx q hq hctx).mono fun _ => hzw.inside

instance : Tree Fn := ⟨fun z f => z.Spans f.span, fun _ => [], fun hzw h => h.mono hzw⟩

instance : Tree Declarator where
  In z d := (∀ i ∈ d.name.names, i.span.Inside d.span ∧ d.span.Inside z.span) ∧
    ∀ n ∈ d.nodes, n.Within z.span
  names d := d.name.names
  mono hzw h := ⟨fun i hi => ⟨(h.1 i hi).1, hzw.inside (h.1 i hi).2⟩,
    fun n hn => (h.2 n hn).mono fun _ => hzw.inside⟩

/-- The statement is where it should be, and what it holds is in its span. -/
structure Stmt.In (z : Zone) (x : Stmt) : Prop where
  spans : z.Spans x.span
  nodes : ∀ n ∈ x.nodes, n.Within z.span ∧ n.Within x.span
  declared : ∀ d ∈ x.declarators, ∀ i ∈ d.2.2.name.names,
    i.span.Inside d.2.2.span ∧ d.2.2.span.Inside d.1 ∧ d.1.Inside z.span

instance : Tree Stmt where
  In := Stmt.In
  names x := x.declarators.flatMap (·.2.2.name.names)
  mono hzw h := ⟨h.spans.mono hzw,
    fun n hn => ⟨(h.nodes n hn).1.mono fun _ => hzw.inside, (h.nodes n hn).2⟩,
    fun d hd i hi =>
      have hspan := h.declared d hd i hi
      ⟨hspan.1, hspan.2.1, hzw.inside hspan.2.2⟩⟩

instance : Tree Tolerant.Level.ClassParts where
  In z c := Tree.In z (Stmt.classDecl c.span c.ident c.members)
  names _ := []
  mono hzw h := Tree.mono hzw h

instance [Tree α] : Tree (Option α) where
  In z o := ∀ x ∈ o, Tree.In z x
  names o := o.toList.flatMap Tree.names
  mono hzw h x hx := Tree.mono hzw (h x hx)

/-- Of a pair, only the second part is looked at. -/
instance [Tree β] : Tree (α × β) where
  In z x := Tree.In z x.2
  names x := Tree.names x.2
  mono hzw h := Tree.mono hzw h

instance [Tree α] : Tree (List α) where
  In z xs := ∀ x ∈ xs, Tree.In z x
  names xs := xs.flatMap Tree.names
  mono hzw h x hx := Tree.mono hzw (h x hx)

variable {k : Prop} {z w : Zone} {α : Type} [Tree α]

namespace Lies

theorem mono {x : α} (h : Lies z x) (hzw : z.Part w) : Lies w x :=
  ⟨Tree.mono hzw h.tree, fun i hi => ⟨hzw.inside (h.names i hi).1, hzw.source_eq ▸ (h.names i hi).2⟩,
    h.ordered⟩

theorem of_names [Tree β] {x : α} {y : β} (h : Lies z y) (htree : Tree.In z x)
    (hnames : Tree.names x = Tree.names y) : Lies z x := ⟨htree, hnames ▸ h.names, hnames ▸ h.ordered⟩

theorem of_tree {x : α} (h : Tree.In z x) (hnames : Tree.names x = []) : Lies z x :=
  ⟨h, by simp [hnames], by simp [hnames]⟩

theorem nil : Lies z ([] : List α) := of_tree nofun rfl

theorem none : Lies z (none : Option α) := of_tree nofun rfl

theorem singleton {x : α} (h : Lies z x) : Lies z [x] :=
  h.of_names (by simpa [Tree.In] using h.tree) (by simp [Tree.names])

theorem some {x : α} (h : Lies z x) : Lies z (some x) :=
  h.of_names (by simpa [Tree.In] using h.tree) (by simp [Tree.names])

theorem of_some {x : α} (h : Lies z (Option.some x)) : Lies z x :=
  h.of_names (h.tree x rfl) (by simp [Tree.names])

theorem append {xs ys : List α} {w₁ w₂ : Zone} (h₁ : Lies w₁ xs) (h₂ : Lies w₂ ys) (hw₁ : w₁.Part z)
    (hw₂ : w₂.Part z) (hle : w₁.stop ≤ w₂.start) : Lies z (xs ++ ys) where
  tree := List.forall_mem_append.mpr ⟨(h₁.mono hw₁).tree, (h₂.mono hw₂).tree⟩
  names := by
    simp only [Tree.names, List.flatMap_append]
    exact List.forall_mem_append.mpr ⟨(h₁.mono hw₁).names, (h₂.mono hw₂).names⟩
  ordered := by
    simp only [Tree.names, List.flatMap_append]
    refine List.pairwise_append.mpr ⟨h₁.ordered, h₂.ordered, fun a ha b hb => ?_⟩
    calc a.span.stop ≤ w₁.stop := (h₁.names a ha).1.stop_le
      _ ≤ w₂.start := hle
      _ ≤ b.span.start := (h₂.names b hb).1.start_le

theorem widen {x y : Stmt} (h : Lies z x) (hspan : y.span = z.whole) (hnodes : y.nodes = x.nodes)
    (hdecl : y.declarators = x.declarators ∨ y.declarators = x.declarators.map fun d => (z.whole, d.2)) :
    Lies z y := by
  have hnames : Tree.names y = Tree.names x := by
    rcases hdecl with hdecl | hdecl <;> simp only [Tree.names, hdecl, List.flatMap_map]
  refine h.of_names ⟨hspan ▸ z.spans_whole, fun n hn => ?_, fun d hd i hi => ?_⟩ hnames
  · have hn := (h.tree.nodes n (hnodes ▸ hn)).1
    exact ⟨hn, hspan ▸ hn.mono fun _ => Zone.inside_whole⟩
  · rcases hdecl with hdecl | hdecl
    · exact h.tree.declared d (hdecl ▸ hd) i hi
    · rw [hdecl] at hd
      obtain ⟨d, hmem, rfl⟩ := List.mem_map.mp hd
      obtain ⟨hname, hdecl, hspan⟩ := h.tree.declared d hmem i hi
      have hin := hdecl.trans hspan
      exact ⟨hname, Zone.inside_whole hin, Zone.whole_inside hin⟩

end Lies

namespace Within

instance last {x : α} : Within (k ∧ Lies z x) z x := ⟨And.right⟩

instance before {p : Prop} {x : α} [h : Within k z x] : Within (k ∧ p) z x := ⟨fun hk => h.lies hk.1⟩

instance nothing {x : α} : Within False z x := ⟨False.elim⟩

section lists

variable {x : α}

instance nil : Within k z ([] : List α) := ⟨fun _ => .nil⟩

instance none : Within k z (none : Option α) := ⟨fun _ => .none⟩

instance singleton [h : Within k z x] : Within k z [x] := ⟨fun hk => (h.lies hk).singleton⟩

instance singleton_mk [h : Within k z x] : Within k z (List.singleton x) := ⟨fun hk => (h.lies hk).singleton⟩

instance some [h : Within k z x] : Within k z (some x) := ⟨fun hk => (h.lies hk).some⟩

instance toList {o : Option α} [h : Within k z o] : Within k z o.toList where
  lies hk := by
    have ho := h.lies hk
    cases o with
    | none => exact .nil
    | some x => exact ho.of_some.singleton

instance ite {c : Prop} [Decidable c] {y : α} [hx : Within k z x] [hy : Within k z y] :
    Within k z (if c then x else y) := by
  split
  · exact hx
  · exact hy

instance prod {y : β} [h : Within k z x] : Within k z (y, x) :=
  ⟨fun hk => (h.lies hk).of_names (h.lies hk).tree rfl⟩

end lists

section exprs

variable {s : Span} {e e₁ : Expr} {es es₁ : List Expr}

instance consExpr [h : Within k z e] [hs : Within k z es] : Within k z (e :: es) :=
  ⟨fun hk => .of_tree (List.forall_mem_cons.mpr ⟨(h.lies hk).tree, (hs.lies hk).tree⟩) (by simp [Tree.names])⟩

instance appendExprs [h : Within k z es] [h₁ : Within k z es₁] : Within k z (es ++ es₁) :=
  ⟨fun hk => .of_tree (List.forall_mem_append.mpr ⟨(h.lies hk).tree, (h₁.lies hk).tree⟩) (by simp [Tree.names])⟩

theorem of_exprs (es : List Expr) [h : Within k z es] (hfits : k → (Node.expr e).Fits z.span)
    (hchildren : ∀ ctx, (Node.expr e).children false ctx = es.map (⟨ctx, .expr ·⟩)) : Within k z e where
  lies hk := by
    refine .of_tree (.intro (hfits hk) fun ctx q hq _ => ?_) rfl
    rw [hchildren] at hq
    obtain ⟨e, he, rfl⟩ := List.mem_map.mp hq
    exact (h.lies hk).tree e he

instance exprIdent [h : Within k z i] : Within k z (Expr.ident i) :=
  of_exprs [] (fun hk => ((h.lies hk).names i (.head _)).1) fun _ => rfl

instance exprLit {l : Lit} : Within k z (Expr.lit l) := of_exprs [] (fun _ => trivial) fun _ => rfl

instance exprCall {t : Option Span} [h : Within k z e] [ht : Within k z t] [Within k z es] :
    Within k z (Expr.call z.whole e t es) := by
  refine of_exprs (e :: es) (fun hk => ?_) fun _ => rfl
  rintro i rfl
  have hi : i.span.Inside z.span := by
    cases (h.lies hk).tree with
    | intro fits _ => exact fits
  exact ⟨Zone.inside_whole hi, Zone.whole_inside hi, fun u hu => Zone.inside_whole ((ht.lies hk).tree u hu)⟩

instance exprMember [Within k z e] : Within k z (Expr.member s e i) :=
  of_exprs [e] (fun _ => trivial) fun _ => rfl

instance exprPrivateMember [Within k z e] : Within k z (Expr.privateMember s e i) :=
  of_exprs [e] (fun _ => trivial) fun _ => rfl

instance exprIndex [Within k z e] [Within k z e₁] : Within k z (Expr.index s e e₁) :=
  of_exprs [e, e₁] (fun _ => trivial) fun _ => rfl

instance exprFn : Within k z (Expr.fn f) :=
  ⟨fun _ => .of_tree (.intro trivial fun _ _ hq hctx => absurd hctx (Fn.ctx_ne hq)) rfl⟩

instance exprObject {ps : List ObjectProp} [h : Within k z ps] : Within k z (Expr.object s ps) where
  lies hk := by
    refine .of_tree (.intro trivial fun ctx q hq hctx => ?_) rfl
    obtain ⟨p, hp, hq⟩ := List.mem_flatMap.mp hq
    exact (h.lies hk).tree p hp ctx q hq hctx

instance exprArray {es : List (Option Expr)} [h : Within k z es] : Within k z (Expr.array s es) where
  lies hk := by
    refine .of_tree (.intro trivial fun ctx q hq _ => ?_) rfl
    obtain ⟨e?, he?, hq⟩ := List.mem_flatMap.mp hq
    obtain ⟨e, he, rfl⟩ := List.mem_map.mp hq
    exact (h.lies hk).tree e? he? e (Option.mem_toList.mp he)

instance exprSpread [Within k z e] : Within k z (Expr.spread s e) :=
  of_exprs [e] (fun _ => trivial) fun _ => rfl

instance exprAwait [Within k z e] : Within k z (Expr.await s e) :=
  of_exprs [e] (fun _ => trivial) fun _ => rfl

instance exprParen [Within k z e] : Within k z (Expr.paren s e) :=
  of_exprs [e] (fun _ => trivial) fun _ => rfl

instance exprCast {kind : CastKind} {t : Option Span} [Within k z e] :
    Within k z (Expr.cast s kind e t) := of_exprs [e] (fun _ => trivial) fun _ => rfl

instance exprOther [Within k z es] : Within k z (Expr.other s es) :=
  of_exprs es (fun _ => trivial) fun _ => rfl

instance propKeyValue {key : PropKey} [hkey : Within k z key] [h : Within k z e] :
    Within k z (ObjectProp.keyValue s key e) where
  lies hk := by
    refine .of_tree (fun ctx q hq _ => ?_) rfl
    rcases List.mem_append.mp hq with hq | hq
    · cases key with
      | computed e =>
        obtain rfl := List.mem_singleton.mp hq
        exact (hkey.lies hk).tree e rfl
      | _ => cases hq
    · obtain rfl := List.mem_singleton.mp hq
      exact (h.lies hk).tree

instance propShorthand : Within k z (ObjectProp.shorthand i) := ⟨fun _ => .of_tree nofun rfl⟩

instance propMethod {key : PropKey} : Within k z (ObjectProp.method s key f) :=
  ⟨fun _ => .of_tree (fun _ _ hq hctx => absurd hctx (Fn.ctx_ne hq)) rfl⟩

instance propSpread [h : Within k z e] : Within k z (ObjectProp.spread s e) :=
  ⟨fun hk => .of_tree (h.lies hk).tree.only rfl⟩

end exprs

section patterns

variable {s : Span} {t : Option Span} {i : Ident} {p : Pat} {e : Expr} {e? : Option Expr} {key : PropKey}

instance keyIdent [h : Within k z i] : Within k z (PropKey.ident i) :=
  ⟨fun hk => (h.lies hk).of_names nofun rfl⟩

theorem of_keyIdent (h : Within k z (PropKey.ident i)) : Within k z i :=
  ⟨fun hk => (h.lies hk).of_names trivial rfl⟩

instance keyString : Within k z (PropKey.string l) := ⟨fun _ => .of_tree nofun rfl⟩

instance keyNumber {l : Lit} : Within k z (PropKey.number l) := ⟨fun _ => .of_tree nofun rfl⟩

instance keyComputed [h : Within k z e] : Within k z (PropKey.computed e) where
  lies hk := by
    refine .of_tree ?_ rfl
    rintro _ ⟨⟩
    exact (h.lies hk).tree

instance patIdent [h : Within k z i] : Within k z (Pat.ident i t) :=
  ⟨fun hk => (h.lies hk).of_names (.intro trivial nofun) rfl⟩

instance patObject {ps : List PatProp} [h : Within k z ps] : Within k z (Pat.object s ps t) where
  lies hk := by
    refine (h.lies hk).of_names (.intro trivial fun ctx q hq hctx => ?_) (propNames_eq ps)
    obtain ⟨p, hp, hq⟩ := List.mem_flatMap.mp hq
    exact (h.lies hk).tree p hp ctx q hq hctx

instance patArray {ps : List (Option Pat)} [h : Within k z ps] : Within k z (Pat.array s ps t) where
  lies hk := by
    refine (h.lies hk).of_names (.intro trivial fun ctx q hq _ => ?_) (elemNames_eq ps)
    obtain ⟨p?, hp?, hq⟩ := List.mem_flatMap.mp hq
    obtain ⟨p, hp, rfl⟩ := List.mem_map.mp hq
    exact (h.lies hk).tree p? hp? p (Option.mem_toList.mp hp)

instance patRest [h : Within k z p] : Within k z (Pat.rest s p) :=
  ⟨fun hk => (h.lies hk).of_names (.intro trivial (h.lies hk).tree.only) rfl⟩

instance patAssign [h : Within k z p] [he : Within k z e] : Within k z (Pat.assign s p e) where
  lies hk := by
    refine (h.lies hk).of_names (.intro trivial fun ctx q hq _ => ?_) rfl
    obtain rfl | hq := List.mem_cons.mp hq
    · exact (h.lies hk).tree
    · obtain rfl := List.mem_singleton.mp hq
      exact (he.lies hk).tree

instance patInvalid : Within k z (Pat.invalid s) := ⟨fun _ => .of_tree (.intro trivial nofun) rfl⟩

instance patKeyValue [h : Within k z p] : Within k z (PatProp.keyValue s key p) :=
  ⟨fun hk => (h.lies hk).of_names (h.lies hk).tree.only rfl⟩

instance patShorthand [h : Within k z i] [he : Within k z e?] :
    Within k z (PatProp.shorthand s i e?) where
  lies hk := by
    refine (h.lies hk).of_names (fun ctx q hq _ => ?_) rfl
    obtain ⟨e, he', rfl⟩ := List.mem_map.mp hq
    exact (he.lies hk).tree e (Option.mem_toList.mp he')

instance patPropRest [h : Within k z p] : Within k z (PatProp.rest s p) :=
  ⟨fun hk => (h.lies hk).of_names (h.lies hk).tree.only rfl⟩

instance declaratorMk [h : Within k z p] [he : Within k z e?] :
    Within k z (Declarator.mk z.whole p e?) where
  lies hk := by
    refine (h.lies hk).of_names ⟨fun i hi => ?_, List.forall_mem_cons.mpr ⟨(h.lies hk).tree, fun n hn => ?_⟩⟩ rfl
    · have hspan := ((h.lies hk).names i hi).1
      exact ⟨Zone.inside_whole hspan, Zone.whole_inside hspan⟩
    · obtain ⟨e, he', rfl⟩ := List.mem_map.mp hn
      exact (he.lies hk).tree e (Option.mem_toList.mp he')

end patterns

section statements

variable {x : Stmt} {xs : List Stmt} {e : Expr} {e? : Option Expr} {es : List Expr}

theorem of_whole (es : List Expr) [h : Within k z es] (hspan : x.span = z.whole)
    (hnodes : x.nodes = es.map .expr) (hdecl : x.declarators = []) : Within k z x where
  lies hk := by
    have htree := (h.lies hk).tree
    refine .of_tree ⟨hspan ▸ z.spans_whole, fun n hn => ?_, by simp [hdecl]⟩ (by simp [Tree.names, hdecl])
    obtain ⟨e, he, rfl⟩ := List.mem_map.mp (hnodes ▸ hn)
    exact ⟨htree e he, hspan ▸ (htree e he).mono fun _ => Zone.inside_whole⟩

instance stmtImport {ss : List ImportSpecifier} :
    Within k z (Stmt.importDecl ⟨z.whole, ss, l, b⟩) := of_whole [] rfl rfl rfl

instance stmtExportDefault [Within k z e] : Within k z (Stmt.exportDefault z.whole e) :=
  of_whole [e] rfl rfl rfl

instance stmtExportNamed {ss : List ExportSpecifier} {l : Option StringLit} :
    Within k z (Stmt.exportNamed z.whole b ss l) := of_whole [] rfl rfl rfl

instance stmtExportAll : Within k z (Stmt.exportAll z.whole b l) :=
  of_whole [] rfl rfl rfl

instance stmtExportOther [Within k z es] : Within k z (Stmt.exportOther z.whole es) :=
  of_whole es rfl rfl rfl

instance stmtFn [h : Within k z f] : Within k z (Stmt.fn f) :=
  ⟨fun hk => .of_tree ⟨(h.lies hk).tree, nofun, nofun⟩ rfl⟩

instance stmtClassDecl {i : Option Ident} [Within k z es] : Within k z (Stmt.classDecl z.whole i es) :=
  of_whole es rfl rfl rfl

instance stmtEnumDecl {c : Bool} : Within k z (Stmt.enumDecl ⟨z.whole, i, b, c⟩) :=
  of_whole [] rfl rfl rfl

instance stmtTypeDecl {kind : TypeDeclKind} : Within k z (Stmt.typeDecl ⟨z.whole, kind, i⟩) :=
  of_whole [] rfl rfl rfl

instance stmtExpr [Within k z e] : Within k z (Stmt.expr z.whole e) := of_whole [e] rfl rfl rfl

instance stmtBlock : Within k z (Stmt.block z.whole xs) := of_whole [] rfl rfl rfl

instance stmtIfElse {x? : Option Stmt} [Within k z e] : Within k z (Stmt.ifElse z.whole e x x?) :=
  of_whole [e] rfl rfl rfl

instance stmtRet [Within k z e?] : Within k z (Stmt.ret z.whole e?) := of_whole e?.toList rfl rfl rfl

instance stmtOther [Within k z es] : Within k z (Stmt.other z.whole xs es) := of_whole es rfl rfl rfl

instance stmtVarDecl {kind : VarKind} {ds : List Declarator} [h : Within k z ds] :
    Within k z (Stmt.varDecl z.whole kind b ds) where
  lies hk := by
    have htree := (h.lies hk).tree
    have hnodes : ∀ n ∈ ds.flatMap Declarator.nodes, n.Within z.span := fun n hn => by
      obtain ⟨d, hd, hn⟩ := List.mem_flatMap.mp hn
      exact (htree d hd).2 n hn
    refine (h.lies hk).of_names ⟨z.spans_whole, fun n hn =>
      ⟨hnodes n hn, (hnodes n hn).mono fun _ => Zone.inside_whole⟩, fun t ht i hi => ?_⟩ ?_
    · obtain ⟨d, hd, rfl⟩ := List.mem_map.mp ht
      obtain ⟨hname, hspan⟩ := (htree d hd).1 i hi
      exact ⟨hname, Zone.inside_whole hspan, Zone.whole_inside hspan⟩
    · simp only [Tree.names, Stmt.declarators, List.flatMap_map]

section classes

variable {c : Tolerant.Level.ClassParts} {i : Option Ident}

instance classParts [Within k z es] : Within k z (Tolerant.Level.ClassParts.mk z.whole i es) :=
  have h : Within k z (Stmt.classDecl z.whole i es) := inferInstance
  ⟨fun hk => .of_tree (h.lies hk).tree rfl⟩

theorem members (h : Within k z (Stmt.classDecl s i es)) : Within k z es where
  lies hk := .of_tree (fun e he => ((h.lies hk).tree.nodes _ (List.mem_map_of_mem he)).1) (by simp [Tree.names])

instance partsStmt [h : Within k z c] : Within k z (Stmt.classDecl c.span c.ident c.members) :=
  ⟨fun hk => .of_tree (h.lies hk).tree rfl⟩

instance partsMembers [h : Within k z c] : Within k z c.members := members partsStmt

end classes

instance declared [h : Within k z x] : Within k z (Tolerant.declared z.whole x) where
  lies hk := by
    have hx := h.lies hk
    cases x with
    | varDecl => exact hx.widen rfl rfl (.inr (by simp [Stmt.declarators, Tolerant.declared]))
    | enumDecl | fn | classDecl | typeDecl | other => exact hx.widen rfl rfl (.inl rfl)
    | _ => exact hx

section tokens

variable {token : Token}

instance hashIdent {name : String} :
    Within (k ∧ Lies z token.ident) z (Expr.ident ⟨⟨token.span.start, max z.stop token.span.start⟩, name⟩) where
  lies hk := by
    have hspan := (hk.2.names _ (.head _)).1
    have hle := Nat.le_trans hspan.le hspan.stop_le
    refine .of_tree (.intro ⟨hspan.start_le, Nat.le_max_right _ _, ?_⟩ nofun) rfl
    exact Nat.max_le.mpr ⟨Nat.le_refl _, hle⟩

instance tokenStmt : Within (k ∧ Lies z token.ident) z (Stmt.other token.span [] []) where
  lies hk := by
    have hspan := (hk.2.names _ (.head _)).1
    exact .of_tree ⟨⟨hspan.start_le, hspan.le, Nat.le_trans hspan.stop_le z.stop_le⟩, nofun, nofun⟩ rfl

end tokens

instance fnMk {i : Option Ident} {c : Bool} {ps : List Pat} {body : FnBody} :
    Within k z (Fn.mk z.whole i b c ps body) := ⟨fun _ => .of_tree z.spans_whole rfl⟩

instance stmtExportDecl [h : Within k z x] : Within k z (Stmt.exportDecl z.whole x) :=
  ⟨fun hk => (h.lies hk).widen rfl rfl (.inl rfl)⟩

end statements
end Within
end Script
end SfcTsx
