import SfcTsx.Proofs.View.Tree
import SfcTsx.View.Outline

namespace SfcTsx.View

open Markup (Directive Tag)

def Node.Tagged (tag : Tag) (children : List Node) (n : Node) : Prop :=
  n = .element tag children ∨ n = .component tag children ∨ ∃ slot, n = .container tag slot children

/-- The directive makes an element of the tag a branch. -/
def Carries (tag : Tag) (kind : BranchKind) (d : Directive) : Prop :=
  d ∈ tag.directives ∧ d.name = kind.word

def Separates : Markup.Node → Prop
  | .text _ data => Text.isBlank data = true
  | .comment .. => True
  | _ => False

abbrev LeftOut := List (Tag × Directive)

mutual

/-- The node stands for the parsed one; what is left out of it is listed. -/
inductive StandsFor : Markup.Node → Node → LeftOut → Prop
  | text (s : Span) (data : Text) : StandsFor (.text s data) (.text s data) []
  | interpolation (s : Span) (v : Markup.Value) : StandsFor (.interpolation s v) (.interpolation s) []
  | comment (s : Span) (data : Text) : StandsFor (.comment s data) (.comment s) []
  | element (hnode : node.Tagged tag nodes) (h : AllStandFor children nodes out) :
      StandsFor (.element tag children) node out
  | loop (d : Directive) (parts : Option Loop) (hbody : body.Tagged tag nodes)
      (h : AllStandFor children nodes out) :
      StandsFor (.element tag children) (.loop d parts body) out

/-- The branches, with what separates them, stand for parsed siblings. -/
inductive ChainStandsFor : List Markup.Node → List Branch → List Span → LeftOut → Prop
  | first (hd : Carries tag .ifBranch d) (h : StandsFor (.element tag children) body out) :
      ChainStandsFor [.element tag children] [⟨.ifBranch, d, body⟩] [] out
  | next (hchain : ChainStandsFor before branches separators out)
      (hopen : ∀ b ∈ branches, b.kind ≠ .elseBranch) (hbetween : ∀ n ∈ between, Separates n)
      (hkind : kind ≠ .ifBranch) (hd : Carries tag kind d)
      (h : StandsFor (.element tag children) body more) :
      ChainStandsFor (before ++ between ++ [.element tag children]) (branches ++ [⟨kind, d, body⟩])
        (separators ++ between.map Markup.Node.span) (out ++ more)

/-- The nodes stand for parsed siblings. -/
inductive AllStandFor : List Markup.Node → List Node → LeftOut → Prop
  | nil : AllStandFor [] [] []
  | node (h : StandsFor n v out) (hrest : AllStandFor ns vs more) :
      AllStandFor (n :: ns) (v :: vs) (out ++ more)
  | dropped (hkind : kind ≠ .ifBranch) (hd : Carries tag kind d) (hrest : AllStandFor ns vs out) :
      AllStandFor (.element tag children :: ns) vs ((tag, d) :: out)
  | group (h : ChainStandsFor ns branches separators out) (hrest : AllStandFor ms vs more) :
      AllStandFor (ns ++ ms) (.group branches separators :: vs) (out ++ more)

end

/-- What is noted of elements that are left out. -/
def Noted (notes : Notes) (out : LeftOut) : Prop :=
  notes.dropped = out.map (·.1.span) ∧
    notes.diagnostics.filter (·.code = .invalidChain) = out.map fun o =>
      ⟨.invalidChain, "v-else or v-else-if must be preceded by v-if".toList, o.2.span⟩

theorem noted_nil : Noted {} [] := ⟨rfl, rfl⟩

theorem Noted.append {a b : Notes} {out more : LeftOut} (ha : Noted a out)
    (hb : Noted b more) : Noted (a ++ b) (out ++ more) := by
  refine ⟨?_, ?_⟩
  · rw [List.map_append, ← ha.1, ← hb.1]
    rfl
  · rw [List.map_append, ← ha.2, ← hb.2]
    exact List.filter_append _ _

theorem noted_brokenChain (tag : Tag) (d : Directive) : Noted (brokenChain d tag.span) [(tag, d)] :=
  ⟨rfl, rfl⟩

theorem nodeOf_tagged (inComponent : Bool) (tag : Tag) (children : List Node) :
    (nodeOf inComponent tag children).Tagged tag children := by
  unfold nodeOf
  split
  · exact .inr (.inr ⟨_, rfl⟩)
  · split
    · exact .inr (.inl rfl)
    · exact .inl rfl

theorem addLoop_cases (tag : Tag) (node : Node) : ((addLoop tag node).1 = node ∨
    ∃ d parts, (addLoop tag node).1 = .loop d parts node) ∧ Noted (addLoop tag node).2 [] := by
  unfold addLoop
  split
  · exact ⟨.inl rfl, noted_nil⟩
  · split
    · exact ⟨.inl rfl, rfl, rfl⟩
    · split
      · exact ⟨.inr ⟨_, _, rfl⟩, noted_nil⟩
      · exact ⟨.inr ⟨_, _, rfl⟩, rfl, rfl⟩

theorem separates_of_role {inComponent : Bool} {n : Markup.Node}
    (h : role inComponent n = .insignificant) : Separates n := by
  cases n with
  | element tag children =>
    simp only [role] at h
    split at h <;> cases h
  | text s data =>
    simp only [role] at h
    split at h
    next hblank => exact hblank
    next => cases h
  | interpolation s v => cases h
  | comment s data => trivial

theorem Separates.build {n : Markup.Node} (h : Separates n) (inComponent : Bool) :
    StandsFor n (View.build inComponent n).1 [] ∧ (View.build inComponent n).1.span = n.span := by
  cases n with
  | element tag children => cases h
  | text s data => exact ⟨.text s data, rfl⟩
  | interpolation s v => cases h
  | comment s data => exact ⟨.comment s data, rfl⟩

theorem Separates.eq_nil {n : Markup.Node} {v : Node} {out : LeftOut} (hn : Separates n)
    (h : StandsFor n v out) : out = [] := by
  cases h with
  | element | loop => cases hn
  | _ => rfl

theorem carries_of_role {inComponent : Bool} {n : Markup.Node} {kind : BranchKind} {d : Directive}
    (h : role inComponent n = .branch kind d) :
    ∃ tag children, n = .element tag children ∧ Carries tag kind d := by
  cases n with
  | element tag children =>
    simp only [role] at h
    split at h
    next hb =>
      cases h
      obtain ⟨tag', htag, hd, hname⟩ := branch?_eq_some hb (show (Node.element tag []).tag? = _ from rfl)
      obtain rfl := Option.some.inj htag
      refine ⟨tag, children, rfl, hd, ?_⟩
      cases kind <;> exact hname
    next => cases h
  | text s data => exact role_text_ne h
  | interpolation s v => cases h
  | comment s data => cases h

/-- A chain that may go on stands for the parsed nodes since its beginning. -/
def ChainBegun (inComponent : Bool) (before : List Markup.Node) (out : LeftOut) :
    Option Chain → Prop
  | none => before = [] ∧ out = []
  | some c => ∃ ns pending, before = ns ++ pending ∧ ChainStandsFor ns c.branches c.separators out ∧
      (∀ n ∈ pending, Separates n) ∧ c.pending = pending.map (fun n => (build inComponent n).1) ∧
      (c.complete = false → ∀ b ∈ c.branches, b.kind ≠ .elseBranch)

section
variable {inComponent : Bool} {before : List Markup.Node} {out : LeftOut}

theorem allStandFor_separators {pending ns : List Markup.Node} {vs : List Node}
    (h : ∀ n ∈ pending, Separates n) (hrest : AllStandFor ns vs out) :
    AllStandFor (pending ++ ns) (pending.map (fun n => (build inComponent n).1) ++ vs) out := by
  induction pending with
  | nil => exact hrest
  | cons n pending ih =>
    exact .node ((h n (by simp)).build inComponent).1 (ih fun m hm => h m (by simp [hm]))

theorem ChainBegun.close {chain : Option Chain} (h : ChainBegun inComponent before out chain)
    {ns : List Markup.Node} {vs : List Node} {more : LeftOut}
    (hrest : AllStandFor ns vs more) :
    AllStandFor (before ++ ns) (Chain.close chain ++ vs) (out ++ more) := by
  cases chain with
  | none =>
    obtain ⟨rfl, rfl⟩ := h
    exact hrest
  | some c =>
    obtain ⟨ms, pending, rfl, hchain, hpending, hnodes, -⟩ := h
    rw [Chain.close, hnodes, List.append_assoc]
    exact .group hchain (allStandFor_separators hpending hrest)

theorem ChainBegun.wait {c : Chain} (h : ChainBegun inComponent before out (some c)) {n : Markup.Node}
    (hn : Separates n) : ChainBegun inComponent (before ++ [n]) out
      (some { c with pending := c.pending ++ [(build inComponent n).1] }) := by
  obtain ⟨ms, pending, rfl, hchain, hpending, hnodes, hopen⟩ := h
  refine ⟨ms, pending ++ [n], List.append_assoc .., hchain, ?_, by simp [hnodes], hopen⟩
  intro m hm
  rcases List.mem_append.mp hm with hm | hm
  · exact hpending m hm
  · rwa [List.mem_singleton.mp hm]

theorem chainBegun_start {tag : Tag} {children : List Markup.Node} {d : Directive} {body : Node}
    (hd : Carries tag .ifBranch d) (h : StandsFor (.element tag children) body out) :
    ChainBegun inComponent [.element tag children] out (some (.start d body)) :=
  ⟨_, [], rfl, .first hd h, by simp, rfl, by simp [Chain.start, Branch.kind]⟩

theorem ChainBegun.add {c : Chain} (h : ChainBegun inComponent before out (some c))
    (hcomplete : c.complete = false) {tag : Tag} {children : List Markup.Node} {kind : BranchKind}
    {d : Directive} {body : Node} {more : LeftOut} (hkind : kind ≠ .ifBranch)
    (hd : Carries tag kind d) (hbody : StandsFor (.element tag children) body more) :
    ChainBegun inComponent (before ++ [.element tag children]) (out ++ more)
      (some (c.add kind d body)) := by
  obtain ⟨ms, pending, rfl, hchain, hpending, hnodes, hopen⟩ := h
  have hspans : c.pending.map Node.span = pending.map (·.span) := by
    rw [hnodes, List.map_map]
    exact List.map_congr_left fun n hn => ((hpending n hn).build inComponent).2
  have hnext := ChainStandsFor.next hchain (hopen hcomplete) hpending hkind hd hbody
  rw [← hspans] at hnext
  refine ⟨_, [], (List.append_nil _).symm, hnext, by simp, rfl, ?_⟩
  intro helse b hb
  rcases List.mem_append.mp hb with hb | hb
  · exact hopen hcomplete b hb
  · rw [List.mem_singleton.mp hb]
    simpa [Chain.add, Branch.kind] using helse

end

mutual

theorem build_standsFor (inComponent : Bool) : (n : Markup.Node) →
    ∃ out, StandsFor n (build inComponent n).1 out ∧ Noted (build inComponent n).2 out
  | .element tag children => by
    obtain ⟨out, hall, hnoted⟩ := buildAll_standFor (isComponent tag) none [] [] ⟨rfl, rfl⟩ children
    have hnode := nodeOf_tagged inComponent tag (buildAll (isComponent tag) none children).1
    refine ⟨out, ?_⟩
    simp only [build]
    split
    · exact ⟨.element hnode hall, hnoted⟩
    · obtain ⟨hloop, hnone⟩ := addLoop_cases tag
        (nodeOf inComponent tag (buildAll (isComponent tag) none children).1)
      refine ⟨?_, by simpa using hnoted.append hnone⟩
      rcases hloop with hsame | ⟨d, parts, hloop⟩
      · rw [hsame]
        exact .element hnode hall
      · rw [hloop]
        exact .loop d parts hnode hall
  | .text s data => ⟨[], .text s data, noted_nil⟩
  | .interpolation s v => ⟨[], .interpolation s v, noted_nil⟩
  | .comment s data => ⟨[], .comment s data, noted_nil⟩

theorem buildAll_standFor (inComponent : Bool) (chain : Option Chain) (before : List Markup.Node)
    (out : LeftOut) (hchain : ChainBegun inComponent before out chain) :
    (ns : List Markup.Node) →
      ∃ more, AllStandFor (before ++ ns) (buildAll inComponent chain ns).1 (out ++ more) ∧
        Noted (buildAll inComponent chain ns).2 more
  | [] => ⟨[], by simpa [buildAll] using hchain.close .nil, noted_nil⟩
  | n :: ns => by
    obtain ⟨own, hown, hnotes⟩ := build_standsFor inComponent n
    -- the chain goes on with the node
    have hon : ∀ {c : Chain}, ChainBegun inComponent (before ++ [n]) (out ++ own) (some c) →
        ∃ more, AllStandFor (before ++ n :: ns) (buildAll inComponent (some c) ns).1 (out ++ more) ∧
          Noted ((build inComponent n).2 ++ (buildAll inComponent (some c) ns).2) more := by
      intro c hc
      obtain ⟨more, hall, hmore⟩ := buildAll_standFor inComponent (some c) _ _ hc ns
      exact ⟨own ++ more, by simpa using hall, hnotes.append hmore⟩
    simp only [buildAll]
    split
    next c hrole =>
      have hsep := separates_of_role hrole
      obtain rfl := hsep.eq_nil hown
      exact hon (by simpa using hchain.wait hsep)
    next d hrole =>
      obtain ⟨tag, children, rfl, hd⟩ := carries_of_role hrole
      obtain ⟨more, hall, hmore⟩ := buildAll_standFor inComponent (some _) _ _ (chainBegun_start hd hown) ns
      exact ⟨own ++ more, by simpa using hchain.close hall, hnotes.append hmore⟩
    next kind d hkind hrole =>
      obtain ⟨tag, children, rfl, hd⟩ := carries_of_role hrole
      split
      next c hc =>
        obtain ⟨rfl, hcomplete⟩ := Option.filter_eq_some_iff.mp hc
        exact hon (hchain.add (by simpa using hcomplete) hkind hd hown)
      next =>
        obtain ⟨more, hall, hmore⟩ := buildAll_standFor inComponent none [] [] ⟨rfl, rfl⟩ ns
        exact ⟨(tag, d) :: more, hchain.close (.dropped hkind hd hall), (noted_brokenChain tag d).append hmore⟩
    next =>
      obtain ⟨more, hall, hmore⟩ := buildAll_standFor inComponent none [] [] ⟨rfl, rfl⟩ ns
      exact ⟨own ++ more, by simpa using hchain.close (.node hown hall), hnotes.append hmore⟩

end

/-- Parsed siblings are all kept once and in order, but for elements that continue no chain; each of those
is noted once. -/
theorem buildAll_conserves (nodes : List Markup.Node) :
    let built := buildAll false none nodes
    ∃ out, AllStandFor nodes built.1 out ∧ Noted built.2 out :=
  buildAll_standFor false none [] [] ⟨rfl, rfl⟩ nodes

end SfcTsx.View
