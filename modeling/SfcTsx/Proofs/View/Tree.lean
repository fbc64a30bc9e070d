import SfcTsx.Proofs.View.Placed

namespace SfcTsx

variable {source : Text}

namespace Markup.Node

mutual

def tags : Node → List Tag
  | .element tag children => tag :: allTags children
  | .text .. | .interpolation .. | .comment .. => []

def allTags : List Node → List Tag
  | [] => []
  | n :: ns => n.tags ++ allTags ns

end

end Markup.Node

namespace View

open Markup (Directive Tag Shape TagShape closingText)
open Markup.Template (delimitedText)

variable {lo lo' mid hi : Nat} {s : Span} {n body : Node} {ns : List Node} {d : Directive}
  {bs : List Branch} {kind : BranchKind} {tag : Tag} {chain : Option Chain} {inComponent : Bool}

structure SpanPlaced (source : Text) (s : Span) : Prop where
  lt : s.start < s.stop
  start_at : source.isBoundary s.start = true
  stop_at : source.isBoundary s.stop = true

structure TextPlaced (source : Text) (s : Span) (data : Text) : Prop where
  ne_nil : data ≠ []
  stop_eq : s.stop = s.start + data.size
  text : ∃ rest, source.At s.start (data ++ rest)

structure InterpolationPlaced (source : Text) (s : Span) : Prop where
  text : ∃ body rest, s.stop = s.start + 2 + Text.size body ∧
    source.At s.start (['{', '{'] ++ (body ++ rest))

theorem TextPlaced.span {data : Text} (h : TextPlaced source s data) : SpanPlaced source s := by
  obtain ⟨rest, hat⟩ := h.text
  have hpos := Text.size_pos h.ne_nil
  refine ⟨?_, hat.isBoundary, h.stop_eq ▸ hat.skip.isBoundary⟩
  rw [h.stop_eq]
  omega

theorem InterpolationPlaced.span (h : InterpolationPlaced source s) : SpanPlaced source s := by
  obtain ⟨body, rest, hstop, hat⟩ := h.text
  refine ⟨by omega, hat.isBoundary, ?_⟩
  have htwo : Text.size ['{', '{'] = 2 := rfl
  have hbody := hat.skip.skip.isBoundary
  rwa [htwo, ← hstop] at hbody

theorem TagPlaced.span {t : Tag} (h : TagPlaced source t) : SpanPlaced source t.span := by
  have := h.name_start
  have := h.name_stop
  have := h.name_lt
  have := h.stop_le
  exact ⟨by omega, h.start_at, h.stop_at⟩

theorem TagPlaced.inner {t : Tag} (h : TagPlaced source t) :
    t.span.start < t.inner.start ∧ t.inner.start ≤ t.inner.stop ∧ t.inner.stop ≤ t.span.stop := by
  have := h.name_start
  have := h.name_stop
  have := h.name_lt
  have := h.stop_le
  cases hc : t.closeTag with
  | none =>
    simp only [Tag.inner, hc]
    omega
  | some close =>
    obtain ⟨hle, hstop, blank, rest, hsize, -⟩ := h.close close hc
    simp only [Tag.inner, hc]
    omega

mutual

def NodePlaced (source : Text) (ok : Tag → Prop) : Markup.Node → Prop
  | .element tag children => TagPlaced source tag ∧ ok tag ∧
    NodesPlaced source ok tag.inner.start tag.inner.stop children
  | .text s data => TextPlaced source s data
  | .interpolation s _ => InterpolationPlaced source s
  | .comment s _ => SpanPlaced source s

def NodesPlaced (source : Text) (ok : Tag → Prop) (lo hi : Nat) : List Markup.Node → Prop
  | [] => lo ≤ hi
  | n :: ns => lo ≤ n.span.start ∧ NodePlaced source ok n ∧ NodesPlaced source ok n.span.stop hi ns

end

section
variable {source : Text} {ok : Tag → Prop}

theorem NodePlaced.span {n : Markup.Node} (h : NodePlaced source ok n) : SpanPlaced source n.span := by
  cases n with
  | element tag children => exact h.1.span
  | text s data => exact TextPlaced.span h
  | interpolation s v => exact InterpolationPlaced.span h
  | comment s data => exact h

theorem NodesPlaced.mono {ns : List Markup.Node} (h : NodesPlaced source ok lo hi ns)
    (hle : lo' ≤ lo) : NodesPlaced source ok lo' hi ns := by
  cases ns with
  | nil => exact Nat.le_trans hle h
  | cons n ns => exact ⟨Nat.le_trans hle h.1, h.2⟩

theorem NodesPlaced.le {ns : List Markup.Node} (h : NodesPlaced source ok lo hi ns) : lo ≤ hi := by
  induction ns generalizing lo with
  | nil => exact h
  | cons n ns ih =>
    obtain ⟨hlo, hn, hns⟩ := h
    have := hn.span.lt
    have := ih hns
    omega

mutual

theorem nodesPlaced_shape {stack : List String} {f rest : Text} {offset hi : Nat} {ns : List Markup.Node} :
    (s : Shape) → s.Fits stack f → source.At offset (s.text ++ rest) →
      (∀ t ∈ Markup.Node.allTags (s.nodes offset), TagPlaced source t → ok t) →
      NodesPlaced source ok (offset + s.text.size) hi ns →
      NodesPlaced source ok offset hi (s.nodes offset ++ ns)
  | .plain t, h, hat, _, hns => by
    refine ⟨Nat.le_refl _, ⟨h.1, rfl, rest, hat⟩, hns⟩
  | .comment body closed, h, hat, _, hns => by
    have hsize : (Shape.comment body closed).text.size =
        4 + (delimitedText Shape.commentMark body closed).size := by
      rw [Shape.text, Text.size_append]
      rfl
    rw [hsize, ← Nat.add_assoc] at hns
    refine ⟨Nat.le_refl _, ⟨by simp only; omega, hat.isBoundary, ?_⟩, hns⟩
    have hstop := hat.skip.isBoundary
    rwa [hsize, ← Nat.add_assoc] at hstop
  | .interpolation body closed, h, hat, _, hns => by
    have hsize : (Shape.interpolation body closed).text.size =
        2 + (delimitedText Shape.interpolationMark body closed).size := by
      rw [Shape.text, Text.size_append]
      rfl
    rw [hsize, ← Nat.add_assoc] at hns
    refine ⟨Nat.le_refl _, ⟨delimitedText Shape.interpolationMark body closed, rest, rfl, ?_⟩, hns⟩
    simpa [Shape.text] using hat
  | .stray name blank, h, hat, _, hns => by
    exact hns.mono (Nat.le_add_right _ _)
  | .element tag children close, h, hat, hok, hns => by
    have hat' : source.At offset (tag.text ++ (Shape.allText children ++
        (Shape.closeText tag.name close ++ rest))) := by
      simpa [Shape.text] using hat
    have hplaced := tagPlaced h.1 (Shape.allText children) close hat'
    have hinner : (Shape.tagAt offset tag (Shape.allText children) close).inner =
        ⟨(tag.startTag offset).span.stop, (tag.startTag offset).span.stop + (Shape.allText children).size⟩ := by
      cases close <;> simp [Tag.inner, Shape.tagAt, Shape.closeText]
    have hsize : (Shape.tagAt offset tag (Shape.allText children) close).span.stop =
        offset + (Shape.element tag children close).text.size := by
      simp [Shape.tagAt, Shape.text, TagShape.startTag, Nat.add_assoc]
    refine ⟨Nat.le_refl _, ⟨hplaced, hok _ (by simp [Shape.nodes, Markup.Node.allTags, Markup.Node.tags])
      hplaced, ?_⟩, ?_⟩
    · rw [hinner]
      have hchildren : source.At (tag.startTag offset).span.stop (Shape.allText children ++
          (Shape.closeText tag.name close ++ rest)) := hat'.skip
      have hok' : ∀ t ∈ Markup.Node.allTags (Shape.allNodes (tag.startTag offset).span.stop children),
          TagPlaced source t → ok t := fun t ht =>
        hok t (by simp [Shape.nodes, Markup.Node.allTags, Markup.Node.tags, ht])
      have hinner := h.2
      split at hinner
      next =>
        obtain ⟨rfl, -⟩ := hinner
        exact Nat.le_add_right _ _
      next =>
        have hinner := hinner.2
        split at hinner
        next =>
          obtain ⟨body, rfl, -⟩ := hinner
          by_cases hbody : body = []
          · rw [if_pos hbody]
            exact Nat.le_add_right _ _
          · rw [if_neg hbody] at hchildren ⊢
            have hsame : Shape.allText [.plain body] = body := by simp [Shape.allText, Shape.text]
            rw [hsame] at hchildren ⊢
            exact ⟨Nat.le_refl _, ⟨hbody, rfl, _, hchildren⟩, Nat.le_refl _⟩
        next => exact nodesPlaced_shapes children hinner hchildren hok'
    · show NodesPlaced source ok (Shape.tagAt offset tag (Shape.allText children) close).span.stop hi ns
      rw [hsize]
      exact hns

theorem nodesPlaced_shapes {stack : List String} {f rest : Text} {offset : Nat} :
    (ss : List Shape) → Shape.AllFit stack ss f → source.At offset (Shape.allText ss ++ rest) →
      (∀ t ∈ Markup.Node.allTags (Shape.allNodes offset ss), TagPlaced source t → ok t) →
      NodesPlaced source ok offset (offset + (Shape.allText ss).size) (Shape.allNodes offset ss)
  | [], _, _, _ => by simp [Shape.allNodes, NodesPlaced]
  | s :: ss, h, hat, hok => by
    have hat' : source.At offset (s.text ++ (Shape.allText ss ++ rest)) := by
      simpa [Shape.allText] using hat
    have htags : ∀ ns ms : List Markup.Node, Markup.Node.allTags (ns ++ ms) =
        Markup.Node.allTags ns ++ Markup.Node.allTags ms := by
      intro ns ms
      induction ns with
      | nil => rfl
      | cons n ns ih => simp [Markup.Node.allTags, ih]
    have hrest := nodesPlaced_shapes ss h.2 hat'.skip
      fun t ht => hok t (by simp [Shape.allNodes, htags, ht])
    have hsize : offset + (Shape.allText (s :: ss)).size =
        offset + s.text.size + (Shape.allText ss).size := by
      simp [Shape.allText, Nat.add_assoc]
    rw [hsize]
    exact nodesPlaced_shape s h.1 hat' (fun t ht => hok t (by simp [Shape.allNodes, htags, ht])) hrest

end

end

def Node.ownTag? : Node → Option Tag
  | .element tag _ | .component tag _ | .container tag _ _ => some tag
  | _ => none

def Node.tag? : Node → Option Tag
  | .loop _ _ body => body.ownTag?
  | n => n.ownTag?

def Branches (kind : BranchKind) (d : Directive) (body : Node) : Prop :=
  ∃ tag, body.tag? = some tag ∧ d ∈ tag.directives ∧
    match kind with
    | .ifBranch => d.name = "if"
    | .elseIfBranch => d.name = "else-if"
    | .elseBranch => d.name = "else"

/-- The directive stands in the tag of the body of a loop, and the parts are those of its expression. -/
def Loops (d : Directive) (parts : Option Loop) (body : Node) : Prop :=
  ∃ tag, body.ownTag? = some tag ∧ d ∈ tag.directives ∧ d.name = "for" ∧
    ∃ exp, expression? d = some exp ∧ parts = Loop.parse? exp.content exp.span.start

mutual

def Formed (source : Text) (ok : Tag → Prop) : Node → Prop
  | .element tag children | .component tag children =>
    TagPlaced source tag ∧ ok tag ∧ AllFormed source ok tag.inner.start tag.inner.stop children
  | .container tag slot children =>
    TagPlaced source tag ∧ ok tag ∧ (∀ d ∈ slot, d ∈ tag.directives ∧ d.name = "slot") ∧
      AllFormed source ok tag.inner.start tag.inner.stop children
  | .text s data => TextPlaced source s data
  | .interpolation s => InterpolationPlaced source s
  | .comment s => SpanPlaced source s
  | .group branches separators =>
    branches ≠ [] ∧
      BranchesFormed source ok (branchesSpan branches).start (branchesSpan branches).stop branches ∧
      ∀ s ∈ separators, SpanPlaced source s ∧ (branchesSpan branches).start ≤ s.start ∧
        s.stop ≤ (branchesSpan branches).stop
  | .loop d parts body => Formed source ok body ∧ Loops d parts body

def AllFormed (source : Text) (ok : Tag → Prop) (lo hi : Nat) : List Node → Prop
  | [] => lo ≤ hi
  | n :: ns => lo ≤ n.span.start ∧ Formed source ok n ∧ AllFormed source ok n.span.stop hi ns

def BranchesFormed (source : Text) (ok : Tag → Prop) (lo hi : Nat) : List Branch → Prop
  | [] => lo ≤ hi
  | .mk kind d body :: bs => lo ≤ body.span.start ∧ Formed source ok body ∧ Branches kind d body ∧
    BranchesFormed source ok body.span.stop hi bs

end

section
variable {source : Text} {ok : Tag → Prop}

theorem branchesSpan_eq_cover {b : Branch} (hne : bs ≠ []) :
    branchesSpan (b :: bs) = b.span.cover (branchesSpan bs) := by
  obtain ⟨b', bs', rfl⟩ := List.exists_cons_of_ne_nil hne
  rw [branchesSpan]
  simp

theorem AllFormed.mono (h : AllFormed source ok lo hi ns) (hle : lo' ≤ lo) :
    AllFormed source ok lo' hi ns := by
  cases ns with
  | nil => exact Nat.le_trans hle h
  | cons n ns => exact ⟨Nat.le_trans hle h.1, h.2⟩

theorem BranchesFormed.mono (h : BranchesFormed source ok lo hi bs) (hle : lo' ≤ lo) :
    BranchesFormed source ok lo' hi bs := by
  cases bs with
  | nil => exact Nat.le_trans hle h
  | cons b bs =>
    cases b
    exact ⟨Nat.le_trans hle h.1, h.2⟩

mutual

theorem Formed.span : {n : Node} → Formed source ok n → SpanPlaced source n.span
  | .element _ _, h => h.1.span
  | .component _ _, h => h.1.span
  | .container _ _ _, h => h.1.span
  | .text _ _, h => TextPlaced.span h
  | .interpolation _, h => InterpolationPlaced.span h
  | .comment _, h => h
  | .group _ _, h => (BranchesFormed.span h.1 h.2.1).1
  | .loop _ _ body, h => Formed.span (n := body) h.1

theorem BranchesFormed.span {lo hi : Nat} : {bs : List Branch} → bs ≠ [] →
    BranchesFormed source ok lo hi bs → SpanPlaced source (branchesSpan bs) ∧
      lo ≤ (branchesSpan bs).start ∧ (branchesSpan bs).stop ≤ hi ∧
      BranchesFormed source ok (branchesSpan bs).start (branchesSpan bs).stop bs
  | [], hne, _ => absurd rfl hne
  | .mk kind d body :: bs, _, h => by
    have hbody := Formed.span (n := body) h.2.1
    obtain ⟨hlo, hformed, hguard, hrest⟩ := h
    by_cases hne : bs = []
    · subst hne
      have hhi : body.span.stop ≤ hi := hrest
      exact ⟨hbody, hlo, hhi, Nat.le_refl _, hformed, hguard, Nat.le_refl _⟩
    · obtain ⟨hs, hle, hhi, hbranches⟩ := BranchesFormed.span hne hrest
      have hlt := hbody.lt
      have hlt' := hs.lt
      have hcover : branchesSpan (.mk kind d body :: bs) =
          ⟨body.span.start, (branchesSpan bs).stop⟩ := by
        rw [branchesSpan_eq_cover hne, Branch.span, Span.cover]
        congr 1 <;> omega
      rw [hcover]
      exact ⟨⟨by simp only; omega, hbody.start_at, hs.stop_at⟩, hlo, hhi, Nat.le_refl _, hformed, hguard,
        hbranches.mono hle⟩

end

theorem AllFormed.le (h : AllFormed source ok lo hi ns) : lo ≤ hi := by
  induction ns generalizing lo with
  | nil => exact h
  | cons n ns ih =>
    obtain ⟨hlo, hn, hns⟩ := h
    have := hn.span.lt
    have := ih hns
    omega

theorem BranchesFormed.le (h : BranchesFormed source ok lo hi bs) : lo ≤ hi := by
  induction bs generalizing lo with
  | nil => exact h
  | cons b bs ih =>
    obtain ⟨kind, d, body⟩ := b
    obtain ⟨hlo, hbody, -, hbs⟩ := h
    have := hbody.span.lt
    have := ih hbs
    omega

theorem AllFormed.append {ms : List Node} (h : AllFormed source ok lo mid ns)
    (h' : AllFormed source ok mid hi ms) : AllFormed source ok lo hi (ns ++ ms) := by
  induction ns generalizing lo with
  | nil => exact h'.mono h
  | cons n ns ih => exact ⟨h.1, h.2.1, ih h.2.2⟩

theorem AllFormed.widen {hi' : Nat} (h : AllFormed source ok lo hi ns) (hle : hi ≤ hi') :
    AllFormed source ok lo hi' ns := by
  rw [← List.append_nil ns]
  exact h.append hle

theorem BranchesFormed.append {cs : List Branch} (h : BranchesFormed source ok lo mid bs)
    (h' : BranchesFormed source ok mid hi cs) : BranchesFormed source ok lo hi (bs ++ cs) := by
  induction bs generalizing lo with
  | nil => exact h'.mono h
  | cons b bs ih =>
    cases b
    exact ⟨h.1, h.2.1, h.2.2.1, ih h.2.2.2⟩

theorem AllFormed.mem (h : AllFormed source ok lo hi ns) (hn : n ∈ ns) :
    Formed source ok n ∧ lo ≤ n.span.start ∧ n.span.stop ≤ hi := by
  induction ns generalizing lo with
  | nil => cases hn
  | cons m ns ih =>
    obtain ⟨hlo, hm, hns⟩ := h
    have := hm.span.lt
    rcases List.mem_cons.mp hn with rfl | hn
    · exact ⟨hm, hlo, hns.le⟩
    · obtain ⟨hf, hlo', hhi⟩ := ih hns hn
      exact ⟨hf, by omega, hhi⟩

theorem AllFormed.pairwise (h : AllFormed source ok lo hi ns) :
    ns.Pairwise fun n m => n.span.stop ≤ m.span.start := by
  induction ns generalizing lo with
  | nil => exact .nil
  | cons n ns ih => exact .cons (fun m hm => (h.2.2.mem hm).2.1) (ih h.2.2)

theorem AllFormed.apart (h : AllFormed source ok lo hi ns) {m : Node} (hn : n ∈ ns) (hm : m ∈ ns) :
    n = m ∨ n.span.stop ≤ m.span.start ∨ m.span.stop ≤ n.span.start := by
  induction ns generalizing lo with
  | nil => cases hn
  | cons k ns ih =>
    obtain ⟨-, -, hns⟩ := h
    rcases List.mem_cons.mp hn with rfl | hn' <;> rcases List.mem_cons.mp hm with rfl | hm'
    · exact .inl rfl
    · exact .inr (.inl (hns.mem hm').2.1)
    · exact .inr (.inr (hns.mem hn').2.1)
    · exact ih hns hn' hm'

theorem branchesSpan_cons (hne : bs ≠ [])
    (h : BranchesFormed source ok lo hi (.mk kind d body :: bs)) :
    branchesSpan (.mk kind d body :: bs) = ⟨body.span.start, (branchesSpan bs).stop⟩ := by
  obtain ⟨-, hbody, -, hrest⟩ := h
  obtain ⟨hs, hle, -, -⟩ := BranchesFormed.span hne hrest
  have hlt := hbody.span.lt
  have hlt' := hs.lt
  rw [branchesSpan_eq_cover hne, Branch.span, Span.cover]
  congr 1 <;> omega

theorem branchesSpan_concat (hne : bs ≠ []) (h : BranchesFormed source ok lo mid bs)
    (h' : BranchesFormed source ok mid hi [.mk kind d body]) :
    (branchesSpan (bs ++ [.mk kind d body])).start = (branchesSpan bs).start ∧
      (branchesSpan (bs ++ [.mk kind d body])).stop = body.span.stop := by
  induction bs generalizing lo with
  | nil => exact absurd rfl hne
  | cons b bs ih =>
    obtain ⟨kind', d', body'⟩ := b
    have hall : BranchesFormed source ok lo hi (.mk kind' d' body' :: (bs ++ [.mk kind d body])) :=
      h.append h'
    rw [List.cons_append, branchesSpan_cons (by simp) hall]
    by_cases hbs : bs = []
    · subst hbs
      exact ⟨rfl, rfl⟩
    · rw [branchesSpan_cons hbs h]
      exact ⟨rfl, (ih hbs h.2.2.2).2⟩

/-- A chain that may go on, between two offsets. -/
structure ChainFormed (source : Text) (ok : Tag → Prop) (lo hi : Nat) (c : Chain) : Prop where
  ne_nil : c.branches ≠ []
  start_ge : lo ≤ (branchesSpan c.branches).start
  branches : BranchesFormed source ok (branchesSpan c.branches).start (branchesSpan c.branches).stop
    c.branches
  separators : ∀ s ∈ c.separators, SpanPlaced source s ∧ (branchesSpan c.branches).start ≤ s.start ∧
    s.stop ≤ (branchesSpan c.branches).stop
  pending : AllFormed source ok (branchesSpan c.branches).stop hi c.pending

/-- What comes before further siblings. -/
def BeforeFormed (source : Text) (ok : Tag → Prop) (lo hi : Nat) : Option Chain → Prop
  | some c => ChainFormed source ok lo hi c
  | none => lo ≤ hi

theorem BeforeFormed.le (h : BeforeFormed source ok lo hi chain) : lo ≤ hi := by
  cases chain with
  | none => exact h
  | some c =>
    have := h.start_ge
    have := (BranchesFormed.span h.ne_nil h.branches).1.lt
    have := h.pending.le
    omega

theorem BeforeFormed.close (h : BeforeFormed source ok lo hi chain) :
    AllFormed source ok lo hi (Chain.close chain) := by
  cases chain with
  | none => exact h
  | some c => exact ⟨h.start_ge, ⟨h.ne_nil, h.branches, h.separators⟩, h.pending⟩

theorem ChainFormed.wait {c : Chain} (h : ChainFormed source ok lo mid c) (hn : Formed source ok n)
    (hle : mid ≤ n.span.start) (hhi : n.span.stop ≤ hi) :
    ChainFormed source ok lo hi { c with pending := c.pending ++ [n] } :=
  ⟨h.ne_nil, h.start_ge, h.branches, h.separators, h.pending.append ⟨hle, hn, hhi⟩⟩

theorem chainFormed_start (hb : Formed source ok body) (hg : Branches .ifBranch d body)
    (hlo : lo ≤ body.span.start) : ChainFormed source ok lo body.span.stop (.start d body) :=
  ⟨by simp [Chain.start], hlo, ⟨Nat.le_refl _, hb, hg, Nat.le_refl _⟩, by simp [Chain.start],
    Nat.le_refl _⟩

theorem ChainFormed.add {c : Chain} (h : ChainFormed source ok lo mid c)
    (hb : Formed source ok body) (hg : Branches kind d body) (hle : mid ≤ body.span.start) :
    ChainFormed source ok lo body.span.stop (c.add kind d body) := by
  have hpending := h.pending.le
  have hlast : BranchesFormed source ok (branchesSpan c.branches).stop body.span.stop
      [.mk kind d body] := ⟨by omega, hb, hg, Nat.le_refl _⟩
  obtain ⟨hstart, hstop⟩ := branchesSpan_concat h.ne_nil h.branches hlast
  have hlt := hb.span.lt
  refine ⟨by simp [Chain.add], hstart ▸ h.start_ge, ?_, ?_, ?_⟩
  · show BranchesFormed source ok (branchesSpan (c.branches ++ [.mk kind d body])).start
      (branchesSpan (c.branches ++ [.mk kind d body])).stop (c.branches ++ [.mk kind d body])
    rw [hstart, hstop]
    exact h.branches.append hlast
  · intro s hs
    show SpanPlaced source s ∧ (branchesSpan (c.branches ++ [.mk kind d body])).start ≤ s.start ∧
      s.stop ≤ (branchesSpan (c.branches ++ [.mk kind d body])).stop
    rw [hstart, hstop]
    rcases List.mem_append.mp hs with hs | hs
    · obtain ⟨hp, hlo, hhi⟩ := h.separators s hs
      exact ⟨hp, hlo, by omega⟩
    · obtain ⟨n, hn, rfl⟩ := List.mem_map.mp hs
      obtain ⟨hf, hlo, hhi⟩ := h.pending.mem hn
      have := (BranchesFormed.span h.ne_nil h.branches).1.lt
      exact ⟨hf.span, by omega, by omega⟩
  · show (branchesSpan (c.branches ++ [.mk kind d body])).stop ≤ body.span.stop
    omega

theorem directive?_eq_some {name : String} (h : tag.directive? name = some d) :
    d ∈ tag.directives ∧ d.name = name :=
  ⟨List.mem_of_find?_eq_some h, by simpa using List.find?_some h⟩

theorem branch?_eq_some (h : branch? inComponent tag = some (kind, d))
    (hbody : body.tag? = some tag) : Branches kind d body := by
  refine ⟨tag, hbody, ?_⟩
  unfold branch? at h
  split at h
  · cases h
  · cases hif : tag.directive? "if" with
    | some e =>
      simp [hif] at h
      obtain ⟨rfl, rfl⟩ := h
      exact directive?_eq_some hif
    | none =>
      cases helseif : tag.directive? "else-if" with
      | some e =>
        simp [hif, helseif] at h
        obtain ⟨rfl, rfl⟩ := h
        exact directive?_eq_some helseif
      | none =>
        simp [hif, helseif] at h
        obtain ⟨helse, rfl⟩ := h
        exact directive?_eq_some helse

theorem nodeOf_formed (inComponent : Bool) {children : List Node} (htag : TagPlaced source tag)
    (hok : ok tag) (hchildren : AllFormed source ok tag.inner.start tag.inner.stop children) :
    Formed source ok (nodeOf inComponent tag children) ∧
      (nodeOf inComponent tag children).span = tag.span ∧
      (nodeOf inComponent tag children).ownTag? = some tag := by
  unfold nodeOf
  split
  · refine ⟨⟨htag, hok, ?_, hchildren⟩, rfl, rfl⟩
    intro d hd
    split at hd
    · exact directive?_eq_some hd
    · cases hd
  · split
    · exact ⟨⟨htag, hok, hchildren⟩, rfl, rfl⟩
    · exact ⟨⟨htag, hok, hchildren⟩, rfl, rfl⟩

theorem tag?_of_ownTag? (h : n.ownTag? = some tag) : n.tag? = some tag := by
  cases n <;> first | exact h | cases h

theorem addLoop_formed {node : Node} (h : Formed source ok node) (htag : node.ownTag? = some tag) :
    Formed source ok (addLoop tag node).1 ∧ (addLoop tag node).1.span = node.span ∧
      (addLoop tag node).1.tag? = some tag ∧ (addLoop tag node).2.dropped = [] := by
  unfold addLoop
  cases hfor : tag.directive? "for" with
  | none => exact ⟨h, rfl, tag?_of_ownTag? htag, rfl⟩
  | some d =>
    obtain ⟨hd, hname⟩ := directive?_eq_some hfor
    cases hexp : expression? d with
    | none =>
      dsimp only
      rw [hexp]
      exact ⟨h, rfl, tag?_of_ownTag? htag, rfl⟩
    | some exp =>
      cases hloop : Loop.parse? exp.content exp.span.start with
      | some parts =>
        dsimp only
        rw [hexp]
        dsimp only
        rw [hloop]
        exact ⟨⟨h, tag, htag, hd, hname, exp, hexp, hloop.symm⟩, rfl, htag, rfl⟩
      | none =>
        dsimp only
        rw [hexp]
        dsimp only
        rw [hloop]
        exact ⟨⟨h, tag, htag, hd, hname, exp, hexp, hloop.symm⟩, rfl, htag, rfl⟩

def SpansWithin (source : Text) (lo hi : Nat) (ss : List Span) : Prop :=
  ∀ s ∈ ss, SpanPlaced source s ∧ lo ≤ s.start ∧ s.stop ≤ hi

theorem SpansWithin.mono {hi' : Nat} {ss : List Span} (h : SpansWithin source lo hi ss)
    (hlo : lo' ≤ lo) (hhi : hi ≤ hi') : SpansWithin source lo' hi' ss := by
  intro s hs
  obtain ⟨hp, h₁, h₂⟩ := h s hs
  exact ⟨hp, Nat.le_trans hlo h₁, Nat.le_trans h₂ hhi⟩

theorem SpansWithin.append {ss ts : List Span} (h : SpansWithin source lo hi ss)
    (h' : SpansWithin source lo hi ts) : SpansWithin source lo hi (ss ++ ts) :=
  fun s hs => (List.mem_append.mp hs).elim (h s) (h' s)

theorem role_text_ne {data : Text} {p : Prop} (h : role inComponent (.text s data) = .branch kind d) :
    p := by
  simp only [role] at h
  split at h <;> cases h

mutual

theorem build_formed (inComponent : Bool) : (n : Markup.Node) → NodePlaced source ok n →
    Formed source ok (build inComponent n).1 ∧ (build inComponent n).1.span = n.span ∧
      (∀ kind d, role inComponent n = .branch kind d → Branches kind d (build inComponent n).1) ∧
      SpansWithin source n.span.start n.span.stop (build inComponent n).2.dropped
  | .element tag children, ⟨htag, hok, hchildren⟩ => by
    obtain ⟨hnodes, hdropped⟩ := buildAll_formed (isComponent tag) none
      children (Nat.le_refl _) hchildren
    obtain ⟨hnode, hspan, hown⟩ := nodeOf_formed inComponent htag hok hnodes
    have hinner := htag.inner
    have hdropped := hdropped.mono (Nat.le_of_lt hinner.1) hinner.2.2
    have hbranch : ∀ body : Node, body.tag? = some tag → ∀ kind d,
        role inComponent (.element tag children) = .branch kind d → Branches kind d body := by
      intro body hbody kind d hrole
      simp only [role] at hrole
      split at hrole
      next kind' d' hb =>
        cases hrole
        exact branch?_eq_some hb hbody
      next => cases hrole
    simp only [build]
    split
    · exact ⟨hnode, hspan, hbranch _ (tag?_of_ownTag? hown), hdropped⟩
    · obtain ⟨hloop, hlspan, htag', hnone⟩ := addLoop_formed hnode hown
      refine ⟨hloop, hlspan.trans hspan, hbranch _ htag', hdropped.append ?_⟩
      rw [hnone]
      exact fun s hs => nomatch hs
  | .text s data, h => ⟨h, rfl, fun _ _ hrole => role_text_ne hrole, fun _ hs => nomatch hs⟩
  | .interpolation s v, h => ⟨h, rfl, (fun _ _ hrole => nomatch hrole), fun _ hs => nomatch hs⟩
  | .comment s data, h => ⟨h, rfl, (fun _ _ hrole => nomatch hrole), fun _ hs => nomatch hs⟩

theorem buildAll_formed (inComponent : Bool) (chain : Option Chain) {lo mid hi : Nat} :
    (ns : List Markup.Node) → BeforeFormed source ok lo mid chain → NodesPlaced source ok mid hi ns →
      AllFormed source ok lo hi (buildAll inComponent chain ns).1 ∧
        SpansWithin source lo hi (buildAll inComponent chain ns).2.dropped
  | [], hchain, hns => by
    exact ⟨hchain.close.widen hns, fun _ hs => nomatch hs⟩
  | n :: ns, hchain, ⟨hle, hn, hns⟩ => by
    obtain ⟨hnode, hspan, hbranch, hdropped⟩ := build_formed inComponent n hn
    have hstop : n.span.stop ≤ hi := hns.le
    have hlo := hchain.le
    have hdropped := hdropped.mono (Nat.le_trans hlo hle) hstop
    have hplain : AllFormed source ok lo n.span.stop (Chain.close chain ++ [(build inComponent n).1]) :=
      hchain.close.append ⟨hspan ▸ hle, hnode, Nat.le_of_eq (by rw [hspan])⟩
    -- the chain goes on, is closed or begins anew
    have hon : ∀ {c : Chain} {notes : Notes}, ChainFormed source ok lo n.span.stop c →
        SpansWithin source lo hi notes.dropped →
        AllFormed source ok lo hi (buildAll inComponent (some c) ns).1 ∧ SpansWithin source lo hi
          (notes ++ (buildAll inComponent (some c) ns).2).dropped := by
      intro c notes hc hnotes
      obtain ⟨h₁, h₂⟩ := buildAll_formed inComponent (some c) ns hc hns
      exact ⟨h₁, hnotes.append h₂⟩
    have hclosed : ∀ {closed : List Node} {notes : Notes}, AllFormed source ok lo n.span.stop closed →
        SpansWithin source lo hi notes.dropped →
        AllFormed source ok lo hi (closed ++ (buildAll inComponent none ns).1) ∧
          SpansWithin source lo hi (notes ++ (buildAll inComponent none ns).2).dropped := by
      intro closed notes hc hnotes
      obtain ⟨h₁, h₂⟩ := buildAll_formed inComponent none ns
        (Nat.le_refl _) hns
      exact ⟨hc.append h₁, hnotes.append (h₂.mono hc.le (Nat.le_refl _))⟩
    simp only [buildAll]
    split
    next c _ =>
      exact hon (ChainFormed.wait hchain hnode (hspan ▸ hle) (Nat.le_of_eq (by rw [hspan]))) hdropped
    next d hrole =>
      have hstart := chainFormed_start hnode (hbranch _ _ hrole) (hspan ▸ hle)
      rw [hspan] at hstart
      obtain ⟨h₁, h₂⟩ := buildAll_formed inComponent (some _) ns hstart hns
      exact ⟨hchain.close.append h₁, hdropped.append (h₂.mono hlo (Nat.le_refl _))⟩
    next kind d hkind hrole =>
      split
      next c hc =>
        obtain ⟨rfl, -⟩ := Option.filter_eq_some_iff.mp hc
        have hadd := ChainFormed.add hchain hnode (hbranch _ _ hrole) (hspan ▸ hle)
        rw [hspan] at hadd
        exact hon hadd hdropped
      next =>
        have hlt := hn.span.lt
        refine hclosed (hchain.close.widen (by omega)) ?_
        intro s hs
        obtain rfl : s = n.span := by simpa [brokenChain] using hs
        exact ⟨hn.span, by omega, hstop⟩
    next => exact hclosed hplain hdropped

end

end

end View
end SfcTsx
