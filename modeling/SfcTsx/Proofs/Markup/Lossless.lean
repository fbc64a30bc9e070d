import SfcTsx.Proofs.Markup.Extract
import SfcTsx.Proofs.Markup.Tree
import Mathlib.Data.List.Sort

namespace SfcTsx

variable {ss : List Span} {lo hi : Nat}

/-- Spans with something in them, side by side from one offset to another. -/
def Span.Tile : Nat → List Span → Nat → Prop
  | lo, [], hi => lo = hi
  | lo, s :: ss, hi => s.start = lo ∧ s.start < s.stop ∧ Tile s.stop ss hi

namespace Span

theorem Tile.append {ts : List Span} {mid : Nat} (h : Tile lo ss mid) (h' : Tile mid ts hi) :
    Tile lo (ss ++ ts) hi := by
  induction ss generalizing lo with
  | nil =>
    obtain rfl : lo = mid := h
    exact h'
  | cons s ss ih => exact ⟨h.1, h.2.1, ih h.2.2⟩

theorem Tile.le (h : Tile lo ss hi) : ∀ s ∈ ss, lo ≤ s.start := by
  induction ss generalizing lo with
  | nil => simp
  | cons s ss ih =>
    intro t ht
    rcases List.mem_cons.mp ht with rfl | ht
    · exact h.1.ge
    · have hs := h.1
      have hlt := h.2.1
      have := ih h.2.2 t ht
      omega

theorem Tile.pairwise (h : Tile lo ss hi) : ss.Pairwise fun s t => s.start < t.start := by
  induction ss generalizing lo with
  | nil => exact .nil
  | cons s ss ih =>
    refine List.pairwise_cons.mpr ⟨fun t ht => ?_, ih h.2.2⟩
    have hlt := h.2.1
    have := h.2.2.le t ht
    omega

theorem Tile.eq_of_start (h : Tile lo ss hi) {s t : Span} (hs : s ∈ ss)
    (ht : t ∈ ss) (heq : s.start = t.start) : s = t := by
  induction ss generalizing lo with
  | nil => cases hs
  | cons r ss ih =>
    have hlt := h.2.1
    rcases List.mem_cons.mp hs with hs | hs <;> rcases List.mem_cons.mp ht with ht | ht
    · rw [hs, ht]
    · have := h.2.2.le t ht
      rw [hs] at heq
      omega
    · have := h.2.2.le s hs
      rw [ht] at heq
      omega
    · exact ih h.2.2 hs ht

theorem Tile.mergeSort {ts : List Span} (h : Tile lo ss hi) (hperm : ts.Perm ss) :
    Tile lo (ts.mergeSort fun s t => s.start ≤ t.start) hi := by
  have hsorted : (ts.mergeSort fun s t => s.start ≤ t.start).Pairwise fun s t => s.start ≤ t.start := by
    have hpair : (ts.mergeSort fun s t => s.start ≤ t.start).Pairwise
        fun s t => decide (s.start ≤ t.start) = true := List.pairwise_mergeSort
      (by intro a b c hab hbc; simp only [decide_eq_true_eq] at *; omega)
      (by intro a b; simp only [Bool.or_eq_true, decide_eq_true_eq]; omega) ts
    exact hpair.imp fun hle => by simpa using hle
  have hsame : (ts.mergeSort fun s t => s.start ≤ t.start).Perm ss :=
    (List.mergeSort_perm _ _).trans hperm
  have heq : (ts.mergeSort fun s t => s.start ≤ t.start) = ss := by
    apply List.Perm.eq_of_pairwise _ hsorted (h.pairwise.imp Nat.le_of_lt) hsame
    intro s t hs ht hst hts
    exact h.eq_of_start (hsame.mem_iff.mp hs) ht (Nat.le_antisymm hst hts)
  rwa [heq]

end Span

namespace Markup

namespace Node

mutual

def pieces : Node → List Span
  | .element tag children => tag.startTag :: (allPieces children ++ tag.closeTag.toList)
  | .text s _ | .interpolation s _ | .comment s _ => [s]

def allPieces : List Node → List Span
  | [] => []
  | n :: ns => n.pieces ++ allPieces ns

end

mutual

def elements : Node → List (Tag × List Node)
  | .element tag children => (tag, children) :: allElements children
  | .text .. | .interpolation .. | .comment .. => []

def allElements : List Node → List (Tag × List Node)
  | [] => []
  | n :: ns => n.elements ++ allElements ns

end

theorem allPieces_append (ns ms : List Node) : allPieces (ns ++ ms) = allPieces ns ++ allPieces ms := by
  induction ns with
  | nil => rfl
  | cons n ns ih => simp [allPieces, ih]

theorem allElements_append (ns ms : List Node) :
    allElements (ns ++ ms) = allElements ns ++ allElements ms := by
  induction ns with
  | nil => rfl
  | cons n ns ih => simp [allElements, ih]

end Node

/-- The parts of an element lie in order, with its children between its tags, and it is closed by a tag
of its name. -/
structure Tag.Encloses (source : Text) (tag : Tag) (children : List Node) : Prop where
  start_eq : tag.startTag.start = tag.span.start
  stop_le : tag.startTag.stop ≤ tag.span.stop
  children : ∀ n ∈ children, tag.startTag.stop ≤ n.span.start ∧ n.span.start ≤ n.span.stop ∧
    n.span.stop ≤ tag.span.stop ∧ ∀ close ∈ tag.closeTag, n.span.stop ≤ close.start
  closeTag : ∀ close ∈ tag.closeTag, close.stop = tag.span.stop ∧
    ∃ blank, Blank blank ∧ close.text source = closingText tag.name.toList blank

namespace Shape

mutual

def pieces (offset : Nat) : Shape → List Span
  | .element tag children close =>
    let stop := (tag.startTag offset).span.stop
    (tag.startTag offset).span :: (allPieces stop children ++
      (tagAt offset tag (allText children) close).closeTag.toList)
  | s => [⟨offset, offset + s.text.size⟩]

def allPieces (offset : Nat) : List Shape → List Span
  | [] => []
  | s :: ss => s.pieces offset ++ allPieces (offset + s.text.size) ss

end

mutual

theorem perm_pieces (offset : Nat) :
    (s : Shape) → (Node.allPieces (s.nodes offset) ++ s.strays offset).Perm (s.pieces offset)
  | .plain t => by
    simp [nodes, strays, pieces, text, Node.allPieces, Node.pieces]
  | .comment body closed => by
    have hsize : Text.size ['<', '!', '-', '-'] = 4 := rfl
    simp only [nodes, strays, pieces, text, Node.allPieces, Node.pieces, Text.size_append, hsize,
      Nat.add_assoc]
    rfl
  | .interpolation body closed => by
    have hsize : Text.size ['{', '{'] = 2 := rfl
    simp only [nodes, strays, pieces, text, Node.allPieces, Node.pieces, Text.size_append, hsize,
      Nat.add_assoc]
    rfl
  | .stray name blank => .refl _
  | .element tag children close => by
    have hchildren := perm_allPieces (tag.startTag offset).span.stop children
    simp only [nodes, strays, pieces, Node.allPieces, Node.pieces, List.append_nil, List.cons_append,
      List.append_assoc]
    refine .cons _ (.trans (List.Perm.append_left _ List.perm_append_comm) ?_)
    rw [← List.append_assoc]
    exact hchildren.append_right _

theorem perm_allPieces (offset : Nat) : (ss : List Shape) →
    (Node.allPieces (allNodes offset ss) ++ allStrays offset ss).Perm (allPieces offset ss)
  | [] => .refl _
  | s :: ss => by
    have hs := perm_pieces offset s
    have hss := perm_allPieces (offset + s.text.size) ss
    rw [allNodes, allStrays, allPieces, Node.allPieces_append]
    refine .trans ?_ (hs.append hss)
    simp only [List.append_assoc]
    refine List.Perm.append_left _ ?_
    rw [← List.append_assoc, ← List.append_assoc]
    exact List.perm_append_comm.append_right _

end

theorem tile_single (offset : Nat) {t : Text} (h : t ≠ []) :
    Span.Tile offset [⟨offset, offset + t.size⟩] (offset + t.size) := by
  have hpos := Text.size_pos h
  exact ⟨rfl, by simp only; omega, rfl⟩

theorem RawFits.tile {name f : Text} {children : List Shape} (h : RawFits name children f) (offset : Nat) :
    Span.Tile offset (allPieces offset children) (offset + (allText children).size) := by
  obtain ⟨body, rfl, -⟩ := h
  split
  next => rfl
  next hne => simpa [allPieces, pieces, allText, text] using tile_single offset hne

theorem tile_closeTag (offset : Nat) (tag : TagShape) (children : Text) (close : Option Text) :
    Span.Tile ((tag.startTag offset).span.stop + children.size)
      (tagAt offset tag children close).closeTag.toList
      ((tag.startTag offset).span.stop + children.size + (closeText tag.name close).size) := by
  cases close with
  | none => simp [tagAt, closeText, Span.Tile]
  | some blank => exact tile_single _ (by simp [closingText])

mutual

theorem tile_pieces (offset : Nat) : (s : Shape) → {stack : List String} → {f : Text} →
    s.Fits stack f → Span.Tile offset (s.pieces offset) (offset + s.text.size)
  | .plain t, _, _, h => tile_single offset h.1
  | .comment .., _, _, _ => tile_single offset (by simp [text])
  | .interpolation .., _, _, _ => tile_single offset (by simp [text])
  | .stray .., _, _, _ => tile_single offset (by simp [text, closingText])
  | .element tag children close, stack, f, h => by
    obtain ⟨-, hinner⟩ := h
    have hpos : 0 < tag.text.size := Text.size_pos (by simp [TagShape.text])
    have hchildren : Span.Tile (tag.startTag offset).span.stop
        (allPieces (tag.startTag offset).span.stop children)
        ((tag.startTag offset).span.stop + (allText children).size) := by
      split at hinner
      · obtain ⟨rfl, -⟩ := hinner
        rfl
      · obtain ⟨-, hinner⟩ := hinner
        split at hinner
        · exact hinner.tile _
        · exact tile_allPieces _ children hinner
    have hstop : offset + (Shape.element tag children close).text.size =
        (tag.startTag offset).span.stop + (allText children).size + (closeText tag.name close).size := by
      simp [text, TagShape.startTag, Nat.add_assoc]
    rw [hstop]
    refine ⟨rfl, ?_, hchildren.append (tile_closeTag offset tag _ close)⟩
    simp only [TagShape.startTag]
    omega

theorem tile_allPieces (offset : Nat) : (ss : List Shape) → {stack : List String} → {f : Text} →
    AllFit stack ss f → Span.Tile offset (allPieces offset ss) (offset + (allText ss).size)
  | [], _, _, _ => rfl
  | s :: ss, _, _, h => by
    have hs := tile_pieces offset s h.1
    have hss := tile_allPieces (offset + s.text.size) ss h.2
    rw [Nat.add_assoc, ← Text.size_append] at hss
    exact hs.append hss

end

theorem span_allNodes {offset : Nat} {ss : List Shape} {n : Node} (h : n ∈ allNodes offset ss) :
    offset ≤ n.span.start ∧ n.span.start ≤ n.span.stop ∧ n.span.stop ≤ offset + (allText ss).size := by
  induction ss generalizing offset with
  | nil => cases h
  | cons s ss ih =>
    rw [allNodes] at h
    rw [allText, Text.size_append]
    rcases List.mem_append.mp h with h | h
    · have hcomment : Text.size ['<', '!', '-', '-'] = 4 := rfl
      have hopen : Text.size ['{', '{'] = 2 := rfl
      cases s with
      | stray name blank => cases h
      | _ =>
        simp only [nodes, List.mem_singleton] at h
        subst h
        simp only [Node.span, text, tagAt, TagShape.startTag, Text.size_append, hcomment, hopen]
        omega
    · have := ih h
      omega

mutual

theorem encloses_elements {source : Text} {offset : Nat} : (s : Shape) → {stack : List String} →
    {f rest : Text} → s.Fits stack f → source.At offset (s.text ++ rest) →
    ∀ e ∈ Node.allElements (s.nodes offset), e.1.Encloses source e.2
  | .plain _, _, _, _, _, _ => by simp [nodes, Node.allElements, Node.elements]
  | .comment .., _, _, _, _, _ => by simp [nodes, Node.allElements, Node.elements]
  | .interpolation .., _, _, _, _, _ => by simp [nodes, Node.allElements, Node.elements]
  | .stray .., _, _, _, _, _ => by simp [nodes, Node.allElements]
  | .element tag children close, stack, f, rest, h, hat => by
    obtain ⟨htag, hinner⟩ := h
    have hat : source.At offset
        (tag.text ++ (allText children ++ (closeText tag.name close ++ rest))) := by
      simpa [text] using hat
    intro e he
    simp only [nodes, Node.allElements, Node.elements, List.append_nil] at he
    rcases List.mem_cons.mp he with rfl | he
    · have hclosed : ∀ blank, close = some blank → Blank blank := by
        rintro blank rfl
        split at hinner
        · exact absurd hinner.2 (by simp)
        · exact hinner.1
      refine ⟨rfl, ?_, ?_, ?_⟩
      · simp only [tagAt, TagShape.startTag]
        omega
      · intro n hn
        obtain ⟨hlo, hle, hhi⟩ := span_allNodes hn
        refine ⟨hlo, hle, ?_, ?_⟩
        · simp only [tagAt]
          omega
        · intro span hspan
          obtain ⟨blank, -, rfl⟩ := Option.mem_map.mp hspan
          exact hhi
      · intro span hspan
        obtain ⟨blank, hblank, rfl⟩ := Option.mem_map.mp hspan
        obtain rfl : close = some blank := hblank
        refine ⟨by simp [tagAt, closeText], blank, hclosed blank rfl, ?_⟩
        have hclose := hat.skip.skip.slice
        simpa [Span.text, tagAt, closeText, TagShape.startTag] using hclose
    · split at hinner
      · obtain ⟨rfl, -⟩ := hinner
        cases he
      · obtain ⟨-, hinner⟩ := hinner
        split at hinner
        · obtain ⟨body, rfl, -⟩ := hinner
          split at he <;> cases he
        · exact encloses_allElements children hinner hat.skip e he

theorem encloses_allElements {source : Text} {offset : Nat} : (ss : List Shape) →
    {stack : List String} → {f rest : Text} → AllFit stack ss f → source.At offset (allText ss ++ rest) →
    ∀ e ∈ Node.allElements (allNodes offset ss), e.1.Encloses source e.2
  | [], _, _, _, _, _ => by simp [allNodes, Node.allElements]
  | s :: ss, _, _, rest, h, hat => by
    have hat : source.At offset (s.text ++ (allText ss ++ rest)) := by simpa [allText] using hat
    intro e he
    rw [allNodes, Node.allElements_append] at he
    rcases List.mem_append.mp he with he | he
    · exact encloses_elements s h.1 hat e he
    · exact encloses_allElements ss h.2 hat.skip e he

end

end Shape

namespace Template

/-- Reading a template comes to its end, whatever the fuel beyond the length of the text, and loses
nothing: the parts of its tree and the closing tags that close nothing, put in order, tile the text, and
the children of each element stand between its start tag and a closing tag of its name. -/
theorem parse_lossless {source : Text} {content : Span} (h : content.Fits source) :
    let read := Template.parse source content
    (∀ fuel, (content.text source).length < fuel →
        nodesFrom ((source.drop? content.stop).getD []) fuel [] content.start (content.text source) =
          (read.1.nodes, content.stop, [], read.2)) ∧
      Span.Tile content.start
        ((Node.allPieces read.1.nodes ++ strays read.2).mergeSort fun s t => s.start ≤ t.start)
        content.stop ∧
      ∀ e ∈ Node.allElements read.1.nodes, e.1.Encloses source e.2 := by
  obtain ⟨text, htext⟩ := Text.At.of_isBoundary h.start
  obtain ⟨after, hafter⟩ := Text.At.of_isBoundary h.stop
  obtain ⟨body, rfl, hstop⟩ := htext.between hafter h.le
  have hslice : content.text source = body := by
    rw [Span.text, hstop]
    exact htext.slice
  have hle : content.stop ≤ source.size := by
    have := hafter.le_size
    omega
  obtain ⟨ss, f, hbody, hfits⟩ := exists_shapes [] body
  obtain rfl := hfits.stops.eq_nil
  rw [List.append_nil] at hbody
  obtain ⟨errors, hstrays, hread⟩ := nodesFrom_eq after hfits content.start
  rw [List.append_nil, ← hbody, ← hstop] at hread
  have hparse : Template.parse source content =
      ({ nodes := Shape.allNodes content.start ss, span := content }, errors) := by
    have hslice' : source.slice content.start content.stop = body := hslice
    simp [parse, Nat.min_eq_left hle, Nat.min_eq_left h.le, hslice', hafter.drop?,
      hread _ (Nat.lt_succ_self _)]
  simp only [hparse, hslice, hafter.drop?, Option.getD_some]
  refine ⟨hread, ?_, ?_⟩
  · have htile := Shape.tile_allPieces content.start ss hfits
    rw [← hbody, ← hstop] at htile
    rw [hstrays]
    exact htile.mergeSort (Shape.perm_allPieces content.start ss)
  · rw [hbody] at htext
    exact Shape.encloses_allElements ss hfits htext

/-- An element that its parent closes, a closing tag that closes nothing and a comment without an end. -/
def brokenTemplate : Text := "x<p><b>a</i ></p>y<!--".toList

theorem parse_lossless_broken : let read := Template.parse brokenTemplate ⟨1, 22⟩
    Span.Fits ⟨1, 22⟩ brokenTemplate ∧
      (Node.allPieces read.1.nodes ++ strays read.2 =
        [⟨1, 4⟩, ⟨4, 7⟩, ⟨7, 8⟩, ⟨13, 17⟩, ⟨17, 18⟩, ⟨18, 22⟩, ⟨8, 13⟩]) ∧
      Span.Tile 1
        ((Node.allPieces read.1.nodes ++ strays read.2).mergeSort fun s t => s.start ≤ t.start) 22 := by
  have hfits : Span.Fits ⟨1, 22⟩ brokenTemplate := ⟨by decide, by decide, by decide⟩
  exact ⟨hfits, by decide +kernel, (parse_lossless hfits).2.1⟩

end Template

end Markup
end SfcTsx
