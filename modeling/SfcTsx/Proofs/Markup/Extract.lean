import SfcTsx.Proofs.Markup.EmptyElement
import SfcTsx.Proofs.Markup.Scan

namespace SfcTsx

/-- A span of a text, on its boundaries. -/
structure Span.Fits (s : Span) (source : Text) : Prop where
  le : s.start ≤ s.stop
  start : source.isBoundary s.start = true
  stop : source.isBoundary s.stop = true

namespace Markup

open Text (At)

variable {source text rest : Text} {offset o stop : Nat} {blocks : List RawBlock} {tag : StartTag}
  {comments : List Span}

theorem skipTo_eq (h : At source offset text) (h' : At source stop rest) (hle : offset ≤ stop) :
    skipTo offset stop text = rest := by
  obtain ⟨s, rfl, rfl⟩ := h.between h' hle
  simp [skipTo, Text.drop?_size_append]

theorem afterComment_at (h : At source offset text) :
    At source (afterComment offset text).1 (afterComment offset text).2 ∧
      offset ≤ (afterComment offset text).1 := by
  unfold afterComment
  split
  next body rest hcut =>
    obtain ⟨rfl, rest, rfl⟩ := Text.cutAt?_eq_some hcut
    have hsize : Text.size ("-->" : String).toList = 3 := rfl
    have hstop := h.skip.skip
    rw [hsize] at hstop
    exact ⟨hstop, by simp only; omega⟩
  next =>
    have hstop : At source offset (text ++ []) := by simpa using h
    exact ⟨hstop.skip, by simp⟩

namespace RawBlock

variable {b : RawBlock}

/-- The parts of a block lie in order, behind an offset. -/
structure Behind (source : Text) (offset : Nat) (b : RawBlock) : Prop where
  lt : offset < b.content.start
  le : b.content.start ≤ b.content.stop
  meets : b.content.stop = b.close.start
  close_le : b.close.start ≤ b.close.stop
  start : source.isBoundary b.content.start = true
  close_start : source.isBoundary b.close.start = true
  close_stop : source.isBoundary b.close.stop = true

theorem Behind.mono (h : b.Behind source o) (hle : offset ≤ o) : b.Behind source offset :=
  { h with lt := hle.trans_lt h.lt }

theorem Behind.start_le (h : b.Behind source offset) : b.content.start ≤ b.close.stop :=
  h.le.trans (h.meets.le.trans h.close_le)

/-- Nothing of the one block lies behind the start of the other's content. -/
def Before (a b : RawBlock) : Prop := a.close.stop < b.content.start

/-- Blocks behind an offset, one behind the other. -/
def Rising (source : Text) (offset : Nat) (blocks : List RawBlock) : Prop :=
  (∀ b ∈ blocks, b.Behind source offset) ∧ blocks.Pairwise Before

theorem rising_nil : Rising source offset [] := ⟨by simp, .nil⟩

theorem Rising.mono (h : Rising source o blocks) (hle : offset ≤ o) : Rising source offset blocks :=
  ⟨fun b hb => (h.1 b hb).mono hle, h.2⟩

theorem Rising.cons (hb : b.Behind source offset) (h : Rising source b.close.stop blocks) :
    Rising source offset (b :: blocks) := by
  refine ⟨?_, List.pairwise_cons.mpr ⟨fun c hc => (h.1 c hc).lt, h.2⟩⟩
  intro c hc
  rcases List.mem_cons.mp hc with rfl | hc
  · exact hb
  · exact (h.1 c hc).mono (hb.lt.le.trans hb.start_le)

end RawBlock

open RawBlock (Rising rising_nil)

theorem Piece.rising {s : Piece} {f : Text} (h : At source o (s.text ++ f))
    (hmore : Rising source (o + s.text.size) blocks) (hle : offset ≤ o) :
    Rising source offset (s.blocks o ++ blocks) := by
  cases s with
  | block tag inner close closed =>
    have hparts : At source o (tag.text ++ (inner ++ (close ++ f))) := by simpa [text_block] using h
    have hpos : 0 < tag.text.size := Text.size_pos (by simp [TagShape.text])
    simp only [text_block, Text.size_append, ← Nat.add_assoc] at hmore
    simp only [Piece.blocks]
    split
    · exact hmore.mono (by omega)
    · refine Rising.cons ⟨?_, ?_, rfl, ?_, hparts.skip.isBoundary, hparts.skip.skip.isBoundary,
        hparts.skip.skip.skip.isBoundary⟩ hmore <;> simp only <;> omega
  | _ => exact hmore.mono (by omega)

theorem scanBlocks_rising (fuel : Nat) (h : At source offset text) :
    Rising source offset (scanBlocks fuel offset text).1 := by
  induction fuel generalizing offset text with
  | zero => exact rising_nil
  | succ fuel ih =>
    obtain ht | ⟨p, rest, rfl, hp⟩ := angle_cases text
    · rw [scanBlocks_none ht]
      exact rising_nil
    · obtain ⟨s, f, hs, hfits⟩ := Piece.exists_piece rest
      rw [hs] at h ⊢
      rw [(scanBlocks_piece hp hfits fuel offset).1]
      exact Piece.rising h.skip (ih h.skip.skip) (by omega)

/-- An element without content of the source, from an offset on, and its span. -/
def EmptyFound (source : Text) (offset : Nat) (found : RawBlock × Span) : Prop :=
  ∃ (s : ElementShape) (o : Nat) (f : Text), s.Fits ∧ At source o (s.text ++ f) ∧ offset ≤ o ∧
    found = (s.block o, ⟨o, o + s.text.size⟩)

namespace EmptyFound

variable {found : RawBlock × Span}

theorem mono (h : EmptyFound source o found) (hle : offset ≤ o) :
    EmptyFound source offset found := by
  obtain ⟨s, p, f, hs, hat, hop, rfl⟩ := h
  exact ⟨s, p, f, hs, hat, hle.trans hop, rfl⟩

theorem le (h : EmptyFound source offset found) : offset ≤ found.2.start := by
  obtain ⟨s, o, f, -, -, hle, rfl⟩ := h
  exact hle

theorem stop_eq (h : EmptyFound source offset found) : found.2.stop = found.1.close.stop := by
  obtain ⟨s, o, f, -, -, -, rfl⟩ := h
  rfl

theorem block (h : EmptyFound source offset found) : found.1.Behind source found.2.start := by
  obtain ⟨s, o, f, -, hat, -, rfl⟩ := h
  have hparts : At source o (s.startTag ++ (s.blank ++ (s.closeTag ++ f))) := by
    simpa [ElementShape.text] using hat
  have hsize := s.size_text
  have hpos : 0 < s.startTag.size := Text.size_pos (by simp [ElementShape.startTag])
  refine ⟨?_, ?_, rfl, ?_, hparts.skip.isBoundary, hparts.skip.skip.isBoundary, hat.skip.isBoundary⟩ <;>
    simp only [ElementShape.block] <;> omega

end EmptyFound

theorem emptyElements_found (fuel : Nat) (h : At source offset text) :
    (∀ found ∈ emptyElements fuel offset text, EmptyFound source offset found) ∧
      (emptyElements fuel offset text).Pairwise fun a b => a.2.stop ≤ b.2.start := by
  induction fuel generalizing offset text with
  | zero => simp [emptyElements]
  | succ fuel ih =>
    cases text with
    | nil => simp [emptyElements]
    | cons c cs =>
      cases he : emptyElement? (c :: cs) with
      | none =>
        obtain ⟨hall, hpair⟩ := ih (h.skip (s := [c]))
        rw [emptyElements_char he]
        exact ⟨fun found hf => (hall found hf).mono (by simp), hpair⟩
      | some e =>
        obtain ⟨s, f, htext, hs, -⟩ := ElementShape.exists_of_emptyElement? he
        rw [htext] at h ⊢
        obtain ⟨hall, hpair⟩ := ih h.skip
        rw [ElementShape.emptyElements_element hs, ElementShape.kept]
        split
        next =>
          refine ⟨?_, List.pairwise_cons.mpr ⟨fun found hf => (hall found hf).le, hpair⟩⟩
          intro found hf
          rcases List.mem_cons.mp hf with rfl | hf
          · exact ⟨s, offset, f, hs, h, le_rfl, rfl⟩
          · exact (hall found hf).mono (by omega)
        next => exact ⟨fun found hf => (hall found hf).mono (by omega), hpair⟩

namespace RawBlock

def Apart (a b : RawBlock) : Prop := Before a b ∨ Before b a

theorem apart_symm {a b : RawBlock} (h : Apart a b) : Apart b a := h.symm

end RawBlock

open RawBlock (Before Apart)

theorem EmptyFound.apart {known : RawBlock} {found : RawBlock × Span}
    (h : EmptyFound source offset found) (hk : known.overlaps found.2 = false) :
    Apart known found.1 := by
  have hlt := h.block.lt
  have hstop := h.stop_eq
  simp only [RawBlock.overlaps, Bool.and_eq_false_iff, decide_eq_false_iff_not, not_lt, not_le] at hk
  rcases hk with hk | hk
  · exact .inl (by unfold Before; omega)
  · exact .inr (by unfold Before; omega)

/-- What is known of the blocks before they are sorted. -/
def Scattered (source : Text) (blocks : List RawBlock) : Prop :=
  (∀ b ∈ blocks, b.Behind source 0) ∧ blocks.Pairwise Apart

theorem scattered_found (source : Text) (fuel : Nat) :
    Scattered source (scanBlocks fuel 0 source).1 := by
  obtain ⟨hall, hpair⟩ := scanBlocks_rising fuel (At.zero source)
  exact ⟨hall, hpair.imp .inl⟩

theorem Scattered.append_empty {known : List RawBlock} (h : Scattered source known)
    (comments : List Span) : Scattered source (known ++ scanEmptyBlocks source comments known) := by
  obtain ⟨hall, hpair⟩ := emptyElements_found (source.length + 1) (At.zero source)
  have hmem : ∀ b ∈ scanEmptyBlocks source comments known, ∃ found, found.1 = b ∧
      EmptyFound source 0 found ∧ ∀ k ∈ known, k.overlaps found.2 = false := by
    intro b hb
    obtain ⟨found, hf, hcond⟩ := List.mem_filterMap.mp hb
    simp only [Option.ite_none_left_eq_some, Bool.or_eq_true, List.any_eq_true, not_or, not_exists,
      not_and, Bool.not_eq_true] at hcond
    exact ⟨found, by simpa using hcond.2, hall found hf, hcond.1.2⟩
  refine ⟨?_, List.pairwise_append.mpr ⟨h.2, ?_, ?_⟩⟩
  · intro b hb
    rcases List.mem_append.mp hb with hb | hb
    · exact h.1 b hb
    · obtain ⟨found, rfl, hfound, -⟩ := hmem b hb
      exact hfound.block.mono (Nat.zero_le _)
  · refine List.pairwise_filterMap.mpr (hpair.imp_of_mem ?_)
    intro a b ha hb hab x hx y hy
    simp only [Option.ite_none_left_eq_some] at hx hy
    obtain rfl : a.1 = x := by simpa using hx.2
    obtain rfl : b.1 = y := by simpa using hy.2
    have hstop := (hall a ha).stop_eq
    have hlt := (hall b hb).block.lt
    exact .inl (by unfold Before; omega)
  · intro a ha b hb
    obtain ⟨found, rfl, hfound, hover⟩ := hmem b hb
    exact hfound.apart (hover a ha)

theorem Scattered.rising_mergeSort (h : Scattered source blocks) :
    (∀ b ∈ blocks.mergeSort (fun a b => a.content.start ≤ b.content.start), b.Behind source 0) ∧
      (blocks.mergeSort fun a b => a.content.start ≤ b.content.start).Pairwise Before := by
  have hperm := List.mergeSort_perm blocks fun a b => a.content.start ≤ b.content.start
  have hall : ∀ b ∈ blocks.mergeSort (fun a b => a.content.start ≤ b.content.start),
      b.Behind source 0 := fun b hb => h.1 b (hperm.mem_iff.mp hb)
  refine ⟨hall, ?_⟩
  have hsorted : (blocks.mergeSort fun a b => a.content.start ≤ b.content.start).Pairwise
      fun a b => decide (a.content.start ≤ b.content.start) = true := List.pairwise_mergeSort
    (by intro a b c hab hbc; simp only [decide_eq_true_eq] at *; omega)
    (by intro a b; simp only [Bool.or_eq_true, decide_eq_true_eq]; omega) blocks
  have hapart := (hperm.pairwise_iff fun {a b} => RawBlock.apart_symm).mpr h.2
  refine (hsorted.and hapart).imp_of_mem ?_
  intro a b ha hb hab
  simp only [decide_eq_true_eq] at hab
  rcases hab.2 with hbefore | hafter
  · exact hbefore
  · have := (hall b hb).start_le
    unfold Before at hafter
    omega

def tagEnding? (name : Text) (stop offset : Nat) (text : Text) : Option StartTag :=
  if StartTag.hasName name (text.drop 1) then
    (StartTag.scan offset text).toOption.filter fun tag => tag.span.stop = stop
  else none

theorem openTag?_eq (source : Text) (gap : Span) (b : RawBlock) (comments : List Span) :
    openTag? source gap b comments =
      lastTag? ('<' :: b.tag.toList) comments gap.stop (tagEnding? b.tag.toList b.content.start)
        gap.start (skipTo 0 gap.start source) := rfl

theorem exists_of_tagEnding? {name r : Text} {stop offset : Nat}
    (h : tagEnding? name stop offset ('<' :: r) = some tag) :
    ∃ (s : TagShape) (f : Text), '<' :: r = s.text ++ f ∧ s.Fits f ∧ tag = s.startTag offset ∧
      offset + s.text.size = stop ∧ StartTag.hasName name r = true := by
  unfold tagEnding? at h
  split at h
  next hname =>
    obtain ⟨hscan, hstop⟩ := Option.filter_eq_some_iff.mp h
    cases hs : StartTag.scan offset ('<' :: r) with
    | error e =>
      rw [hs] at hscan
      cases hscan
    | ok found =>
      rw [hs] at hscan
      obtain rfl := Option.some.inj hscan
      obtain ⟨s, f, htext, hfits, rfl⟩ := TagShape.exists_of_scan hs
      exact ⟨s, f, htext, hfits, rfl, of_decide_eq_true hstop, hname⟩
  next => cases h

theorem exists_of_lastTag? {needle : Text} {limit : Nat} {accept : Nat → Text → Option StartTag}
    (h : At source offset text)
    (htag : lastTag? needle comments limit accept offset text = some tag) :
    ∃ o t, offset ≤ o ∧ At source o (needle ++ t) ∧ accept o (needle ++ t) = some tag ∧
      comments.any (·.overlaps ⟨o, o + needle.size⟩) = false := by
  induction text generalizing offset with
  | nil => cases htag
  | cons c cs ih =>
    rw [lastTag?] at htag
    split at htag
    next found hfound =>
      obtain ⟨o, t, hle, hat, hacc⟩ := ih (h.skip (s := [c])) (htag ▸ hfound)
      exact ⟨o, t, by omega, hat, hacc⟩
    next =>
      simp only at htag
      split at htag
      next hcond =>
        simp only [Bool.and_eq_true, Bool.not_eq_true'] at hcond
        obtain ⟨t, ht⟩ := List.isPrefixOf_iff_prefix.mp hcond.1.1
        rw [← ht] at htag h
        exact ⟨offset, t, le_rfl, h, htag, hcond.2⟩
      next => cases htag

theorem exists_of_openTag? {gap : Span} {b : RawBlock} (hgap : source.isBoundary gap.start = true)
    (h : openTag? source gap b comments = some tag) :
    ∃ (s : TagShape) (o : Nat) (f : Text), tag = s.startTag o ∧ At source o (s.text ++ f) ∧ s.Fits f ∧
      StartTag.hasName b.tag.toList (s.name ++ (s.tail ++ f)) = true ∧ gap.start ≤ o ∧
      o + s.text.size = b.content.start ∧
      comments.any (·.overlaps ⟨o, o + Text.size ('<' :: b.tag.toList)⟩) = false := by
  obtain ⟨text, hat⟩ := At.of_isBoundary hgap
  rw [openTag?_eq, skipTo_eq (At.zero source) hat (Nat.zero_le _)] at h
  obtain ⟨o, t, hle, ho, hacc, hclear⟩ := exists_of_lastTag? hat h
  rw [List.cons_append] at ho hacc
  obtain ⟨s, f, htext, hs, htag, hstop, hname⟩ := exists_of_tagEnding? hacc
  have hrest : b.tag.toList ++ t = s.name ++ (s.tail ++ f) := by simpa [TagShape.text] using htext
  exact ⟨s, o, f, htag, htext ▸ ho, hs, hrest ▸ hname, hle, hstop, hclear⟩

/-- The parts of a block lie side by side on boundaries of the source. -/
structure Block.Tiles (source : Text) (b : Block) : Prop where
  open_meets : b.openTag.stop = b.content.start
  close_meets : b.content.stop = b.closeTag.start
  openTag : b.openTag.Fits source
  content : b.content.Fits source
  closeTag : b.closeTag.Fits source

theorem resolve_tiles {gap : Span} {b : RawBlock} (comments : List Span)
    (hgap : source.isBoundary gap.start = true) (hb : b.Behind source 0)
    (hle : gap.start ≤ b.content.start) :
    (resolve source gap comments b).1.Tiles source ∧
      gap.start ≤ (resolve source gap comments b).1.openTag.start := by
  have hcontent : b.content.Fits source := ⟨hb.le, hb.start, hb.meets ▸ hb.close_start⟩
  have hclose : b.close.Fits source := ⟨hb.close_le, hb.close_start, hb.close_stop⟩
  unfold resolve
  simp only
  split
  next => exact ⟨⟨rfl, hb.meets, ⟨le_rfl, hb.start, hb.start⟩, hcontent, hclose⟩, hle⟩
  next tag htag =>
    obtain ⟨s, o, f, rfl, hat, -, -, hge, hstop, -⟩ := exists_of_openTag? hgap htag
    exact ⟨⟨hstop, hb.meets, ⟨Nat.le_add_right o _, hat.isBoundary, hat.skip.isBoundary⟩, hcontent,
      hclose⟩, hge⟩

theorem resolve_closeTag (gap : Span) (comments : List Span) (b : RawBlock) :
    (resolve source gap comments b).1.closeTag = b.close := by
  unfold resolve
  simp only
  split <;> rfl

theorem resolveAll_tiles (hstop : source.isBoundary stop = true)
    (hall : ∀ b ∈ blocks, b.Behind source 0) (hle : ∀ b ∈ blocks, stop ≤ b.content.start)
    (hpair : blocks.Pairwise Before) :
    (∀ b ∈ (resolveAll source comments stop blocks).1,
        b.Tiles source ∧ stop ≤ b.openTag.start) ∧
      (resolveAll source comments stop blocks).1.Pairwise
        fun a b => a.closeTag.stop ≤ b.openTag.start := by
  induction blocks generalizing stop with
  | nil => exact ⟨by simp [resolveAll], .nil⟩
  | cons b blocks ih =>
    have hb := hall b (by simp)
    obtain ⟨hbefore, hrest⟩ := List.pairwise_cons.mp hpair
    let gap : Span := ⟨stop, max b.content.start stop⟩
    have hgap : gap.start ≤ b.content.start := hle b (by simp)
    obtain ⟨htiles, hge⟩ := resolve_tiles comments hstop hb hgap
    obtain ⟨hmore, hpairs⟩ := ih hb.close_stop (fun c hc => hall c (by simp [hc]))
      (fun c hc => (hbefore c hc).le) hrest
    have hreach : stop ≤ b.close.stop := (hle b (by simp)).trans hb.start_le
    rw [resolveAll]
    refine ⟨?_, List.pairwise_cons.mpr ⟨?_, hpairs⟩⟩
    · intro c hc
      rcases List.mem_cons.mp hc with rfl | hc
      · exact ⟨htiles, hge⟩
      · exact ⟨(hmore c hc).1, hreach.trans (hmore c hc).2⟩
    · intro c hc
      rw [resolve_closeTag]
      exact (hmore c hc).2

namespace Block

variable {b : Block}

theorem Tiles.span_eq (h : b.Tiles source) : b.span = ⟨b.openTag.start, b.closeTag.stop⟩ := by
  have ho := h.openTag.le
  have hc := h.content.le
  have hl := h.closeTag.le
  have hm := h.open_meets
  have hn := h.close_meets
  simp only [span, Span.cover, Span.mk.injEq]
  omega

theorem Tiles.text_eq (h : b.Tiles source) :
    b.openTag.text source ++ b.content.text source ++ b.closeTag.text source =
      b.span.text source := by
  have hmid := Text.slice_append h.openTag.start h.content.start h.content.stop
    (h.open_meets ▸ h.openTag.le) h.content.le
  have hall := Text.slice_append h.openTag.start h.closeTag.start h.closeTag.stop
    (h.close_meets ▸ (h.open_meets ▸ h.openTag.le).trans h.content.le) h.closeTag.le
  rw [h.span_eq]
  simp only [Span.text]
  rw [h.open_meets, hmid, h.close_meets, hall]

end Block

/-- The gaps between blocks, with the blocks in them. -/
def Document.rebuild (source : Text) : Nat → List Block → Text
  | cursor, [] => source.slice cursor source.size
  | cursor, b :: bs =>
    source.slice cursor b.span.start ++ b.span.text source ++ rebuild source b.span.stop bs

theorem rebuild_eq {blocks : List Block} (hstop : source.isBoundary stop = true)
    (hall : ∀ b ∈ blocks, b.Tiles source ∧ stop ≤ b.openTag.start)
    (hpair : blocks.Pairwise fun a b => a.closeTag.stop ≤ b.openTag.start) :
    Document.rebuild source stop blocks = source.slice stop source.size := by
  have hend : source.isBoundary source.size = true := (At.size source).isBoundary
  induction blocks generalizing stop with
  | nil => rfl
  | cons b blocks ih =>
    obtain ⟨hb, hle⟩ := hall b (by simp)
    obtain ⟨hafter, hrest⟩ := List.pairwise_cons.mp hpair
    have hspan : b.openTag.start ≤ b.closeTag.stop :=
      hb.openTag.le.trans (hb.open_meets.le.trans (hb.content.le.trans
        (hb.close_meets.le.trans hb.closeTag.le)))
    have hmore := ih hb.closeTag.stop
      (fun c hc => ⟨(hall c (by simp [hc])).1, hafter c hc⟩) hrest
    rw [Document.rebuild, hb.span_eq, Span.text, hmore,
      Text.slice_append hstop hb.openTag.start hb.closeTag.stop hle hspan,
      Text.slice_append hstop hb.closeTag.stop hend (hle.trans hspan)
        (Text.le_size_of_isBoundary hb.closeTag.stop)]

theorem parse_tiles (keepEmpty : Bool) (source : Text) :
    (∀ b ∈ (Document.parse keepEmpty source).1.blocks, b.Tiles source ∧ 0 ≤ b.openTag.start) ∧
      (Document.parse keepEmpty source).1.blocks.Pairwise
        fun a b : Block => a.closeTag.stop ≤ b.openTag.start := by
  have hraw : ∀ comments, Scattered source
      (if keepEmpty then (scanBlocks (source.length + 1) 0 source).1 ++
          scanEmptyBlocks source comments (scanBlocks (source.length + 1) 0 source).1
        else (scanBlocks (source.length + 1) 0 source).1) := by
    intro comments
    cases keepEmpty
    · exact scattered_found source _
    · exact (scattered_found source _).append_empty comments
  obtain ⟨hall, hpair⟩ := (hraw (commentsFrom (source.length + 1) 0 source)).rising_mergeSort
  exact resolveAll_tiles (At.zero source).isBoundary hall (fun _ _ => Nat.zero_le _) hpair

/-- The blocks of a document tile it: the parts of each lie side by side, each block lies behind the
one before it, and the blocks and the gaps between them make up the source. -/
theorem parse_blocks_tile (keepEmpty : Bool) (source : Text) :
    let blocks := (Document.parse keepEmpty source).1.blocks
    (∀ b ∈ blocks, b.Tiles source ∧
      b.openTag.text source ++ b.content.text source ++ b.closeTag.text source =
        b.span.text source) ∧
      blocks.Pairwise (fun a b => a.closeTag.stop ≤ b.openTag.start ∧ a.span.stop ≤ b.span.start) ∧
      Document.rebuild source 0 blocks = source := by
  intro blocks
  have hstart := (At.zero source).isBoundary
  obtain ⟨htiles, hbehind⟩ := parse_tiles keepEmpty source
  refine ⟨fun b hb => ⟨(htiles b hb).1, (htiles b hb).1.text_eq⟩, ?_, ?_⟩
  · refine hbehind.imp_of_mem fun ha hb hab => ⟨hab, ?_⟩
    rw [(htiles _ ha).1.span_eq, (htiles _ hb).1.span_eq]
    exact hab
  · show Document.rebuild source 0 (Document.parse keepEmpty source).1.blocks = source
    rw [rebuild_eq hstart htiles hbehind]
    exact (Text.slice_size hstart).unique (At.zero source)

end Markup
end SfcTsx
