import SfcTsx.Proofs.Markup.Extract
import Mathlib.Data.List.Pairwise

namespace SfcTsx.Markup

variable {c : Char}

open Text (At)
open RawBlock (Before Apart)

variable {source text : Text} {offset : Nat} {b : RawBlock} {raws : List RawBlock}
  {keepEmpty : Bool}

theorem not_mem_of_all {p : Char → Bool} {s : Text} (h : ∀ d ∈ s, p d = true)
    (hc : p c = false) : c ∉ s := by
  intro hmem
  have hd := h c hmem
  rw [hc] at hd
  cases hd

theorem TagWord.not_mem {word f : Text} (h : TagWord word f) (hletter : c.isAlpha = false)
    (hchar : isTagWordChar c = false) : c ∉ word := by
  intro hc
  cases word with
  | nil => cases hc
  | cons d word =>
    rcases List.mem_cons.mp hc with rfl | hc
    · have hd : c.isAlpha = true := h.letter
      rw [hletter] at hd
      cases hd
    · exact not_mem_of_all h.chars hchar hc

theorem eq_of_occurs_once {a b f m t : Text} (heq : a ++ (c :: (b ++ f)) = m ++ c :: t)
    (ha : c ∉ a) (hb : c ∉ b) (hm : m.size < a.size + (c.utf8Size + b.size)) : t = b ++ f := by
  induction a generalizing m with
  | nil =>
    cases m with
    | nil => exact (List.cons.inj heq).2.symm
    | cons d m =>
      -- Otherwise the character would stand in what follows it, too.
      obtain ⟨rfl, htail⟩ := List.cons.inj heq
      simp only [Text.size_nil, Text.size_cons] at hm
      obtain ⟨x, rfl, -⟩ | ⟨x, rfl, hx⟩ := List.append_eq_append_iff.mp htail
      · simp only [Text.size_append] at hm
        omega
      · cases x with
        | nil =>
          simp only [List.append_nil] at hm
          omega
        | cons e x =>
          obtain ⟨rfl, -⟩ := List.cons.inj hx
          exact absurd (by simp) hb
  | cons d a ih =>
    cases m with
    | nil =>
      obtain rfl := (List.cons.inj heq).1
      exact absurd (by simp) ha
    | cons e m =>
      obtain ⟨rfl, htail⟩ := List.cons.inj heq
      refine ih htail (fun hc => ha (by simp [hc])) ?_
      simp only [Text.size_cons] at hm
      omega

theorem EmptyFound.not_covers {found : RawBlock × Span} {o : Nat} {t : Text}
    (h : EmptyFound source offset found) (ht : At source o (("<!--" : String).toList ++ t)) :
    found.1.covers o = false := by
  obtain ⟨s, p, f, hs, hat, -, rfl⟩ := h
  by_contra hcovers
  simp only [RawBlock.covers, Bool.not_eq_false, Bool.and_eq_true, decide_eq_true_eq] at hcovers
  obtain ⟨hle, hlt⟩ : p + s.startTag.size ≤ o ∧ o < p + s.text.size := hcovers
  have hinner : At source (p + s.startTag.size) (s.blank ++ (s.closeTag ++ f)) := by
    have hparts : At source p (s.startTag ++ (s.blank ++ (s.closeTag ++ f))) := by
      simpa [ElementShape.text] using hat
    exact hparts.skip
  obtain ⟨m, hm, rfl⟩ := hinner.between ht hle
  have hblank : '<' ∉ s.blank := not_mem_of_all hs.blank (by decide)
  have hrest : '<' ∉ '/' :: (s.closing ++ (s.gap ++ ['>'])) := by
    simp only [List.mem_cons, List.mem_append, List.not_mem_nil, or_false, not_or]
    exact ⟨by decide, hs.closing.not_mem (by decide) (by decide),
      not_mem_of_all hs.gap (by decide), by decide⟩
  have hsize : m.size < s.blank.size +
      (('<' : Char).utf8Size + Text.size ('/' :: (s.closing ++ (s.gap ++ ['>'])))) := by
    have htext := s.size_text
    simp only [ElementShape.closeTag, Text.size_cons] at htext
    simp only [Text.size_cons]
    omega
  have hslash := eq_of_occurs_once (t := ("!--" : String).toList ++ t) hm hblank hrest hsize
  cases hslash

theorem commentsFrom_at {fuel : Nat} {c : Span} (h : At source offset text)
    (hc : c ∈ commentsFrom fuel offset text) :
    ∃ t, At source c.start (("<!--" : String).toList ++ t) := by
  induction fuel generalizing offset text with
  | zero => cases hc
  | succ fuel ih =>
    rw [commentsFrom] at hc
    split at hc
    next front rest hcut =>
      obtain ⟨rfl, t, rfl⟩ := Text.cutAt?_eq_some hcut
      have hopen := h.skip
      rcases List.mem_cons.mp hc with rfl | hc
      · exact ⟨t, hopen⟩
      · exact ih (afterComment_at hopen.skip).1 hc
    next => cases hc

/-- Where the start tag of a block whose content begins at an offset may be looked for: behind the blocks
before it. -/
def reach (raws : List RawBlock) (offset : Nat) : Nat :=
  raws.foldr (fun r n => if r.content.start < offset then max r.close.stop n else n) 0

theorem reach_cons (r : RawBlock) (raws : List RawBlock) (offset : Nat) : reach (r :: raws) offset =
      if r.content.start < offset then max r.close.stop (reach raws offset)
      else reach raws offset := rfl

theorem reach_le_iff {n : Nat} : reach raws offset ≤ n ↔
    ∀ r ∈ raws, r.content.start < offset → r.close.stop ≤ n := by
  induction raws with
  | nil => simp [reach]
  | cons r raws ih =>
    rw [reach_cons, List.forall_mem_cons, ← ih]
    split
    next hlt => rw [Nat.max_le, forall_prop_of_true hlt]
    next hge => simp [hge]

theorem le_reach {r : RawBlock} (hr : r ∈ raws) (hlt : r.content.start < offset) :
    r.close.stop ≤ reach raws offset :=
  reach_le_iff.mp le_rfl r hr hlt

/-- The gap in which the start tag of a block stands, if it is looked for from an offset on. -/
def RawBlock.gap (b : RawBlock) (start : Nat) : Span := ⟨start, b.content.start⟩

theorem resolveAll_eq_map (comments : List Span) {stop : Nat} (hall : ∀ b ∈ raws, b.Behind source 0)
    (hpair : raws.Pairwise Before) (hstop : ∀ b ∈ raws, stop ≤ b.content.start) :
    let found := raws.map fun b =>
      resolve source (b.gap (max stop (reach raws b.content.start))) comments b
    resolveAll source comments stop raws = (found.map (·.1), found.flatMap (·.2)) := by
  induction raws generalizing stop with
  | nil => rfl
  | cons b raws ih =>
    obtain ⟨hbefore, hrest⟩ := List.pairwise_cons.mp hpair
    have hb := (hall b (by simp)).start_le
    have hle := hstop b (by simp)
    have hhead : max stop (reach (b :: raws) b.content.start) = stop := by
      refine max_eq_left (reach_le_iff.mpr fun r hr hlt => ?_)
      rcases List.mem_cons.mp hr with rfl | hr
      · omega
      · have := hbefore r hr
        unfold Before at this
        omega
    have htail : (raws.map fun c =>
          resolve source (c.gap (max stop (reach (b :: raws) c.content.start))) comments c) =
        raws.map fun c =>
          resolve source (c.gap (max b.close.stop (reach raws c.content.start))) comments c := by
      refine List.map_congr_left fun c hc => ?_
      have hbc := hbefore c hc
      unfold Before at hbc
      rw [reach_cons, if_pos (by omega), ← Nat.max_assoc, max_eq_right (hle.trans hb)]
    simp only [resolveAll, ih (fun c hc => hall c (by simp [hc])) hrest fun c hc => (hbefore c hc).le,
      List.map_cons, List.flatMap_cons, hhead, htail, max_eq_left hle]
    rfl

theorem lastTag?_skip {needle : Text} {comments : List Span} {limit : Nat}
    {accept : Nat → Text → Option StartTag}
    (haccept : ∀ o t tag, accept o (needle ++ t) = some tag → tag.span.start = o)
    (s : Text) (h : At source offset (s ++ text)) :
    (lastTag? needle comments limit accept offset (s ++ text)).filter
        (fun tag => offset + s.size ≤ tag.span.start) =
      lastTag? needle comments limit accept (offset + s.size) text := by
  induction s generalizing offset with
  | nil =>
    cases htag : lastTag? needle comments limit accept offset ([] ++ text) with
    | none => exact htag.symm
    | some tag =>
      obtain ⟨o, t, hle, -, hacc, -⟩ := exists_of_lastTag? h htag
      rw [Option.filter_some, if_pos (by simpa [haccept o t tag hacc] using hle)]
      exact htag.symm
  | cons c s ih =>
    have hnext : At source (offset + c.utf8Size) (s ++ text) := h.skip (s := [c])
    have hsize : offset + Text.size (c :: s) = offset + c.utf8Size + Text.size s := by
      simp only [Text.size_cons]
      omega
    rw [hsize, ← ih hnext, List.cons_append, lastTag?]
    cases hlast : lastTag? needle comments limit accept (offset + c.utf8Size) (s ++ text) with
    | some tag => rfl
    | none =>
      -- What begins with the first character begins in front.
      have hpos := c.utf8Size_pos
      simp only [Option.filter_none]
      split
      next hcond =>
        refine Option.filter_eq_none_iff.mpr fun tag htag => ?_
        simp only [Bool.and_eq_true] at hcond
        obtain ⟨t, ht⟩ := List.isPrefixOf_iff_prefix.mp hcond.1.1
        rw [← ht] at htag
        have hstart := haccept offset t tag htag
        simp only [decide_eq_true_eq]
        omega
      next => rfl

theorem openTag?_gap (b : RawBlock) (comments : List Span) {start start' : Nat}
    (h : source.isBoundary start = true) (h' : source.isBoundary start' = true)
    (hle : start ≤ start') :
    openTag? source (b.gap start') b comments =
      (openTag? source (b.gap start) b comments).filter fun tag => start' ≤ tag.span.start := by
  obtain ⟨t, ht⟩ := At.of_isBoundary h
  obtain ⟨t', ht'⟩ := At.of_isBoundary h'
  obtain ⟨s, rfl, rfl⟩ := ht.between ht' hle
  simp only [openTag?_eq, RawBlock.gap, skipTo_eq (At.zero source) ht (Nat.zero_le _),
    skipTo_eq (At.zero source) ht' (Nat.zero_le _)]
  refine (lastTag?_skip (fun o t tag hacc => ?_) s ht).symm
  obtain ⟨-, -, -, -, rfl, -⟩ := exists_of_tagEnding? hacc
  rfl

theorem resolve_gap {comments : List Span} {start start' : Nat} (h : source.isBoundary start = true)
    (h' : source.isBoundary start' = true) (hle : start ≤ start')
    (hopen : start' ≤ (resolve source (b.gap start) comments b).1.openTag.start) :
    (resolve source (b.gap start') comments b).1 = (resolve source (b.gap start) comments b).1 := by
  have hgap := openTag?_gap b comments h h' hle
  cases htag : openTag? source (b.gap start) b comments with
  | none =>
    rw [htag] at hgap
    simp [resolve, htag, hgap]
  | some tag =>
    simp only [resolve, htag] at hopen
    rw [htag, Option.filter_some, if_pos (by simpa using hopen)] at hgap
    simp only [resolve, htag, hgap]

def knownBlocks (source : Text) : List RawBlock := (scanBlocks (source.length + 1) 0 source).1

def emptyBlocks (source : Text) : List RawBlock :=
  scanEmptyBlocks source (commentsFrom (source.length + 1) 0 source) (knownBlocks source)

def outerComments (source : Text) : List Span :=
  (commentsFrom (source.length + 1) 0 source).filter fun c =>
    !(knownBlocks source).any (·.covers c.start)

def rawBlocks (keepEmpty : Bool) (source : Text) : List RawBlock :=
  (if keepEmpty then knownBlocks source ++ emptyBlocks source else knownBlocks source).mergeSort
    fun a b => a.content.start ≤ b.content.start

theorem mem_rawBlocks : b ∈ rawBlocks keepEmpty source ↔
    b ∈ knownBlocks source ∨ keepEmpty = true ∧ b ∈ emptyBlocks source := by
  rw [rawBlocks, List.mem_mergeSort]
  cases keepEmpty <;> simp

theorem mem_rawBlocks_true (hb : b ∈ rawBlocks false source) : b ∈ rawBlocks true source := by
  rcases mem_rawBlocks.mp hb with hb | ⟨hfalse, -⟩
  · exact mem_rawBlocks.mpr (.inl hb)
  · cases hfalse

theorem rawBlocks_rising (keepEmpty : Bool) (source : Text) :
    (∀ b ∈ rawBlocks keepEmpty source, b.Behind source 0) ∧
      (rawBlocks keepEmpty source).Pairwise Before := by
  apply Scattered.rising_mergeSort
  cases keepEmpty
  · exact scattered_found source _
  · exact (scattered_found source _).append_empty _

theorem emptyFound_of_mem (hb : b ∈ emptyBlocks source) :
    ∃ span, EmptyFound source 0 (b, span) := by
  obtain ⟨⟨b', span⟩, hfound, hcond⟩ := List.mem_filterMap.mp hb
  obtain ⟨-, hsome⟩ := Option.ite_none_left_eq_some.mp hcond
  obtain rfl := Option.some.inj hsome
  exact ⟨span, (emptyElements_found _ (At.zero source)).1 _ hfound⟩

theorem isBlank_of_mem_emptyBlocks (hb : b ∈ emptyBlocks source) :
    Text.isBlank (b.content.text source) = true := by
  obtain ⟨span, s, o, f, hs, hat, -, heq⟩ := emptyFound_of_mem hb
  obtain ⟨rfl, -⟩ := Prod.mk.inj heq
  have hparts : At source o (s.startTag ++ (s.blank ++ (s.closeTag ++ f))) := by
    simpa [ElementShape.text] using hat
  have hcontent : (s.block o).content.text source = s.blank := hparts.skip.slice
  rw [hcontent]
  exact List.all_eq_true.mpr hs.blank

theorem filter_covers_rawBlocks (keepEmpty : Bool) (source : Text) :
    ((commentsFrom (source.length + 1) 0 source).filter fun c =>
      !(rawBlocks keepEmpty source).any (·.covers c.start)) = outerComments source := by
  refine List.filter_congr fun c hc => congrArg _ ?_
  rw [Bool.eq_iff_iff, List.any_eq_true, List.any_eq_true]
  constructor
  · rintro ⟨b, hb, hcovers⟩
    rcases mem_rawBlocks.mp hb with hb | ⟨-, hb⟩
    · exact ⟨b, hb, hcovers⟩
    · obtain ⟨t, ht⟩ := commentsFrom_at (At.zero source) hc
      obtain ⟨span, hfound⟩ := emptyFound_of_mem hb
      rw [hfound.not_covers ht] at hcovers
      cases hcovers
  · rintro ⟨b, hb, hcovers⟩
    exact ⟨b, mem_rawBlocks.mpr (.inl hb), hcovers⟩

def resolved (keepEmpty : Bool) (source : Text) (b : RawBlock) : Block :=
  (resolve source (b.gap (reach (rawBlocks keepEmpty source) b.content.start))
    (outerComments source) b).1

section
variable (keepEmpty : Bool) (source : Text) (b : RawBlock)

theorem parse_resolved : let found := Document.parse keepEmpty source
    found.1.blocks = (rawBlocks keepEmpty source).map (resolved keepEmpty source) ∧
      found.1.comments = outerComments source ∧
      ∀ b ∈ rawBlocks keepEmpty source, ∀ e ∈ (resolve source
        (b.gap (reach (rawBlocks keepEmpty source) b.content.start)) (outerComments source) b).2,
        e ∈ found.2 := by
  obtain ⟨hall, hpair⟩ := rawBlocks_rising keepEmpty source
  have hmap := resolveAll_eq_map (outerComments source) hall hpair fun b _ => Nat.zero_le _
  simp only [Nat.zero_max] at hmap
  have hparse : Document.parse keepEmpty source =
      let comments := (commentsFrom (source.length + 1) 0 source).filter fun c =>
        !(rawBlocks keepEmpty source).any (·.covers c.start)
      let found := resolveAll source comments 0 (rawBlocks keepEmpty source)
      (⟨source, found.1, comments⟩,
        (scanBlocks (source.length + 1) 0 source).2 ++ found.2 ++ duplicates [] found.1) := rfl
  simp only [hparse, filter_covers_rawBlocks, hmap]
  refine ⟨List.map_map, trivial, fun b hb e he => ?_⟩
  refine List.mem_append_left _ (List.mem_append_right _ ?_)
  exact List.mem_flatMap.mpr ⟨_, List.mem_map_of_mem hb, he⟩

theorem parse_blocks_eq : (Document.parse keepEmpty source).1.blocks =
      (rawBlocks keepEmpty source).map (resolved keepEmpty source) :=
  (parse_resolved keepEmpty source).1

theorem tag_resolved : (resolved keepEmpty source b).tag = b.tag := by
  unfold resolved resolve
  simp only
  split <;> rfl

theorem content_resolved : (resolved keepEmpty source b).content = b.content := by
  unfold resolved resolve
  simp only
  split <;> rfl

theorem closeTag_resolved : (resolved keepEmpty source b).closeTag = b.close :=
  resolve_closeTag _ _ _

end

theorem before_of_start_lt {a : RawBlock} (ha : a ∈ rawBlocks keepEmpty source)
    (hb : b ∈ rawBlocks keepEmpty source) (hlt : a.content.start < b.content.start) :
    Before a b := by
  obtain ⟨hall, hpair⟩ := rawBlocks_rising keepEmpty source
  have : Std.Symm Apart := ⟨fun _ _ => RawBlock.apart_symm⟩
  have hne : a ≠ b := by
    rintro rfl
    omega
  have hapart : (rawBlocks keepEmpty source).Pairwise Apart := hpair.imp Or.inl
  rcases hapart.forall ha hb hne with hab | hba
  · exact hab
  · have := (hall b hb).start_le
    unfold Before at hba
    omega

theorem reach_le_start (hb : b ∈ rawBlocks keepEmpty source) :
    reach (rawBlocks keepEmpty source) b.content.start ≤ b.content.start :=
  reach_le_iff.mpr fun _ hr hlt => (before_of_start_lt hr hb hlt).le

theorem isBoundary_reach (hall : ∀ b ∈ raws, b.Behind source 0) (offset : Nat) :
    source.isBoundary (reach raws offset) = true := by
  induction raws with
  | nil => exact (At.zero source).isBoundary
  | cons r raws ih =>
    have hraws := ih fun b hb => hall b (by simp [hb])
    have hr := (hall r (by simp)).close_stop
    rw [reach_cons]
    split
    · rcases Nat.le_total r.close.stop (reach raws offset) with hle | hle
      · rwa [Nat.max_eq_right hle]
      · rwa [Nat.max_eq_left hle]
    · exact hraws

theorem reach_le_openTag (hb : b ∈ rawBlocks keepEmpty source) :
    reach (rawBlocks keepEmpty source) b.content.start ≤
      (resolved keepEmpty source b).openTag.start := by
  have hall := (rawBlocks_rising keepEmpty source).1
  let gap := b.gap (reach (rawBlocks keepEmpty source) b.content.start)
  have hgap : source.isBoundary gap.start = true := isBoundary_reach hall _
  exact (resolve_tiles (outerComments source) hgap (hall b hb) (reach_le_start hb)).2

theorem resolved_eq (h : ∀ r ∈ rawBlocks true source, r.content.start < b.content.start →
      r.close.stop ≤ (resolved false source b).openTag.start) :
    resolved true source b = resolved false source b := by
  refine resolve_gap (isBoundary_reach (rawBlocks_rising false source).1 _)
    (isBoundary_reach (rawBlocks_rising true source).1 _) ?_ (reach_le_iff.mpr h)
  exact reach_le_iff.mpr fun r hr hlt => le_reach (mem_rawBlocks_true hr) hlt

/-- Keeping the empty blocks adds blocks without content, and it leaves the others as they are exactly
if no block that ends up in front of another reaches into that one's start tag. What is left alone in
any case is where the content and the closing tag of a block stand. -/
theorem parse_keepEmpty_adds_iff (source : Text) : let few := (Document.parse false source).1.blocks
    let all := (Document.parse true source).1.blocks
    (∀ b ∈ few, ∃ e ∈ all, e.tag = b.tag ∧ e.content = b.content ∧ e.closeTag = b.closeTag) ∧
      (((∀ b ∈ few, b ∈ all) ∧
          ∀ e ∈ all, e ∉ few → Text.isBlank (e.content.text source) = true) ↔
        ∀ b ∈ few, ∀ e ∈ all, e.content.start < b.content.start →
          e.closeTag.stop ≤ b.openTag.start) := by
  intro few all
  have hfew : few = (rawBlocks false source).map (resolved false source) := parse_blocks_eq _ _
  have hall : all = (rawBlocks true source).map (resolved true source) := parse_blocks_eq _ _
  rw [hfew, hall]
  simp only [List.forall_mem_map]
  refine ⟨fun b hb => ?_, ?_, ?_⟩
  · refine ⟨_, List.mem_map_of_mem (mem_rawBlocks_true hb), ?_⟩
    simp [tag_resolved, content_resolved, closeTag_resolved]
  · rintro ⟨hsame, -⟩ b hb e he hlt
    obtain ⟨b', hb', heq⟩ := List.mem_map.mp (hsame b hb)
    have hstart : b'.content.start = b.content.start := by
      rw [← content_resolved true source b', heq, content_resolved]
    rw [content_resolved, content_resolved, ← hstart] at hlt
    rw [← heq, closeTag_resolved]
    exact (le_reach he hlt).trans (reach_le_openTag hb')
  · intro hclear
    have hsame : ∀ b ∈ rawBlocks false source, resolved true source b = resolved false source b := by
      intro b hb
      refine resolved_eq fun r hr hlt => ?_
      rw [← closeTag_resolved true source r]
      exact hclear b hb r hr (by simpa only [content_resolved] using hlt)
    refine ⟨fun b hb => ?_, fun e he hnew => ?_⟩
    · rw [← hsame b hb]
      exact List.mem_map_of_mem (mem_rawBlocks_true hb)
    · rw [content_resolved]
      rcases mem_rawBlocks.mp he with hknown | ⟨-, hempty⟩
      · have hfalse : e ∈ rawBlocks false source := mem_rawBlocks.mpr (.inl hknown)
        rw [hsame e hfalse] at hnew
        exact absurd (List.mem_map_of_mem hfalse) hnew
      · exact isBlank_of_mem_emptyBlocks hempty

deriving instance DecidableEq for RawBlock

/-- A start tag with an element in the quotes of an attribute. -/
def quotedElement : Text := "<script a=\"<b></b>\">x</script>".toList

/-- An element in the quotes of an attribute is taken for an empty block; the block whose start tag has
the attribute loses the tag. -/
theorem keepEmpty_hides_start_tag :
    (Document.parse false quotedElement).1.blocks.map (·.openTag) = [⟨0, 20⟩] ∧
      (Document.parse true quotedElement).1.blocks.map (·.openTag) = [⟨11, 14⟩, ⟨20, 20⟩] := by
  have hknown : knownBlocks quotedElement = [⟨"script", ⟨20, 21⟩, ⟨21, 30⟩⟩] := by decide +kernel
  have hempty : emptyBlocks quotedElement = [⟨"b", ⟨14, 14⟩, ⟨14, 18⟩⟩] := by decide +kernel
  have hfew : rawBlocks false quotedElement = [⟨"script", ⟨20, 21⟩, ⟨21, 30⟩⟩] := by
    simp [rawBlocks, hknown]
  have hall : rawBlocks true quotedElement =
      [⟨"b", ⟨14, 14⟩, ⟨14, 18⟩⟩, ⟨"script", ⟨20, 21⟩, ⟨21, 30⟩⟩] := by
    simp [rawBlocks, hknown, hempty, List.mergeSort]
  simp only [parse_blocks_eq, hfew, hall, List.map_cons, List.map_nil, resolved]
  decide +kernel

end SfcTsx.Markup
