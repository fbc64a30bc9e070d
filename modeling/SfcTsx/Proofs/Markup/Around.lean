import SfcTsx.Proofs.Markup.Openings
import Mathlib.Data.List.Basic
import Mathlib.Order.MinMax

namespace SfcTsx.Markup

variable {o : Nat} {c : Span}

open Text (At)
open RawBlock (Before)

variable {offset : Nat}

/-- Where an offset goes if a stretch of text behind a place is replaced by one of another size. -/
def moved (place size size' offset : Nat) : Nat :=
  if offset ≤ place then offset else offset - size + size'

section moved
variable {place size size' : Nat}

theorem moved_of_le (h : o ≤ place) : moved place size size' o = o := if_pos h

theorem moved_add (hpos : 0 < size) (o : Nat) :
    moved place size size' (o + (place + size)) = o + (place + size') := by
  rw [moved, if_neg (by omega)]
  omega

theorem strictMonoOn_moved (hpos : 0 < size') :
    StrictMonoOn (moved place size size') {o | o ≤ place ∨ place + size ≤ o} := by
  intro a ha b hb hlt
  simp only [Set.mem_ofPred_eq] at ha hb
  unfold moved
  split <;> split <;> omega

end moved

theorem reach_mapOffsets {φ : Nat → Nat} {s : Set Nat} (hφ : StrictMonoOn φ s) (hzero : 0 ∈ s)
    (hfix : φ 0 = 0) {raws : List RawBlock}
    (hraws : ∀ r ∈ raws, r.content.start ∈ s ∧ r.close.stop ∈ s) (ho : offset ∈ s) :
    reach (raws.map (·.mapOffsets φ)) (φ offset) = φ (reach raws offset) ∧ reach raws offset ∈ s := by
  induction raws with
  | nil => exact ⟨hfix.symm, hzero⟩
  | cons r raws ih =>
    obtain ⟨heq, hmem⟩ := ih fun b hb => hraws b (by simp [hb])
    obtain ⟨hstart, hstop⟩ := hraws r (by simp)
    have hlt : (r.mapOffsets φ).content.start < φ offset ↔ r.content.start < offset :=
      hφ.lt_iff_lt hstart ho
    rw [List.map_cons, reach_cons, reach_cons, heq]
    by_cases h : r.content.start < offset
    · rw [if_pos h, if_pos (hlt.mpr h)]
      have hmax : max r.close.stop (reach raws offset) ∈ s := by
        rcases Nat.le_total r.close.stop (reach raws offset) with hle | hle
        · rwa [Nat.max_eq_right hle]
        · rwa [Nat.max_eq_left hle]
      exact ⟨(hφ.monotoneOn.map_max hstop hmem).symm, hmax⟩
    · rw [if_neg h, if_neg (mt hlt.mp h)]
      exact ⟨rfl, hmem⟩

namespace RawBlock

variable {b : RawBlock} {s : Span} {o k : Nat}

theorem covers_eq : b.covers o = b.overlaps (.empty o) := Bool.and_comm _ _

theorem overlaps_iff : b.overlaps s = true ↔ s.start < b.close.stop ∧ b.content.start ≤ s.stop := by
  simp [overlaps]

theorem overlaps_shift : (b.shift k).overlaps (s.shift k) = b.overlaps s := by
  simp [overlaps, shift, Span.shift]

end RawBlock

def scriptAt (start : Nat) (z close : Text) : RawBlock :=
  ⟨"script", ⟨start, start + z.size⟩, ⟨start + z.size, start + z.size + close.size⟩⟩

/-- The blocks of a document with a script; those behind are given relative to the script's closing
tag. -/
def blocksAround (before : List RawBlock) (start : Nat) (z close : Text) (behind : List RawBlock) :
    List RawBlock :=
  before ++ scriptAt start z close :: behind.map (·.shift (start + z.size))

section around
variable {before behind : List RawBlock} {start o : Nat} {z close : Text} {s : Span}

theorem overlaps_scriptAt : (scriptAt start z close).overlaps s = true ↔
    s.start < start + z.size + close.size ∧ start ≤ s.stop := RawBlock.overlaps_iff

theorem any_overlaps_front (hz : z ≠ []) (hlt : s.start < s.stop) (hle : s.stop ≤ start) :
    (blocksAround before start z close behind).any (·.overlaps s) =
      (before ++ [scriptAt start [] close]).any (·.overlaps s) := by
  have hpos := Text.size_pos hz
  have hscript : (scriptAt start z close).overlaps s = (scriptAt start [] close).overlaps s := by
    rw [Bool.eq_iff_iff, overlaps_scriptAt, overlaps_scriptAt, Text.size_nil]
    omega
  have hbehind : (behind.map (·.shift (start + z.size))).any (·.overlaps s) = false := by
    simp only [List.any_map, List.any_eq_false, Function.comp_apply, RawBlock.overlaps_iff,
      RawBlock.shift, Span.shift]
    omega
  simp [blocksAround, hscript, hbehind]

theorem any_overlaps_inside (hge : start ≤ s.stop) (hlt : s.start < start + z.size) :
    (blocksAround before start z close behind).any (·.overlaps s) = true := by
  have hscript : (scriptAt start z close).overlaps s = true := overlaps_scriptAt.mpr (by omega)
  simp [blocksAround, hscript]

theorem any_overlaps_back (hbefore : ∀ b ∈ before, b.close.stop ≤ start) :
    (blocksAround before start z close behind).any (·.overlaps (s.shift (start + z.size))) =
      (scriptAt 0 [] close :: behind).any (·.overlaps s) := by
  have hfront : before.any (·.overlaps (s.shift (start + z.size))) = false := by
    rw [List.any_eq_false]
    intro b hb
    have hle := hbefore b hb
    rw [RawBlock.overlaps_iff, Span.shift_start]
    omega
  have hscript : (scriptAt start z close).overlaps (s.shift (start + z.size)) =
      (scriptAt 0 [] close).overlaps s := by
    rw [Bool.eq_iff_iff, overlaps_scriptAt, overlaps_scriptAt, Text.size_nil, Span.shift_start,
      Span.shift_stop]
    omega
  simp [blocksAround, hfront, hscript, RawBlock.overlaps_shift, Function.comp_def]

theorem any_covers_front (h : o < start) :
    (blocksAround before start z close behind).any (·.covers o) = before.any (·.covers o) := by
  have hscript : (scriptAt start z close).overlaps (.empty o) = false := by
    rw [Bool.eq_false_iff, Ne, overlaps_scriptAt]
    simp only [Span.empty]
    omega
  have hbehind : (behind.map (·.shift (start + z.size))).any (·.overlaps (.empty o)) = false := by
    simp only [List.any_map, List.any_eq_false, Function.comp_apply, RawBlock.overlaps_iff,
      RawBlock.shift, Span.shift, Span.empty]
    omega
  simp [blocksAround, RawBlock.covers_eq, hscript, hbehind]

theorem any_covers_inside (h : start ≤ o) (h' : o < start + z.size) :
    (blocksAround before start z close behind).any (·.covers o) = true := by
  simp only [RawBlock.covers_eq]
  exact any_overlaps_inside h h'

theorem any_covers_back (hbefore : ∀ b ∈ before, b.close.stop ≤ start) :
    (blocksAround before start z close behind).any (·.covers (o + (start + z.size))) =
      (scriptAt 0 [] close :: behind).any (·.covers o) := by
  simp only [RawBlock.covers_eq]
  exact any_overlaps_back (s := .empty o) hbefore

end around

theorem commentsAt_bounds {t : Text} (hc : c ∈ commentsAt offset t) :
    offset ≤ c.start ∧ c.start < c.stop ∧ c.stop ≤ offset + t.size := by
  induction hlen : t.length using Nat.strong_induction_on generalizing offset t with
  | _ n ih =>
    obtain hnone | ⟨p, body, closed, f, hfirst⟩ := comment_cases t
    · rw [commentsAt, commentsFrom_none hnone] at hc
      cases hc
    · have hpos : 0 < (commentText body closed).size := Text.size_pos (by simp [commentText])
      have hsize := congrArg Text.size hfirst.text
      simp only [Text.size_append] at hsize
      rw [hfirst.commentsAt_eq] at hc
      rcases List.mem_cons.mp hc with rfl | hc
      · simp only
        omega
      · have hmore := ih _ (hlen ▸ hfirst.length_lt) hc rfl
        omega

theorem elementsAt_bounds {t : Text} {e : RawBlock × Span} (he : e ∈ elementsAt offset t) :
    offset ≤ e.2.start ∧ e.2.start < e.2.stop ∧ e.2.stop ≤ offset + t.size := by
  obtain ⟨source, hat⟩ := At.exists_source offset t
  have hsize := hat.le_size
  obtain ⟨s, o, f, -, hs, hle, rfl⟩ := (emptyElements_found _ hat).1 e he
  have hstop := hs.le_size
  have hpos := Text.size_pos s.text_ne_nil
  simp only [Text.size_append] at hstop ⊢
  omega

def openComments (known : List RawBlock) (comments : List Span) : List Span :=
  comments.filter fun c => !known.any (·.covers c.start)

def openElements (comments : List Span) (known : List RawBlock) (elements : List (RawBlock × Span)) :
    List RawBlock :=
  elements.filterMap fun (block, span) =>
    if comments.any (·.contains span.start) || known.any (·.overlaps span) then none else some block

theorem openElements_congr {comments comments' : List Span} {known known' : List RawBlock}
    {elements : List (RawBlock × Span)}
    (h : ∀ e ∈ elements, comments.any (·.contains e.2.start) = comments'.any (·.contains e.2.start) ∧
      known.any (·.overlaps e.2) = known'.any (·.overlaps e.2)) :
    openElements comments known elements = openElements comments' known' elements := by
  apply List.filterMap_congr
  intro e he
  obtain ⟨hcomments, hknown⟩ := h e he
  simp only [hcomments, hknown]

/-- What the sweeps and the scan find in a document with a script, part by part. -/
structure Around (keepEmpty : Bool) (pre z back close : Text) (before behind : List RawBlock) :
    Prop where
  ne_nil : z ≠ []
  before_le : ∀ b ∈ before, b.close.stop ≤ pre.size
  known : knownBlocks (pre ++ (z ++ back)) = blocksAround before pre.size z close behind
  comments : commentsAt 0 (pre ++ (z ++ back)) = commentsAt 0 pre ++
    (commentsAt pre.size z ++ (commentsAt 0 back).map (·.shift (pre.size + z.size)))
  elements : keepEmpty = true → elementsAt 0 (pre ++ (z ++ back)) = elementsAt 0 pre ++
    (elementsAt pre.size z ++ (elementsAt 0 back).map (shiftElement (pre.size + z.size)))

namespace Around

variable {keepEmpty : Bool} {pre z x y back close : Text} {before behind : List RawBlock}
  {b : RawBlock} (h : Around keepEmpty pre z back close before behind)

include h in
theorem outerComments_eq :
    outerComments (pre ++ (z ++ back)) = openComments before (commentsAt 0 pre) ++
      (openComments (scriptAt 0 [] close :: behind) (commentsAt 0 back)).map
        (·.shift (pre.size + z.size)) := by
  have hall : outerComments (pre ++ (z ++ back)) =
      openComments (blocksAround before pre.size z close behind) (commentsAt 0 (pre ++ (z ++ back))) := by
    rw [← h.known]
    rfl
  have hinside : openComments (blocksAround before pre.size z close behind) (commentsAt pre.size z) =
      [] := by
    apply List.filter_eq_nil_iff.mpr
    intro c hc
    obtain ⟨hge, hlt, hle⟩ := commentsAt_bounds hc
    simp [any_covers_inside hge (by omega : c.start < pre.size + z.size)]
  rw [hall, h.comments]
  unfold openComments at hinside ⊢
  rw [List.filter_append, List.filter_append, hinside, List.nil_append, List.filter_map]
  congr 1
  · apply List.filter_congr
    intro c hc
    obtain ⟨-, hlt, hle⟩ := commentsAt_bounds hc
    rw [any_covers_front (by omega)]
  · congr 1
    apply List.filter_congr
    intro c _
    exact congrArg _ (any_covers_back h.before_le)

theorem overlaps_iff {s : Span} : c.overlaps s = true ↔
    c.start ≠ c.stop ∧ s.start ≠ s.stop ∧ c.start < s.stop ∧ s.start < c.stop := by
  simp [Span.overlaps, Span.isEmpty, and_assoc]

theorem contains_iff : c.contains o = true ↔ c.start ≤ o ∧ o < c.stop := by
  simp [Span.contains]

include h in
theorem any_contains_front (ho : o < pre.size) :
    (commentsAt 0 (pre ++ (z ++ back))).any (·.contains o) =
      (commentsAt 0 pre).any (·.contains o) := by
  have hinside : (commentsAt pre.size z).any (·.contains o) = false := by
    rw [List.any_eq_false]
    intro c hc
    have hge := (commentsAt_bounds hc).1
    rw [contains_iff]
    omega
  have hback : ((commentsAt 0 back).map (·.shift (pre.size + z.size))).any (·.contains o) = false := by
    simp only [List.any_map, List.any_eq_false, Function.comp_apply, contains_iff, Span.shift_start]
    omega
  rw [h.comments, List.any_append, List.any_append, hinside, hback, Bool.or_self, Bool.or_false]

include h in
theorem any_contains_back (o : Nat) :
    (commentsAt 0 (pre ++ (z ++ back))).any (·.contains (o + (pre.size + z.size))) =
      (commentsAt 0 back).any (·.contains o) := by
  have hfront : (commentsAt 0 pre).any (·.contains (o + (pre.size + z.size))) = false := by
    rw [List.any_eq_false]
    intro c hc
    have hle := (commentsAt_bounds hc).2.2
    rw [contains_iff]
    omega
  have hinside : (commentsAt pre.size z).any (·.contains (o + (pre.size + z.size))) = false := by
    rw [List.any_eq_false]
    intro c hc
    have hle := (commentsAt_bounds hc).2.2
    rw [contains_iff]
    omega
  have hshift : ∀ c : Span, (c.shift (pre.size + z.size)).contains (o + (pre.size + z.size)) =
      c.contains o := by
    intro c
    simp [Span.contains]
  rw [h.comments, List.any_append, List.any_append, hfront, hinside, List.any_map]
  simp [Function.comp_def, hshift]

theorem emptyBlocks_eq (h : Around true pre z back close before behind) :
    emptyBlocks (pre ++ (z ++ back)) =
      openElements (commentsAt 0 pre) (before ++ [scriptAt pre.size [] close]) (elementsAt 0 pre) ++
        (openElements (commentsAt 0 back) (scriptAt 0 [] close :: behind) (elementsAt 0 back)).map
          (·.shift (pre.size + z.size)) := by
  have hall : emptyBlocks (pre ++ (z ++ back)) =
      openElements (commentsAt 0 (pre ++ (z ++ back)))
        (blocksAround before pre.size z close behind) (elementsAt 0 (pre ++ (z ++ back))) := by
    rw [← h.known]
    rfl
  have hfront : openElements (commentsAt 0 (pre ++ (z ++ back)))
      (blocksAround before pre.size z close behind) (elementsAt 0 pre) =
      openElements (commentsAt 0 pre) (before ++ [scriptAt pre.size [] close]) (elementsAt 0 pre) := by
    apply openElements_congr
    intro e he
    obtain ⟨-, hlt, hle⟩ := elementsAt_bounds he
    exact ⟨h.any_contains_front (by omega), any_overlaps_front h.ne_nil hlt (by omega)⟩
  have hinside : openElements (commentsAt 0 (pre ++ (z ++ back)))
      (blocksAround before pre.size z close behind) (elementsAt pre.size z) = [] := by
    apply List.filterMap_eq_nil_iff.mpr
    intro e he
    obtain ⟨hge, hlt, hle⟩ := elementsAt_bounds he
    simp [any_overlaps_inside (hge.trans hlt.le) (hlt.trans_le hle)]
  rw [hall, h.elements rfl]
  unfold openElements at hfront hinside ⊢
  rw [List.filterMap_append, List.filterMap_append, hfront, hinside, List.nil_append,
    List.filterMap_map, List.map_filterMap]
  congr 1
  apply List.filterMap_congr
  intro e _
  have hcomments := h.any_contains_back e.2.start
  have hknown : (blocksAround before pre.size z close behind).any
      (·.overlaps (e.2.shift (pre.size + z.size))) = _ := any_overlaps_back h.before_le
  simp only [Function.comp_apply, shiftElement, Span.shift_start, hcomments, hknown]
  split <;> rfl

/-- The blocks in front of the content of a script, apart from those with content. -/
def emptyFront (keepEmpty : Bool) (pre close : Text) (before : List RawBlock) : List RawBlock :=
  if keepEmpty then
    openElements (commentsAt 0 pre) (before ++ [scriptAt pre.size [] close]) (elementsAt 0 pre)
  else []

/-- Those behind it, relative to the script's closing tag. -/
def emptyBack (keepEmpty : Bool) (back close : Text) (behind : List RawBlock) : List RawBlock :=
  if keepEmpty then
    openElements (commentsAt 0 back) (scriptAt 0 [] close :: behind) (elementsAt 0 back)
  else []

include h in
theorem rawBlocks_eq : rawBlocks keepEmpty (pre ++ (z ++ back)) =
      (blocksAround before pre.size z close behind ++ (emptyFront keepEmpty pre close before ++
        (emptyBack keepEmpty back close behind).map (·.shift (pre.size + z.size)))).mergeSort
        fun a b => a.content.start ≤ b.content.start := by
  cases keepEmpty with
  | true =>
    rw [rawBlocks, if_pos rfl, h.known, h.emptyBlocks_eq]
    rfl
  | false =>
    rw [rawBlocks, if_neg (by simp), h.known]
    simp [emptyFront, emptyBack]

theorem emptyFront_le : ∀ b ∈ emptyFront keepEmpty pre close before, b.close.stop ≤ pre.size := by
  intro b hb
  unfold emptyFront at hb
  split at hb
  next =>
    obtain ⟨e, he, hcond⟩ := List.mem_filterMap.mp hb
    obtain ⟨-, hsome⟩ := Option.ite_none_left_eq_some.mp hcond
    obtain rfl := Option.some.inj hsome
    have hfound := (emptyElements_found _ (At.zero pre)).1 e he
    have hle := (elementsAt_bounds he).2.2
    rw [hfound.stop_eq] at hle
    omega
  next => cases hb

include h in
theorem mem_rawBlocks_cases (hb : b ∈ rawBlocks keepEmpty (pre ++ (z ++ back))) :
    b.close.stop ≤ pre.size ∨ b = scriptAt pre.size z close ∨
      ∃ b₀ : RawBlock, b = b₀.shift (pre.size + z.size) := by
  rw [h.rawBlocks_eq, List.mem_mergeSort, blocksAround] at hb
  simp only [List.mem_append, List.mem_cons, List.mem_map] at hb
  rcases hb with (hb | rfl | ⟨b₀, -, rfl⟩) | hb | ⟨b₀, -, rfl⟩
  · exact .inl (h.before_le b hb)
  · exact .inr (.inl rfl)
  · exact .inr (.inr ⟨b₀, rfl⟩)
  · exact .inl (emptyFront_le b hb)
  · exact .inr (.inr ⟨b₀, rfl⟩)

theorem behind_of_mem (hb : b ∈ rawBlocks keepEmpty (pre ++ (z ++ back))) :
    b.Behind (pre ++ (z ++ back)) 0 := (rawBlocks_rising keepEmpty _).1 b hb

include h in
theorem outside_of_mem (hb : b ∈ rawBlocks keepEmpty (pre ++ (z ++ back))) :
    (b.content.start ≤ pre.size ∨ pre.size + z.size ≤ b.content.start) ∧
      (b.close.stop ≤ pre.size ∨ pre.size + z.size ≤ b.close.stop) := by
  have hle := (behind_of_mem hb).start_le
  obtain hfront | rfl | ⟨b₀, rfl⟩ := h.mem_rawBlocks_cases hb
  · omega
  · simp only [scriptAt]
    omega
  · simp only [RawBlock.shift, Span.shift]
    omega

theorem mapOffsets_front {source : Text} (hb : b.Behind source 0) (hle : b.close.stop ≤ pre.size) :
    b.mapOffsets (moved pre.size x.size y.size) = b := by
  have hstart := hb.le
  have hmeets := hb.meets
  have hclose := hb.close_le
  obtain ⟨tag, ⟨a, c⟩, d, e⟩ := b
  simp only at hstart hmeets hclose hle
  simp only [RawBlock.mapOffsets, Span.mapOffsets]
  rw [moved_of_le (by omega), moved_of_le (by omega), moved_of_le (by omega), moved_of_le hle]

theorem mapOffsets_scriptAt (hx : x ≠ []) :
    (scriptAt pre.size x close).mapOffsets (moved pre.size x.size y.size) =
      scriptAt pre.size y close := by
  have hpos := Text.size_pos hx
  have hmoved : ∀ o, moved pre.size x.size y.size (pre.size + x.size + o) = pre.size + y.size + o := by
    intro o
    rw [Nat.add_comm _ o, moved_add hpos, Nat.add_comm]
  have hstart := hmoved 0
  simp only [Nat.add_zero] at hstart
  simp only [scriptAt, RawBlock.mapOffsets, Span.mapOffsets, moved_of_le le_rfl, hstart, hmoved]

variable (hx : Around keepEmpty pre x back close before behind)
  (hy : Around keepEmpty pre y back close before behind)

include hx hy in
theorem rawBlocks_moved :
    rawBlocks keepEmpty (pre ++ (y ++ back)) = (rawBlocks keepEmpty (pre ++ (x ++ back))).map
      (·.mapOffsets (moved pre.size x.size y.size)) := by
  have hpos := Text.size_pos hx.ne_nil
  have hmono : StrictMonoOn (moved pre.size x.size y.size) _ :=
    strictMonoOn_moved (Text.size_pos hy.ne_nil)
  have hall : ∀ b ∈ rawBlocks keepEmpty (pre ++ (x ++ back)), b.Behind (pre ++ (x ++ back)) 0 :=
    fun b hb => behind_of_mem hb
  have hout := fun b hb => (hx.outside_of_mem (b := b) hb).1
  rw [hx.rawBlocks_eq] at hall hout ⊢
  simp only [List.mem_mergeSort] at hall hout
  have hsort := List.map_mergeSort
    (r := fun a b : RawBlock => decide (a.content.start ≤ b.content.start))
    (s := fun a b : RawBlock => decide (a.content.start ≤ b.content.start))
    (f := RawBlock.mapOffsets (moved pre.size x.size y.size)) fun a ha b hb =>
      decide_eq_decide.mpr (hmono.le_iff_le (hout a ha) (hout b hb)).symm
  -- Each part of the list goes to the same part of the other.
  have hshift : ∀ bs : List RawBlock, (bs.map (·.shift (pre.size + x.size))).map
      (·.mapOffsets (moved pre.size x.size y.size)) = bs.map (·.shift (pre.size + y.size)) := by
    intro bs
    rw [List.map_map]
    apply List.map_congr_left
    intro b _
    exact RawBlock.mapOffsets_shift (moved_add hpos) b
  have hstay : ∀ bs : List RawBlock, (∀ b ∈ bs, b.close.stop ≤ pre.size) →
      (∀ b ∈ bs, b.Behind (pre ++ (x ++ back)) 0) →
      bs.map (·.mapOffsets (moved pre.size x.size y.size)) = bs := by
    intro bs hle hbehind
    have hid : bs.map (·.mapOffsets (moved pre.size x.size y.size)) = bs.map id := by
      apply List.map_congr_left
      intro b hb
      exact mapOffsets_front (hbehind b hb) (hle b hb)
    rw [hid, List.map_id]
  have hbefore := hstay before hx.before_le fun b hb => hall b (by simp [blocksAround, hb])
  have hfront := hstay (emptyFront keepEmpty pre close before) emptyFront_le fun b hb =>
    hall b (by simp [hb])
  rw [hy.rawBlocks_eq]
  refine Eq.trans ?_ hsort.symm
  simp [blocksAround, hbefore, hfront, hshift, mapOffsets_scriptAt hx.ne_nil]

include h in
theorem any_outerComments_front {s : Span} (hs : s.stop ≤ pre.size) :
    (outerComments (pre ++ (z ++ back))).any (·.overlaps s) =
      (openComments before (commentsAt 0 pre)).any (·.overlaps s) := by
  have hback : ∀ comments : List Span,
      (comments.map (·.shift (pre.size + z.size))).any (·.overlaps s) = false := by
    intro comments
    simp only [List.any_map, List.any_eq_false, Function.comp_apply, overlaps_iff, Span.shift_start]
    omega
  rw [h.outerComments_eq, List.any_append, hback, Bool.or_false]

include h in
theorem any_outerComments_back (s : Span) :
    (outerComments (pre ++ (z ++ back))).any (·.overlaps (s.shift (pre.size + z.size))) =
      (openComments (scriptAt 0 [] close :: behind) (commentsAt 0 back)).any (·.overlaps s) := by
  have hfront : (openComments before (commentsAt 0 pre)).any
      (·.overlaps (s.shift (pre.size + z.size))) = false := by
    rw [List.any_eq_false]
    intro c hc
    have hle := (commentsAt_bounds (List.mem_filter.mp hc).1).2.2
    rw [overlaps_iff, Span.shift_start]
    omega
  have hshift : ∀ c : Span, (c.shift (pre.size + z.size)).overlaps (s.shift (pre.size + z.size)) =
      c.overlaps s := by
    intro c
    rw [Bool.eq_iff_iff, overlaps_iff, overlaps_iff]
    simp only [Span.shift_start, Span.shift_stop]
    omega
  rw [h.outerComments_eq, List.any_append, hfront, Bool.false_or, List.any_map]
  simp only [Function.comp_def, hshift]

theorem not_mem_tag {source : Text} (hb : b ∈ rawBlocks keepEmpty source) : '>' ∉ b.tag.toList := by
  intro hmem
  cases isNameChar_of_mem_tag hb _ hmem

include hx hy

theorem openTag?_front (hb : b ∈ rawBlocks keepEmpty (pre ++ (x ++ back)))
    (hle : b.content.start ≤ pre.size) {start : Nat}
    (hstart : Text.isBoundary start ([] ++ pre ++ (x ++ back)) = true)
    (hgap : start ≤ b.content.start) : let φ := moved pre.size x.size y.size
    openTag? (pre ++ (y ++ back)) ((b.mapOffsets φ).gap (φ start)) (b.mapOffsets φ)
        (outerComments (pre ++ (y ++ back))) =
      (openTag? (pre ++ (x ++ back)) (b.gap start) b (outerComments (pre ++ (x ++ back)))).map
        (·.mapOffsets φ) := by
  intro φ
  have hfix : ∀ o ≤ pre.size, φ o = o := fun o ho => moved_of_le ho
  have hcontent : (b.mapOffsets φ).content.start = b.content.start := hfix _ hle
  have hpre : pre.isBoundary start = true := by
    obtain ⟨u, v, rfl, hu⟩ := Text.exists_cut_of_isBoundary hstart (Nat.zero_le _)
      (by simpa using hgap.trans hle)
    exact Text.isBoundary_iff.mpr ⟨u, v, rfl, by simpa using hu⟩
  have hcomments : ∀ s : Span, s.stop ≤ pre.size →
      (outerComments (pre ++ (y ++ back))).any (·.overlaps s) =
        (outerComments (pre ++ (x ++ back))).any (·.overlaps s) := by
    intro s hs
    rw [hy.any_outerComments_front hs, hx.any_outerComments_front hs]
  have hgaps : (b.mapOffsets φ).gap (φ start) = b.gap start := by
    rw [RawBlock.gap, RawBlock.gap, hcontent, hfix start (hgap.trans hle)]
  have hsame : openTag? (pre ++ (y ++ back)) (b.gap start) (b.mapOffsets φ)
      (outerComments (pre ++ (y ++ back))) =
      openTag? (pre ++ (x ++ back)) (b.gap start) b (outerComments (pre ++ (x ++ back))) :=
    openTag?_congr hpre hle hle hcontent (not_mem_tag hb) hcomments
  rw [hgaps, hsame]
  cases htag : openTag? (pre ++ (x ++ back)) (b.gap start) b (outerComments (pre ++ (x ++ back))) with
  | none => rfl
  | some tag =>
    obtain ⟨s, o, -, rfl, -, -, -, -, hstop, -⟩ := exists_of_openTag? hstart htag
    have hsize : ∀ n ≤ o + s.text.size, φ n = n := fun n hn => hfix n (by omega)
    rw [Option.map_some, TagShape.mapOffsets_startTag hsize]

theorem openTag?_back (b : RawBlock) (start : Nat) : let φ := moved pre.size x.size y.size
    let b' := b.shift (pre.size + x.size)
    let start' := start + (pre.size + x.size)
    openTag? (pre ++ (y ++ back)) ((b'.mapOffsets φ).gap (φ start')) (b'.mapOffsets φ)
        (outerComments (pre ++ (y ++ back))) =
      (openTag? (pre ++ (x ++ back)) (b'.gap start') b' (outerComments (pre ++ (x ++ back)))).map
        (·.mapOffsets φ) := by
  intro φ b' start'
  have hφ : ∀ o, φ (o + (pre.size + x.size)) = o + (pre.size + y.size) :=
    moved_add (Text.size_pos hx.ne_nil)
  have hshift : ∀ {z : Text}, Around keepEmpty pre z back close before behind →
      openTag? (pre ++ (z ++ back)) ((b.gap start).shift (pre.size + z.size))
        (b.shift (pre.size + z.size)) (outerComments (pre ++ (z ++ back))) =
      (openTag? back (b.gap start) b
        (openComments (scriptAt 0 [] close :: behind) (commentsAt 0 back))).map
        (·.shift (pre.size + z.size)) := by
    intro z hz
    have hcomments := hz.any_outerComments_back
    rw [← Text.size_append] at hcomments ⊢
    rw [← List.append_assoc] at hcomments ⊢
    exact openTag?_shift hcomments
  have hblock : b'.mapOffsets φ = b.shift (pre.size + y.size) := RawBlock.mapOffsets_shift hφ b
  have hgap : (b.shift (pre.size + y.size)).gap (φ start') = (b.gap start).shift (pre.size + y.size) := by
    simp only [start', hφ]
    rfl
  have hgap' : b'.gap start' = (b.gap start).shift (pre.size + x.size) := rfl
  rw [hblock, hgap, hgap', hshift hy, hshift hx, Option.map_map]
  congr 1
  funext tag
  exact (StartTag.mapOffsets_shift hφ tag).symm

theorem resolved_moved (hb : b ∈ rawBlocks keepEmpty (pre ++ (x ++ back))) :
    let φ := moved pre.size x.size y.size
    resolved keepEmpty (pre ++ (y ++ back)) (b.mapOffsets φ) =
      (resolved keepEmpty (pre ++ (x ++ back)) b).mapOffsets φ := by
  intro φ
  have hmono : StrictMonoOn φ {o | o ≤ pre.size ∨ pre.size + x.size ≤ o} :=
    strictMonoOn_moved (Text.size_pos hy.ne_nil)
  have hreach : reach (rawBlocks keepEmpty (pre ++ (y ++ back))) (b.mapOffsets φ).content.start =
      φ (reach (rawBlocks keepEmpty (pre ++ (x ++ back))) b.content.start) := by
    rw [hx.rawBlocks_moved hy]
    exact (reach_mapOffsets hmono (.inl (Nat.zero_le _)) (moved_of_le (Nat.zero_le _))
      (fun r hr => hx.outside_of_mem hr) (hx.outside_of_mem hb).1).1
  unfold resolved
  rw [hreach]
  apply resolve_mapOffsets
  have hscript : scriptAt pre.size x close ∈ rawBlocks keepEmpty (pre ++ (x ++ back)) := by
    rw [mem_rawBlocks, hx.known]
    exact .inl (by simp [blocksAround])
  have hfront : b.content.start ≤ pre.size → _ := fun hle =>
    hx.openTag?_front hy hb hle (isBoundary_reach (rawBlocks_rising _ _).1 _) (reach_le_start hb)
  obtain hle | rfl | ⟨b₀, rfl⟩ := hx.mem_rawBlocks_cases hb
  · exact hfront ((behind_of_mem hb).start_le.trans hle)
  · exact hfront le_rfl
  · -- The block is looked for behind the script.
    have hge : pre.size + x.size ≤
        reach (rawBlocks keepEmpty (pre ++ (x ++ back))) (b₀.shift (pre.size + x.size)).content.start := by
      have hpos := Text.size_pos hx.ne_nil
      have hle := le_reach hscript
        (show pre.size < (b₀.shift (pre.size + x.size)).content.start by
          simp only [RawBlock.shift, Span.shift]
          omega)
      simp only [scriptAt] at hle
      omega
    obtain ⟨start, hstart⟩ := Nat.exists_eq_add_of_le' hge
    rw [hstart]
    exact hx.openTag?_back hy b₀ start

theorem parse_moved : (Document.parse keepEmpty (pre ++ (y ++ back))).1.blocks =
      (Document.parse keepEmpty (pre ++ (x ++ back))).1.blocks.map
        (·.mapOffsets (moved pre.size x.size y.size)) := by
  rw [parse_blocks_eq, parse_blocks_eq, hx.rawBlocks_moved hy, List.map_map, List.map_map]
  apply List.map_congr_left
  intro b hb
  exact hx.resolved_moved hy hb

end Around

end SfcTsx.Markup
