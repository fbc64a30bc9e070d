import SfcTsx.Proofs.LineIndex
import SfcTsx.Proofs.Vlq
import SfcTsx.SourceMap.V3

namespace SfcTsx

namespace Text

theorem join_cons (c : Char) (t : Text) (ts : List Text) :
    join [c] (t :: ts) = t ++ ts.flatMap (c :: ·) := by
  induction ts generalizing t with
  | nil => simp [join]
  | cons u ts ih =>
    have hjoin : join [c] (t :: u :: ts) = t ++ [c] ++ join [c] (u :: ts) := rfl
    rw [hjoin, ih u, List.flatMap_cons, List.append_assoc]
    rfl

end Text

namespace V3

/-- A segment as a reader gets it. -/
structure ReadSegment where
  line : Nat
  col : Int
  source : Int
  sourceLine : Int
  sourceCol : Int
deriving DecidableEq, Repr

structure Totals where
  col : Int := 0
  source : Int := 0
  sourceLine : Int := 0
  sourceCol : Int := 0
deriving DecidableEq, Repr

def Totals.add? (t : Totals) (text : Text) : Option Totals :=
  match Vlq.read? text with
  | some [col, source, sourceLine, sourceCol] =>
    some ⟨t.col + col, t.source + source, t.sourceLine + sourceLine, t.sourceCol + sourceCol⟩
  | _ => none

def readSegments (line : Nat) (t : Totals) : List Text → Option (List ReadSegment × Totals)
  | [] => some ([], t)
  | text :: texts => do
    let t ← t.add? text
    let (segments, t') ← readSegments line t texts
    return (⟨line, t.col, t.source, t.sourceLine, t.sourceCol⟩ :: segments, t')

def readLines (line : Nat) (t : Totals) : List Text → Option (List ReadSegment)
  | [] => some []
  | text :: texts => do
    let segments := if text.isEmpty then [] else text.splitOn ','
    let (here, t) ← readSegments line { t with col := 0 } segments
    let later ← readLines (line + 1) t texts
    return here ++ later

def decode? (mappings : Text) : Option (List ReadSegment) :=
  readLines 0 {} (mappings.splitOn ';')

def asRead (s : Segment) : ReadSegment :=
  ⟨s.generated.line, s.generated.col, 0, s.source.line, s.source.col⟩

/-- What the segment after `s` is written relative to. -/
def cursorAfter (s : Segment) : Cursor :=
  { line := s.generated.line, generatedCol := s.generated.col, sourceLine := s.source.line
    sourceCol := s.source.col, fresh := false }

/-- The texts of the segments by lines: those that are still to come in the line of the cursor, and
the later lines. -/
def rows (cursor : Cursor) : List Segment → List Text × List (List Text)
  | [] => ([], [])
  | s :: ss =>
    let (here, later) := rows (cursorAfter s) ss
    if cursor.line < s.generated.line then
      ([], List.replicate (s.generated.line - cursor.line - 1) [] ++
        (encodeSegment 0 cursor s :: here) :: later)
    else (encodeSegment cursor.generatedCol cursor s :: here, later)

theorem encodeFrom_eq (cursor : Cursor) (ss : List Segment) :
    encodeFrom cursor ss =
      (if cursor.fresh then Text.join [','] (rows cursor ss).1
        else (rows cursor ss).1.flatMap (',' :: ·)) ++
      ((rows cursor ss).2.map (Text.join [','])).flatMap (';' :: ·) := by
  induction ss generalizing cursor with
  | nil => cases cursor.fresh <;> rfl
  | cons s ss ih =>
    have hnext := ih (cursorAfter s)
    rw [show (cursorAfter s).fresh = false from rfl, if_neg Bool.false_ne_true] at hnext
    rw [encodeFrom, rows]
    simp only
    rw [show encodeFrom (Cursor.mk ..) ss = encodeFrom (cursorAfter s) ss from rfl, hnext]
    by_cases hlt : cursor.line < s.generated.line
    · rw [if_pos hlt, if_pos hlt]
      obtain ⟨k, hk⟩ : ∃ k, s.generated.line - cursor.line = k + 1 :=
        ⟨s.generated.line - cursor.line - 1, by omega⟩
      have hblank (k : Nat) : ((List.replicate k ([] : List Text)).map (Text.join [','])).flatMap
          (';' :: ·) = List.replicate k ';' := by
        induction k with
        | zero => rfl
        | succ k ih => rw [List.replicate_succ, List.map_cons, List.flatMap_cons, ih]; rfl
      simp only [hk, Nat.add_sub_cancel, List.map_append, List.flatMap_append, hblank,
        List.map_cons, List.flatMap_cons, Text.join_cons, List.replicate_succ']
      cases cursor.fresh <;> simp [Text.join]
    · rw [if_neg hlt, if_neg hlt]
      cases cursor.fresh <;> simp [Text.join_cons]

theorem encodeSegment_plain (col : Nat) (cursor : Cursor) (s : Segment) :
    encodeSegment col cursor s ≠ [] ∧ ',' ∉ encodeSegment col cursor s ∧
      ';' ∉ encodeSegment col cursor s := by
  have hchars : ∀ c ∈ encodeSegment col cursor s, c ∈ Vlq.alphabet := by
    intro c hc
    simp only [encodeSegment, List.mem_append] at hc
    rcases hc with ((hc | hc) | hc) | hc <;> exact Vlq.mem_encode hc
  refine ⟨by simp [encodeSegment, Vlq.encode_ne_nil], fun h => ?_, fun h => ?_⟩
  · exact absurd (hchars _ h) (by decide)
  · exact absurd (hchars _ h) (by decide)

theorem rows_plain (cursor : Cursor) (ss : List Segment) :
    ∀ row ∈ (rows cursor ss).1 :: (rows cursor ss).2, ∀ text ∈ row,
      text ≠ [] ∧ ',' ∉ text ∧ ';' ∉ text := by
  induction ss generalizing cursor with
  | nil => simp [rows]
  | cons s ss ih =>
    have hrest := ih (cursorAfter s)
    have hhere := hrest _ List.mem_cons_self
    have hlater := fun row hrow => hrest row (List.mem_cons_of_mem _ hrow)
    have hcons (col : Nat) : ∀ text ∈ encodeSegment col cursor s :: (rows (cursorAfter s) ss).1,
        text ≠ [] ∧ ',' ∉ text ∧ ';' ∉ text := by
      intro text htext
      rcases List.mem_cons.mp htext with rfl | htext
      · exact encodeSegment_plain col cursor s
      · exact hhere text htext
    intro row hrow
    rw [rows] at hrow
    simp only at hrow
    split at hrow
    next =>
      simp only [List.mem_cons, List.mem_append, List.mem_replicate] at hrow
      rcases hrow with rfl | ⟨-, rfl⟩ | rfl | hrow
      · simp
      · simp
      · exact hcons _
      · exact hlater row hrow
    next =>
      rcases List.mem_cons.mp hrow with rfl | hrow
      · exact hcons _
      · exact hlater row hrow

theorem splitOn_row {row : List Text} (h : ∀ text ∈ row, text ≠ [] ∧ ',' ∉ text ∧ ';' ∉ text) :
    (if (Text.join [','] row).isEmpty then [] else (Text.join [','] row).splitOn ',') = row := by
  cases row with
  | nil => rfl
  | cons text row =>
    have hfirst := h text List.mem_cons_self
    rw [Text.join_cons, if_neg (by simp [hfirst.1])]
    exact Text.splitOn_flatMap hfirst.2.1 fun u hu => (h u (List.mem_cons_of_mem _ hu)).2.1

theorem splitOn_encode (ss : List Segment) :
    (encode ss).splitOn ';' = ((rows {} ss).1 :: (rows {} ss).2).map (Text.join [',']) := by
  have hplain := rows_plain {} ss
  have hjoin : ∀ row ∈ (rows {} ss).1 :: (rows {} ss).2, ';' ∉ Text.join [','] row := by
    intro row hrow
    cases row with
    | nil => simp [Text.join]
    | cons text row =>
      have htexts := hplain _ hrow
      rw [Text.join_cons, List.mem_append, List.mem_flatMap]
      rintro (h | ⟨u, hu, h⟩)
      · exact (htexts text List.mem_cons_self).2.2 h
      · rcases List.mem_cons.mp h with h | h
        · cases h
        · exact (htexts u (List.mem_cons_of_mem _ hu)).2.2 h
  have hencode := encodeFrom_eq {} ss
  rw [if_pos rfl] at hencode
  rw [encode, hencode, List.map_cons]
  refine Text.splitOn_flatMap (hjoin _ List.mem_cons_self) ?_
  intro u hu
  obtain ⟨row, hrow, rfl⟩ := List.mem_map.mp hu
  exact hjoin row (List.mem_cons_of_mem _ hrow)

def totalsAt (cursor : Cursor) : Totals :=
  ⟨cursor.generatedCol, 0, cursor.sourceLine, cursor.sourceCol⟩

theorem add?_encodeSegment (cursor : Cursor) (col : Nat) (s : Segment) :
    { totalsAt cursor with col }.add? (encodeSegment col cursor s) =
      some (totalsAt (cursorAfter s)) := by
  have hread : Vlq.read? (encodeSegment col cursor s) =
      some [(s.generated.col : Int) - col, 0, (s.source.line : Int) - cursor.sourceLine,
        (s.source.col : Int) - cursor.sourceCol] := by
    have hend := Vlq.read?_encode ((s.source.col : Int) - cursor.sourceCol) []
    rw [List.append_nil] at hend
    simp only [encodeSegment, List.append_assoc, Vlq.read?_encode, hend]
    rfl
  rw [Totals.add?, hread]
  simp only [totalsAt, cursorAfter, Option.some.injEq, Totals.mk.injEq]
  refine ⟨?_, ?_, ?_, ?_⟩ <;> omega

theorem readLines_reset (line : Nat) (t : Totals) (col : Int) (texts : List Text) :
    readLines line { t with col } texts = readLines line t texts := by
  cases texts <;> rfl

theorem readLines_row {line : Nat} {t t' : Totals} {row texts : List Text}
    {here : List ReadSegment} (h : ∀ text ∈ row, text ≠ [] ∧ ',' ∉ text ∧ ';' ∉ text)
    (hread : readSegments line { t with col := 0 } row = some (here, t')) :
    readLines line t (Text.join [','] row :: texts) =
      (readLines (line + 1) t' texts).map (here ++ ·) := by
  rw [readLines, splitOn_row h, hread]
  cases hlater : readLines (line + 1) t' texts <;> simp [hlater]

theorem readLines_blank (line k : Nat) (t : Totals) (texts : List Text) :
    readLines line t (List.replicate k [] ++ texts) = readLines (line + k) t texts := by
  induction k generalizing line t with
  | zero => rfl
  | succ k ih =>
    have hrow : readLines line t (Text.join [','] [] :: (List.replicate k [] ++ texts)) =
        (readLines (line + 1) { t with col := 0 } (List.replicate k [] ++ texts)).map ([] ++ ·) :=
      readLines_row (by simp) rfl
    rw [List.replicate_succ, List.cons_append]
    refine hrow.trans ?_
    rw [readLines_reset, ih, Nat.add_right_comm, Nat.add_assoc]
    simp

/-- Each segment stands in the line that was reached or in a later one. -/
def Ascends : Nat → List Segment → Prop
  | _, [] => True
  | line, s :: ss => line ≤ s.generated.line ∧ Ascends s.generated.line ss

theorem readLines_rows (cursor : Cursor) (ss : List Segment) (h : Ascends cursor.line ss) :
    ∃ here t later,
      readSegments cursor.line (totalsAt cursor) (rows cursor ss).1 = some (here, t) ∧
      readLines (cursor.line + 1) t ((rows cursor ss).2.map (Text.join [','])) = some later ∧
      here ++ later = ss.map asRead := by
  induction ss generalizing cursor with
  | nil => exact ⟨[], _, [], rfl, rfl, rfl⟩
  | cons s ss ih =>
    obtain ⟨hle, hss⟩ := h
    obtain ⟨here, t, later, hhere, hlater, hall⟩ := ih (cursorAfter s) hss
    -- the segment itself, wherever the generated column is counted from
    have hread (col : Nat) : readSegments s.generated.line { totalsAt cursor with col }
        (encodeSegment col cursor s :: (rows (cursorAfter s) ss).1) = some (asRead s :: here, t) := by
      have hhere' : readSegments s.generated.line (totalsAt (cursorAfter s))
        (rows (cursorAfter s) ss).1 = some (here, t) := hhere
      simp only [readSegments, add?_encodeSegment, Option.bind_eq_bind, Option.bind_some, hhere']
      rfl
    rw [rows]
    simp only
    by_cases hlt : cursor.line < s.generated.line
    · rw [if_pos hlt]
      refine ⟨[], totalsAt cursor, asRead s :: here ++ later, rfl, ?_, ?_⟩
      · have hline : cursor.line + 1 + (s.generated.line - cursor.line - 1) = s.generated.line := by
          omega
        have hrow : ∀ text ∈ encodeSegment 0 cursor s :: (rows (cursorAfter s) ss).1,
            text ≠ [] ∧ ',' ∉ text ∧ ';' ∉ text := by
          intro text htext
          rcases List.mem_cons.mp htext with rfl | htext
          · exact encodeSegment_plain 0 cursor s
          · exact rows_plain (cursorAfter s) ss _ List.mem_cons_self text htext
        have hblank : Text.join [','] ([] : List Text) = [] := rfl
        have hlater' : readLines (s.generated.line + 1) t
          ((rows (cursorAfter s) ss).2.map (Text.join [','])) = some later := hlater
        rw [List.map_append, List.map_replicate, hblank, readLines_blank, hline, List.map_cons,
          readLines_row hrow (hread 0), hlater']
        rfl
      · rw [List.nil_append, List.cons_append, hall, List.map_cons]
    · rw [if_neg hlt]
      have hline : s.generated.line = cursor.line := by omega
      have hsame := hread cursor.generatedCol
      rw [hline] at hsame
      have hlater' : readLines (s.generated.line + 1) t
        ((rows (cursorAfter s) ss).2.map (Text.join [','])) = some later := hlater
      rw [hline] at hlater'
      exact ⟨asRead s :: here, t, later, hsame, hlater', by rw [List.cons_append, hall, List.map_cons]⟩

theorem decode?_encode {ss : List Segment} (h : Ascends 0 ss) :
    decode? (encode ss) = some (ss.map asRead) := by
  obtain ⟨here, t, later, hhere, hlater, hall⟩ := readLines_rows {} ss h
  rw [decode?, splitOn_encode, List.map_cons,
    readLines_row (rows_plain {} ss _ List.mem_cons_self) hhere, hlater, ← hall]
  rfl

theorem before_iff {p q : LineCol} :
    before p q = true ↔ p.line < q.line ∨ p.line = q.line ∧ p.col < q.col := by
  simp [before]

theorem before_trans {p q r : LineCol} (h : before p q = true) (h' : before q r = true) :
    before p r = true := by
  rw [before_iff] at *
  omega

theorem increasing_sublist (last : Option LineCol) (ss : List Segment) :
    (increasing last ss).Sublist ss := by
  induction ss generalizing last with
  | nil => exact .slnil
  | cons s ss ih =>
    unfold increasing
    split
    · split
      · exact (ih _).cons_cons s
      · exact (ih _).cons s
    · exact (ih _).cons_cons s

theorem increasing_pairwise (last : Option LineCol) (ss : List Segment) :
    (∀ p, last = some p → ∀ s ∈ increasing last ss, before p s.generated = true) ∧
      (increasing last ss).Pairwise fun s t => before s.generated t.generated = true := by
  induction ss generalizing last with
  | nil => exact ⟨by simp [increasing], .nil⟩
  | cons s ss ih =>
    have hkept := ih (some s.generated)
    have hbehind : ∀ t ∈ increasing (some s.generated) ss, before s.generated t.generated = true :=
      hkept.1 _ rfl
    cases last with
    | none =>
      refine ⟨by simp, ?_⟩
      rw [increasing]
      exact List.pairwise_cons.mpr ⟨hbehind, hkept.2⟩
    | some p =>
      rw [increasing]
      by_cases hp : before p s.generated = true
      · simp only [if_pos hp]
        refine ⟨?_, List.pairwise_cons.mpr ⟨hbehind, hkept.2⟩⟩
        intro q hq t ht
        obtain rfl := Option.some.inj hq
        rcases List.mem_cons.mp ht with rfl | ht
        · exact hp
        · exact before_trans hp (hbehind t ht)
      · simp only [if_neg hp]
        exact ih (some p)

theorem mem_increasing {last : Option LineCol} {l r : List Segment} {s : Segment}
    (hlast : ∀ p, last = some p → before p s.generated = true)
    (hl : ∀ t ∈ l, before t.generated s.generated = true) :
    s ∈ increasing last (l ++ s :: r) := by
  induction l generalizing last with
  | nil =>
    cases last with
    | none => exact List.mem_cons_self
    | some p =>
      have hp := hlast p rfl
      simp only [List.nil_append, increasing, if_pos hp, List.mem_cons_self]
  | cons t l ih =>
    have ht := hl t List.mem_cons_self
    have hl' : ∀ u ∈ l, before u.generated s.generated = true :=
      fun u hu => hl u (List.mem_cons_of_mem _ hu)
    have hnext : s ∈ increasing (some t.generated) (l ++ s :: r) :=
      ih (fun q hq => Option.some.inj hq ▸ ht) hl'
    cases last with
    | none => exact List.mem_cons_of_mem _ hnext
    | some p =>
      rw [List.cons_append, increasing]
      split
      · exact List.mem_cons_of_mem _ hnext
      · exact ih hlast hl'

theorem ascends_of_pairwise {line : Nat} {ss : List Segment}
    (hfrom : ∀ s ∈ ss, line ≤ s.generated.line)
    (h : ss.Pairwise fun s t => before s.generated t.generated = true) : Ascends line ss := by
  induction ss generalizing line with
  | nil => trivial
  | cons s ss ih =>
    obtain ⟨hs, hss⟩ := List.pairwise_cons.mp h
    refine ⟨hfrom s List.mem_cons_self, ih (fun t ht => ?_) hss⟩
    have := before_iff.mp (hs t ht)
    omega

def lookups (map : SourceMap) (generated : Text) (hires : Bool) : List (Nat × Nat) :=
  map.mappings.toList.flatMap (offsetPairs hires generated)

/-- The segment of two offsets, both counted through the texts. -/
def walked? (source generated : Text) (pair : Nat × Nat) : Option Segment :=
  match generated.position? pair.1, source.position? pair.2 with
  | some g, some s => some ⟨g, s⟩
  | _, _ => none

def Fits (t : Text) (offset : Nat) : Prop := t.isBoundary offset = true ∨ t.size < offset

theorem segments_eq {map : SourceMap} {source generated : Text} {hires : Bool}
    (h : ∀ pair ∈ lookups map generated hires, Fits generated pair.1 ∧ Fits source pair.2) :
    segments map source generated hires =
      (lookups map generated hires).filterMap (walked? source generated) := by
  refine List.filterMap_congr fun pair hpair => ?_
  obtain ⟨hg, hs⟩ := h pair hpair
  rw [segment?, LineIndex.lineColUtf16_ofText hg, LineIndex.lineColUtf16_ofText hs]
  rfl

end V3

open V3 in
/-- A reader of a written map gets, for the offsets that the map relates, their positions as a walk
through the texts counts them: those that stand in the generated text behind all the ones before
them, in order. -/
theorem SourceMap.decode?_toV3 (map : SourceMap) (source generated : Text) (o : V3.Options)
    (h : ∀ pair ∈ lookups map generated o.hires, Fits generated pair.1 ∧ Fits source pair.2) :
    let passed := (lookups map generated o.hires).filterMap (walked? source generated)
    let kept := increasing none passed
    decode? (map.toV3 source generated o).mappings = some (kept.map asRead) ∧
      kept.Sublist passed ∧
      (kept.Pairwise fun s t => before s.generated t.generated = true) ∧
      ∀ l s r, passed = l ++ s :: r → (∀ t ∈ l, before t.generated s.generated = true) →
        s ∈ kept := by
  intro passed kept
  have hpairs := (increasing_pairwise none passed).2
  refine ⟨?_, increasing_sublist none passed, hpairs, ?_⟩
  · have hsegments := segments_eq h
    rw [toV3, hsegments]
    exact decode?_encode (ascends_of_pairwise (fun _ _ => Nat.zero_le _) hpairs)
  · intro l s r hpassed hl
    rw [show kept = increasing none (l ++ s :: r) by rw [← hpassed]]
    exact mem_increasing (by simp) hl

/-- A map between texts with wide characters and lines, a position for every character. -/
theorem SourceMap.decode?_toV3_hires :
    let source : Text := ['é', 'a', '\n', '😀', 'b']
    let generated : Text := ['+', '+', 'é', 'a', '\n', '😀', 'b']
    let map := (((({} : Builder).addGenerated ['+', '+']).addSource 0 source)).build
    (∀ pair ∈ V3.lookups map generated true, V3.Fits generated pair.1 ∧ V3.Fits source pair.2) ∧
      V3.decode? (map.toV3 source generated { hires := true }).mappings =
        some [⟨0, 2, 0, 0, 0⟩, ⟨0, 3, 0, 0, 1⟩, ⟨1, 0, 0, 1, 0⟩, ⟨1, 2, 0, 1, 2⟩] := by
  intro source generated map
  have hfits : ∀ pair ∈ V3.lookups map generated true,
      V3.Fits generated pair.1 ∧ V3.Fits source pair.2 := by
    unfold V3.Fits
    decide +kernel
  exact ⟨hfits, (decode?_toV3 map source generated { hires := true } hfits).1⟩

end SfcTsx
