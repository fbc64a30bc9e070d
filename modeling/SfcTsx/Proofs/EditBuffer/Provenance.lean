import SfcTsx.Proofs.SourceMap
import SfcTsx.Proofs.EditBuffer.Links

namespace SfcTsx

/-- Where a byte of the output comes from. -/
inductive Origin where
  | inserted
  | written (offset : Nat)
  | replacing (range : Span)
deriving DecidableEq, Repr

/-- What a lookup may answer for a byte: nothing for an insertion, its own offset for a byte of the
source, an offset of the range for a byte that replaces one. -/
def Origin.Allows : Origin → Option Nat → Prop
  | .inserted, answer => answer = none
  | .written offset, answer => answer = some offset
  | .replacing range, answer => ∃ o, answer = some o ∧ range.start ≤ o ∧ o ≤ range.stop

def Origin.label (origin : Origin) (text : Text) : List (UInt8 × Origin) :=
  text.bytes.map (·, origin)

def Piece.tracedShown (p : Piece) : List (UInt8 × Origin) :=
  match p.replacement with
  | some text => (Origin.replacing p.span).label text
  | none => (p.source.bytes.zipIdx p.start).map fun x => (x.1, .written x.2)

def Piece.traced (p : Piece) : List (UInt8 × Origin) :=
  Origin.inserted.label p.intro ++ p.tracedShown ++ Origin.inserted.label p.outro

namespace EditBuffer

def traced (b : EditBuffer) : List (UInt8 × Origin) :=
  Origin.inserted.label b.intro ++ b.output.flatMap Piece.traced ++ Origin.inserted.label b.outro

@[simp] theorem map_fst_label (origin : Origin) (text : Text) :
    (origin.label text).map Prod.fst = text.bytes := by
  simp [Origin.label, Function.comp_def]

theorem map_fst_pieceTraced (p : Piece) : p.traced.map Prod.fst = p.render.bytes := by
  have hshown : p.tracedShown.map Prod.fst = p.shown.bytes := by
    unfold Piece.tracedShown Piece.shown
    cases p.replacement with
    | some text => simp
    | none => simp [Function.comp_def]
  simp [Piece.traced, Piece.render, hshown]

theorem map_fst_traced (b : EditBuffer) : b.traced.map Prod.fst = b.render.bytes := by
  have hout (ps : List Piece) : (ps.flatMap Piece.traced).map Prod.fst =
      Text.bytes (ps.flatMap Piece.render) := by
    induction ps with
    | nil => rfl
    | cons p ps ih =>
      rw [List.flatMap_cons, List.map_append, map_fst_pieceTraced, ih, List.flatMap_cons,
        Text.bytes_append]
  simp [traced, render, hout]

theorem Laid.getElem?_of_written {b : EditBuffer} (h : b.Laid) {byte : UInt8} {o : Nat}
    (hin : (byte, Origin.written o) ∈ b.traced) : b.source.bytes[o]? = some byte := by
  have hlabel (text : Text) : (byte, Origin.written o) ∉ Origin.inserted.label text := by
    simp [Origin.label]
  simp only [traced, List.mem_append, hlabel, or_false, false_or, List.mem_flatMap, Piece.traced]
    at hin
  obtain ⟨p, hp, hin⟩ := hin
  unfold Piece.tracedShown at hin
  cases hr : p.replacement with
  | some text => simp [hr, Origin.label] at hin
  | none =>
    simp only [hr, List.mem_map] at hin
    obtain ⟨⟨x, i⟩, hx, heq⟩ := hin
    obtain ⟨rfl, ho⟩ := Prod.mk.inj heq
    obtain rfl := Origin.written.inj ho
    obtain ⟨hle, hget⟩ := List.mk_mem_zipIdx_iff_le_and_getElem?_sub.mp hx
    obtain ⟨pre, post, hsrc, hpre⟩ := h.placed (mem_of_mem_output hp)
    have hlt := (List.getElem?_eq_some_iff.mp hget).1
    rw [hsrc, Text.bytes_append, Text.bytes_append,
      List.getElem?_append_left (by simp only [List.length_append, Text.length_bytes] at hlt ⊢; omega),
      List.getElem?_append_right (by rw [Text.length_bytes]; omega), Text.length_bytes, hpre, hget]

/-- A builder has come to the end of a traced text and answers for all of it. -/
structure Follows (builder : SourceMap.Builder) (ts : List (UInt8 × Origin)) : Prop where
  valid : builder.Valid
  offset : builder.offset = ts.length
  allows : ∀ g byte (origin : Origin), ts[g]? = some (byte, origin) →
    origin.Allows (builder.build.sourcePosition? g)

theorem follows_empty : Follows {} [] := ⟨SourceMap.Builder.valid_empty, rfl, by simp⟩

section
variable {builder : SourceMap.Builder} {ts : List (UInt8 × Origin)} (h : Follows builder ts)
include h

theorem Follows.addGenerated (text : Text) :
    Follows (builder.addGenerated text) (ts ++ Origin.inserted.label text) := by
  refine ⟨h.valid.addGenerated text, ?_, ?_⟩
  · simp [SourceMap.Builder.addGenerated, Origin.label, h.offset]
  · intro g byte origin hg
    have hsame : (builder.addGenerated text).build = builder.build := rfl
    rw [hsame]
    by_cases hlt : g < ts.length
    · rw [List.getElem?_append_left hlt] at hg
      exact h.allows g byte origin hg
    · rw [List.getElem?_append_right (by omega), Origin.label, List.getElem?_map,
        Option.map_eq_some_iff] at hg
      obtain ⟨_, -, heq⟩ := hg
      rw [← (Prod.mk.inj heq).2]
      exact h.valid.sourcePosition?_of_le (by rw [h.offset]; omega)

theorem Follows.addMapping (source : Span) (us : List (UInt8 × Origin))
    (hus : ∀ k byte (origin : Origin), us[k]? = some (byte, origin) →
      origin.Allows (some (source.start + min k source.len))) :
    Follows (builder.addMapping source us.length) (ts ++ us) := by
  refine ⟨h.valid.addMapping source us.length, ?_, ?_⟩
  · simp [SourceMap.Builder.addMapping, h.offset]
  · intro g byte origin hg
    have hbound : g < (ts ++ us).length := (List.getElem?_eq_some_iff.mp hg).1
    rw [List.length_append, ← h.offset] at hbound
    rw [h.valid.sourcePosition?_addMapping source hbound, h.offset]
    by_cases hlt : g < ts.length
    · rw [List.getElem?_append_left hlt] at hg
      rw [if_pos hlt]
      exact h.allows g byte origin hg
    · rw [List.getElem?_append_right (by omega)] at hg
      rw [if_neg hlt]
      exact hus _ byte origin hg

theorem Follows.shown (p : Piece) : Follows (match p.replacement with
    | some text => builder.addMapping p.span text.size
    | none => builder.addSource p.start p.source) (ts ++ p.tracedShown) := by
  unfold Piece.tracedShown
  cases p.replacement with
  | some text =>
    have hfollow := h.addMapping p.span ((Origin.replacing p.span).label text) (by
      intro k byte origin hk
      rw [Origin.label, List.getElem?_map, Option.map_eq_some_iff] at hk
      obtain ⟨_, -, heq⟩ := hk
      rw [← (Prod.mk.inj heq).2]
      refine ⟨_, rfl, Nat.le_add_right _ _, ?_⟩
      simp only [Piece.span, Piece.stop, Span.len]
      omega)
    rw [Origin.label, List.length_map, Text.length_bytes] at hfollow
    exact hfollow
  | none =>
    have hfollow := h.addMapping ⟨p.start, p.start + p.source.size⟩
      ((p.source.bytes.zipIdx p.start).map fun x => (x.1, Origin.written x.2)) (by
        intro k byte origin hk
        have hlt := (List.getElem?_eq_some_iff.mp hk).1
        simp only [List.length_map, List.length_zipIdx, Text.length_bytes] at hlt
        rw [List.getElem?_map, Option.map_eq_some_iff] at hk
        obtain ⟨x, hx, heq⟩ := hk
        rw [List.getElem?_zipIdx, Option.map_eq_some_iff] at hx
        obtain ⟨_, -, rfl⟩ := hx
        rw [← (Prod.mk.inj heq).2]
        simp only [Origin.Allows, Span.len, Option.some.injEq]
        omega)
    rw [List.length_map, List.length_zipIdx, Text.length_bytes] at hfollow
    exact hfollow

theorem Follows.mapPiece (p : Piece) : Follows (EditBuffer.mapPiece builder p) (ts ++ p.traced) := by
  have hall := ((h.addGenerated p.intro).shown p).addGenerated p.outro
  rw [List.append_assoc, List.append_assoc, ← List.append_assoc _ p.tracedShown] at hall
  exact hall

end

theorem Follows.foldl {builder : SourceMap.Builder} {ts : List (UInt8 × Origin)}
    (h : Follows builder ts) (ps : List Piece) :
    Follows (ps.foldl EditBuffer.mapPiece builder) (ts ++ ps.flatMap Piece.traced) := by
  induction ps generalizing builder ts with
  | nil => simpa using h
  | cons p ps ih =>
    rw [List.foldl_cons, List.flatMap_cons, ← List.append_assoc]
    exact ih (h.mapPiece p)

theorem allows_traced (b : EditBuffer) {g : Nat} {byte : UInt8} {origin : Origin}
    (hg : b.traced[g]? = some (byte, origin)) :
    origin.Allows (b.sourceMap.sourcePosition? g) := by
  have hintro := follows_empty.addGenerated b.intro
  exact ((hintro.foldl b.output).addGenerated b.outro).allows g byte origin hg

/-- Whatever was edited, each byte of the text has an origin, and the map answers what it allows; a
byte that comes from the source stands in it at the offset of the answer, wherever it was moved. -/
theorem traced_origin_allows (source : Text) (os : List Operation) :
    let b := (ofText source).afterAll os
    b.traced.map Prod.fst = b.render.bytes ∧
      ∀ g byte (origin : Origin), b.traced[g]? = some (byte, origin) →
        origin.Allows (b.sourceMap.sourcePosition? g) ∧
          ∀ o, origin = .written o → source.bytes[o]? = some byte := by
  intro b
  refine ⟨map_fst_traced b, ?_⟩
  intro g byte origin hg
  refine ⟨allows_traced b hg, ?_⟩
  rintro o rfl
  have hs := ofText_sound source
  have hsource : b.source = source := hs.source_afterAll os
  rw [← hsource]
  exact (hs.afterAll os).laid.getElem?_of_written (List.mem_of_getElem? hg)

/-- A moved byte, a byte of a replacement longer than its range, and an insertion. -/
theorem traced_origin_allows_moved :
    let source : Text := ['a', 'b', 'c', 'd', 'e', 'f']
    let b := (ofText source).afterAll
      [.moveRange 0 2 6, .overwrite 3 5 ['X', 'Y', 'Z'], .insertLeft 1 ['+']]
    b.render = ['c', 'X', 'Y', 'Z', 'f', 'a', '+', 'b'] ∧
      (b.traced[7]? = some (98, .written 1) ∧ b.sourceMap.sourcePosition? 7 = some 1 ∧
        source.bytes[1]? = some 98) ∧
      (b.traced[3]? = some (90, .replacing ⟨3, 5⟩) ∧
        ∃ o, b.sourceMap.sourcePosition? 3 = some o ∧ 3 ≤ o ∧ o ≤ 5) ∧
      b.traced[6]? = some (43, .inserted) ∧ b.sourceMap.sourcePosition? 6 = none := by
  intro source b
  have hall := (traced_origin_allows source
    [.moveRange 0 2 6, .overwrite 3 5 ['X', 'Y', 'Z'], .insertLeft 1 ['+']]).2
  have hmoved : b.traced[7]? = some (98, .written 1) := by decide +kernel
  have hreplaced : b.traced[3]? = some (90, .replacing ⟨3, 5⟩) := by decide +kernel
  have hinserted : b.traced[6]? = some (43, .inserted) := by decide +kernel
  exact ⟨by decide +kernel, ⟨hmoved, (hall 7 _ _ hmoved).1, (hall 7 _ _ hmoved).2 1 rfl⟩,
    ⟨hreplaced, (hall 3 _ _ hreplaced).1⟩, hinserted, (hall 6 _ _ hinserted).1⟩

end EditBuffer
end SfcTsx
