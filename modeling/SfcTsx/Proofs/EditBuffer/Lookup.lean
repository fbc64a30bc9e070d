import SfcTsx.Proofs.EditBuffer.Verbatim
import SfcTsx.Proofs.SourceMap.Scan

namespace SfcTsx

theorem Text.At.getElem?_bytes {source s u : Text} {a k : Nat} (h : source.At a (s ++ u))
    (hk : k < s.size) : source.bytes[a + k]? = s.bytes[k]? := by
  obtain ⟨front, rfl, rfl⟩ := h
  rw [bytes_append, bytes_append, ← length_bytes front, List.getElem?_append_right (by omega),
    Nat.add_sub_cancel_left, List.getElem?_append_left (by rwa [length_bytes])]

namespace EditBuffer

/-- The text of a piece itself begins at an offset of the output. -/
def ShowsAt (b : EditBuffer) (p : Piece) (g : Nat) : Prop :=
  ∃ qs rs, b.output = qs ++ p :: rs ∧
    g = b.intro.size + Text.size (qs.flatMap Piece.render) + p.intro.size

theorem mem_mappingsFrom {m : Mapping} {offset : Nat} {ps : List Piece} :
    m ∈ mappingsFrom offset ps ↔ ∃ qs p rs, ps = qs ++ p :: rs ∧ p.shown ≠ [] ∧
      let g := offset + Text.size (qs.flatMap Piece.render) + p.intro.size
      m = ⟨⟨g, g + p.shown.size⟩, p.span⟩ := by
  induction ps generalizing offset with
  | nil => simp [mappingsFrom]
  | cons q ps ih =>
    rw [mappingsFrom, List.mem_append, ih]
    constructor
    · rintro (hm | ⟨qs, p, rs, rfl, hp, rfl⟩)
      · split at hm
        next => cases hm
        next hq => exact ⟨[], q, ps, rfl, hq, by simpa using hm⟩
      · exact ⟨q :: qs, p, rs, rfl, hp, by simp [Nat.add_assoc]⟩
    · rintro ⟨qs, p, rs, hps, hp, rfl⟩
      cases qs with
      | nil =>
        obtain ⟨rfl, rfl⟩ := List.cons.inj hps
        exact .inl (by simp [hp])
      | cons _ qs =>
        obtain ⟨rfl, rfl⟩ := List.cons.inj hps
        exact .inr ⟨qs, p, rs, rfl, hp, by simp [Nat.add_assoc]⟩

section
variable {b : EditBuffer} {p : Piece} {g o : Nat}

theorem mem_mappings {m : Mapping} : m ∈ b.sourceMap.mappings ↔
    ∃ p g, b.ShowsAt p g ∧ p.shown ≠ [] ∧ m = ⟨⟨g, g + p.shown.size⟩, p.span⟩ := by
  rw [← Array.mem_toList_iff, sourceMap_mappings, mem_mappingsFrom]
  constructor
  · rintro ⟨qs, p, rs, hout, hp, hm⟩
    exact ⟨p, _, ⟨qs, rs, hout, rfl⟩, hp, hm⟩
  · rintro ⟨p, _, ⟨qs, rs, hout, rfl⟩, hp, hm⟩
    exact ⟨qs, p, rs, hout, hp, hm⟩

theorem sourceMap_ordered (b : EditBuffer) : SourceMap.Ordered b.sourceMap.mappings :=
  (b.valid_builder.addGenerated b.outro).build_ordered

theorem ShowsAt.mem (hs : b.ShowsAt p g) : p ∈ b.pieces := by
  obtain ⟨qs, rs, hout, -⟩ := hs
  exact mem_of_mem_output (hout ▸ by simp)

theorem ShowsAt.at (hs : b.ShowsAt p g) : ∃ rest, b.render.At g (p.shown ++ rest) := by
  obtain ⟨qs, rs, hout, rfl⟩ := hs
  exact ⟨p.outro ++ rs.flatMap Piece.render ++ b.outro,
    b.intro ++ qs.flatMap Piece.render ++ p.intro, by simp [render, hout, Piece.render],
    by simp [Nat.add_assoc]⟩

theorem Laid.generatedPosition?_eq (h : b.Laid) (hp : p ∈ b.output) (hshown : p.shown = p.source)
    (hlo : p.start ≤ o) (hhi : o < p.stop) : ∃ g, b.ShowsAt p g ∧
      b.sourceMap.generatedPosition? o = some (g + (o - p.start)) ∧
      b.sourceMap.sourcePosition? (g + (o - p.start)) = some o := by
  have hstop : p.stop = p.start + p.source.size := rfl
  have ho : p.span.contains o = true := by simp [Span.contains, Piece.span, hlo, hhi]
  obtain ⟨qs, rs, hout⟩ := List.append_of_mem hp
  have hne : p.shown ≠ [] := by
    intro h0
    rw [← hshown, h0, Text.size_nil] at hstop
    omega
  have hsome : (b.sourceMap.mappings.find? (·.source.contains o)).isSome :=
    Array.find?_isSome.mpr ⟨_, mem_mappings.mpr ⟨p, _, ⟨qs, rs, hout, rfl⟩, hne, rfl⟩, ho⟩
  obtain ⟨m, hm⟩ := Option.isSome_iff_exists.mp hsome
  -- the mapping that is found need not be the one above, but it is one of the same piece
  have hmem := Array.mem_of_find?_eq_some hm
  have hholds := Array.find?_some hm
  obtain ⟨q, g, hs, -, hq⟩ := mem_mappings.mp hmem
  obtain rfl : q = p := by
    by_contra hdiff
    have hapart := (h.apart hs.mem (mem_of_mem_output hp) hdiff).1
    have hqo : q.start ≤ o ∧ o < q.stop := by simpa [hq, Span.contains, Piece.span] using hholds
    omega
  refine ⟨g, hs, ?_, ?_⟩
  · rw [SourceMap.generatedPosition?, hm, Option.map_some, hq]
    simp only [Mapping.generatedOf, Piece.span, Span.len, hshown]
    congr 1
    omega
  · refine (SourceMap.sourcePosition?_eq_some_iff (sourceMap_ordered b)).mpr ⟨m, hmem, ?_, ?_⟩
    · simp only [hq, Span.contains, Bool.and_eq_true, decide_eq_true_eq, hshown]
      omega
    · simp only [hq, Mapping.sourceOf, Piece.span, Piece.stop, Span.len]
      omega

theorem Laid.nearestSourcePosition?_le (h : b.Laid)
    (ho : b.sourceMap.nearestSourcePosition? g = some o) : o ≤ b.source.size := by
  rw [(sourceMap_ordered b).nearestSourcePosition?_eq] at ho
  obtain ⟨m, hm, hcases⟩ := SourceMap.of_nearestScanned? ho
  obtain ⟨p, g', hs, -, rfl⟩ := mem_mappings.mp (Array.mem_toList_iff.mp hm)
  have hle := h.stop_le hs.mem
  simp only [Mapping.sourceOf, Piece.span, Piece.stop, Span.len] at hcases hle
  omega

/-- The byte at an offset of the text is shown for the end of the source, behind as many bytes as the
source has there: it belongs to a replacement that is longer than what it replaces. -/
def Overhangs (b : EditBuffer) (g : Nat) : Prop :=
  ∃ p start, b.ShowsAt p start ∧ p.stop = b.source.size ∧ start + p.source.size ≤ g ∧
    g < start + p.shown.size

theorem Laid.sourcePosition?_eq_size_iff (h : b.Laid) :
    b.sourceMap.sourcePosition? g = some b.source.size ↔ b.Overhangs g := by
  rw [SourceMap.sourcePosition?_eq_some_iff (sourceMap_ordered b)]
  constructor
  · rintro ⟨_, hm, hin, ho⟩
    obtain ⟨p, start, hs, -, rfl⟩ := mem_mappings.mp hm
    have hle := h.stop_le hs.mem
    simp only [Span.contains, Bool.and_eq_true, decide_eq_true_eq] at hin
    simp only [Mapping.sourceOf, Piece.span, Piece.stop, Span.len] at ho hle
    exact ⟨p, start, hs, by simp only [Piece.stop]; omega, by omega, hin.2⟩
  · rintro ⟨p, start, hs, hstop, hge, hlt⟩
    have hne : p.shown ≠ [] := by
      intro h0
      rw [h0, Text.size_nil] at hlt
      omega
    refine ⟨_, mem_mappings.mpr ⟨p, start, hs, hne, rfl⟩, ?_, ?_⟩
    · simp only [Span.contains, Bool.and_eq_true, decide_eq_true_eq]
      omega
    · simp only [Mapping.sourceOf, Piece.span, Span.len]
      simp only [Piece.stop] at hstop ⊢
      omega

end

/-- Whatever was edited, an offset of the source in a piece that the output holds and that shows its
source leads to an offset of the text that leads back, and both have the same byte. -/
theorem generatedPosition?_inverse (source : Text) (os : List Operation) :
    let b := (ofText source).afterAll os
    ∀ p ∈ b.output, p.shown = p.source → ∀ o, p.start ≤ o → o < p.stop → ∃ g byte,
      b.sourceMap.generatedPosition? o = some g ∧ b.sourceMap.sourcePosition? g = some o ∧
        b.render.bytes[g]? = some byte ∧ source.bytes[o]? = some byte := by
  intro b p hp hshown o hlo hhi
  have hlaid : b.Laid := ((ofText_sound source).afterAll os).laid
  have hsource : b.source = source := (ofText_sound source).source_afterAll os
  obtain ⟨g, hs, hgenerated, hback⟩ := hlaid.generatedPosition?_eq hp hshown hlo hhi
  have hk : o - p.start < p.source.size := by simp only [Piece.stop] at hhi; omega
  obtain ⟨rest, hat⟩ := hs.at
  obtain ⟨front, post, hcut, hfront⟩ := hlaid.placed hs.mem
  have hat' : source.At p.start (p.source ++ post) := ⟨front, by rw [← hsource, hcut]; simp, hfront⟩
  have hbyte := hat'.getElem?_bytes hk
  rw [show p.start + (o - p.start) = o by omega] at hbyte
  rw [hshown] at hat
  have hget := List.getElem?_eq_getElem (show o - p.start < p.source.bytes.length by simpa using hk)
  exact ⟨_, _, hgenerated, hback, (hat.getElem?_bytes hk).trans hget, hbyte.trans hget⟩

/-- A byte that was moved behind a replacement and an insertion. -/
theorem generatedPosition?_inverse_moved :
    let source : Text := ['a', 'b', 'c', 'd', 'e', 'f']
    let b := (ofText source).afterAll
      [.moveRange 0 2 6, .overwrite 3 5 ['X', 'Y', 'Z'], .insertLeft 1 ['+']]
    b.render = ['c', 'X', 'Y', 'Z', 'f', 'a', '+', 'b'] ∧
      (∃ p ∈ b.output, p.shown = p.source ∧ p.start ≤ 1 ∧ 1 < p.stop) ∧
      b.sourceMap.generatedPosition? 1 = some 7 ∧ b.sourceMap.sourcePosition? 7 = some 1 ∧
      b.render.bytes[7]? = source.bytes[1]? := by
  intro source b
  have hpiece : ∃ p ∈ b.output, p.shown = p.source ∧ p.start ≤ 1 ∧ 1 < p.stop := by decide +kernel
  have hfound : b.sourceMap.generatedPosition? 1 = some 7 := by decide +kernel
  obtain ⟨p, hp, hshown, hlo, hhi⟩ := hpiece
  obtain ⟨g, byte, hg, hback, htext, hsource⟩ :=
    generatedPosition?_inverse source _ p hp hshown 1 hlo hhi
  obtain rfl : g = 7 := Option.some.inj (hg.symm.trans hfound)
  exact ⟨by decide +kernel, ⟨p, hp, hshown, hlo, hhi⟩, hg, hback, htext.trans hsource.symm⟩

/-- A span of the text leads to a span of the source whose end is not before its start and at most one past
the source. It is past the source exactly if the last byte of the span stands in a replacement for the end
of the source, behind as many bytes as are replaced. -/
theorem sourceSpan?_within_iff (source : Text) (os : List Operation) {start stop : Nat}
    (hle : start ≤ stop) {span : Span} :
    let b := (ofText source).afterAll os
    b.sourceMap.sourceSpan? ⟨start, stop⟩ = some span →
      span.start ≤ span.stop ∧ span.stop ≤ source.size + 1 ∧
      (span.stop ≤ source.size ↔ ¬ (start < stop ∧ b.Overhangs (stop - 1))) := by
  intro b hspan
  have hlaid : b.Laid := ((ofText_sound source).afterAll os).laid
  have hsource : b.source = source := (ofText_sound source).source_afterAll os
  have hend := hlaid.sourcePosition?_eq_size_iff (g := stop - 1)
  rw [hsource] at hend
  obtain ⟨first, hfirst, rfl⟩ := Option.map_eq_some_iff.mp hspan
  have hfirst := hlaid.nearestSourcePosition?_le hfirst
  rw [hsource] at hfirst
  split
  next hempty =>
    have heq : start = stop := by simpa [Span.isEmpty] using hempty
    simp [Span.empty, heq, hfirst, Nat.le_succ_of_le hfirst]
  next hempty =>
    have hlt : start < stop := by
      have : start ≠ stop := by simpa [Span.isEmpty] using hempty
      omega
    simp only [hlt, true_and, ← hend, Nat.le_max_right]
    cases hlast : b.sourceMap.sourcePosition? (stop - 1) with
    | some o =>
      have hnear : b.sourceMap.nearestSourcePosition? (stop - 1) = some o := by
        rw [SourceMap.nearestSourcePosition?, hlast]
      have ho : o ≤ source.size := hsource ▸ hlaid.nearestSourcePosition?_le hnear
      simp only [Option.some.injEq]
      omega
    | none =>
      have hstop : (b.sourceMap.nearestSourcePosition? stop).getD first ≤ source.size := by
        cases hnear : b.sourceMap.nearestSourcePosition? stop with
        | none => exact hfirst
        | some o => exact hsource ▸ hlaid.nearestSourcePosition?_le hnear
      simp only [reduceCtorEq, not_false_eq_true, iff_true]
      omega

/-- A span that ends in the middle of a replacement for the end of the source, behind one byte of it. -/
theorem sourceSpan?_within_iff_middle :
    let b := (ofText ['a', 'b', 'c', 'd']).afterAll [.overwrite 2 4 ['X', 'Y', 'Z']]
    b.sourceMap.sourceSpan? ⟨1, 4⟩ = some ⟨1, 4⟩ ∧ ¬ b.Overhangs 3 := by
  intro b
  have hspan : b.sourceMap.sourceSpan? ⟨1, 4⟩ = some ⟨1, 4⟩ := by decide +kernel
  have hwithin := (sourceSpan?_within_iff ['a', 'b', 'c', 'd'] [.overwrite 2 4 ['X', 'Y', 'Z']]
    (by decide) hspan).2.2.mp (by decide)
  exact ⟨hspan, fun hover => hwithin ⟨by decide, hover⟩⟩

/-- Three bytes for the two of the source: their span ends past the source. -/
theorem replaced_end_span :
    let b := (ofText ['a', 'b']).after (.overwrite 0 2 ['X', 'Y', 'Z'])
    b.render = ['X', 'Y', 'Z'] ∧ b.sourceMap.sourceSpan? ⟨0, 3⟩ = some ⟨0, 3⟩ ∧
      Text.size ['a', 'b'] < 3 := by
  decide +kernel

end EditBuffer
end SfcTsx
