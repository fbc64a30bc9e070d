import SfcTsx.Proofs.EditBuffer.Provenance
import SfcTsx.Proofs.SourceMap.Decode

namespace SfcTsx

variable {hires : Bool} {n : Nat}

/-- The offsets inside a copied text that get a position of their own. -/
def V3.copiedOffsets (hires : Bool) : Text → List Nat
  | [] => []
  | c :: cs => V3.innerOffsets hires c c.utf8Size cs

namespace V3

theorem innerOffsets_boundary {previous : Char} {before rest : Text}
    (h : n ∈ innerOffsets hires previous before.size rest) :
    (before ++ rest).isBoundary n = true := by
  induction rest generalizing previous before with
  | nil => cases h
  | cons c rest ih =>
    have hstep : (before ++ [c]).size = before.size + c.utf8Size := by simp
    have hrest (hn : n ∈ innerOffsets hires c (before.size + c.utf8Size) rest) :
        (before ++ c :: rest).isBoundary n = true := by
      rw [← hstep] at hn
      simpa using ih hn
    rw [innerOffsets] at h
    split at h
    · rcases List.mem_cons.mp h with rfl | h
      · exact Text.isBoundary_iff.mpr ⟨before, c :: rest, rfl, rfl⟩
      · exact hrest h
    · exact hrest h

theorem copiedOffsets_boundary {t : Text}
    (h : n ∈ copiedOffsets hires t) : t.isBoundary n = true := by
  cases t with
  | nil => cases h
  | cons c cs =>
    have hinner : n ∈ innerOffsets hires c (Text.size [c]) cs := by simpa [copiedOffsets] using h
    exact innerOffsets_boundary hinner

theorem map_snd_offsetPairs (hires : Bool) (generated : Text) (m : Mapping) :
    (offsetPairs hires generated m).map Prod.snd = m.source.start ::
      if m.isVerbatim then
        (copiedOffsets hires (m.generated.text generated)).map (m.source.start + ·)
      else [] := by
  unfold offsetPairs
  rw [List.map_cons]
  split
  · cases m.generated.text generated with
    | nil => rfl
    | cons c cs => simp [copiedOffsets, Function.comp_def]
  · rfl

end V3

namespace EditBuffer

def mappingsFrom (offset : Nat) : List Piece → List Mapping
  | [] => []
  | p :: ps =>
    let start := offset + p.intro.size
    (if p.shown = [] then [] else [⟨⟨start, start + p.shown.size⟩, p.span⟩]) ++
      mappingsFrom (offset + p.render.size) ps

theorem mapPiece_eq (builder : SourceMap.Builder) (p : Piece) :
    (mapPiece builder p).mappings.toList =
        builder.mappings.toList ++ mappingsFrom builder.offset [p] ∧
      (mapPiece builder p).offset = builder.offset + p.render.size := by
  have hshown : mapPiece builder p =
      ((builder.addGenerated p.intro).addMapping p.span p.shown.size).addGenerated p.outro := by
    unfold mapPiece Piece.shown
    cases p.replacement <;> rfl
  rw [hshown]
  refine ⟨?_, ?_⟩
  · simp only [SourceMap.Builder.addGenerated, SourceMap.Builder.addMapping, mappingsFrom,
      Text.size_eq_zero]
    split <;> simp
  · simp only [SourceMap.Builder.addGenerated, SourceMap.Builder.addMapping, Piece.render,
      Text.size_append]
    omega

theorem foldl_mapPiece (builder : SourceMap.Builder) (ps : List Piece) :
    (ps.foldl mapPiece builder).mappings.toList =
      builder.mappings.toList ++ mappingsFrom builder.offset ps := by
  induction ps generalizing builder with
  | nil => simp [mappingsFrom]
  | cons p ps ih =>
    obtain ⟨hmappings, hoffset⟩ := mapPiece_eq builder p
    rw [List.foldl_cons, ih, hmappings, hoffset]
    simp [mappingsFrom]

theorem valid_builder (b : EditBuffer) :
    (b.output.foldl mapPiece (SourceMap.Builder.addGenerated {} b.intro)).Valid :=
  ((follows_empty.addGenerated b.intro).foldl b.output).valid

theorem sourceMap_mappings (b : EditBuffer) :
    b.sourceMap.mappings.toList = mappingsFrom b.intro.size b.output := by
  have h := foldl_mapPiece (SourceMap.Builder.addGenerated {} b.intro) b.output
  have hoffset : (SourceMap.Builder.addGenerated {} b.intro).offset = b.intro.size := Nat.zero_add _
  rw [hoffset] at h
  exact (congrArg Array.toList (b.valid_builder.addGenerated b.outro).build_mappings).trans h

def sourceLookups (hires : Bool) (p : Piece) : List Nat :=
  if p.shown = [] then []
  else p.start ::
    if p.shown.size = p.source.size then (V3.copiedOffsets hires p.shown).map (p.start + ·) else []

theorem flatMap_mappingsFrom {text : Text} {offset : Nat} {ps : List Piece}
    {rest : Text} (h : text.At offset (ps.flatMap Piece.render ++ rest)) :
    ((mappingsFrom offset ps).flatMap (V3.offsetPairs hires text)).map Prod.snd =
      ps.flatMap (sourceLookups hires) := by
  induction ps generalizing offset with
  | nil => rfl
  | cons p ps ih =>
    rw [List.flatMap_cons, List.append_assoc] at h
    have hshown : text.At (offset + p.intro.size)
        (p.shown ++ (p.outro ++ (ps.flatMap Piece.render ++ rest))) := by
      refine Text.At.skip (s := p.intro) ?_
      simpa only [Piece.render, List.append_assoc] using h
    rw [mappingsFrom, List.flatMap_append, List.map_append, List.flatMap_cons, ih h.skip,
      sourceLookups]
    congr 1
    split
    next => rfl
    next hne =>
      have htext : (Mapping.mk ⟨offset + p.intro.size, offset + p.intro.size + p.shown.size⟩
          p.span).generated.text text = p.shown := hshown.slice
      have hlen : (Mapping.mk ⟨offset + p.intro.size, offset + p.intro.size + p.shown.size⟩
          p.span).isVerbatim = decide (p.shown.size = p.source.size) := by
        simp only [Mapping.isVerbatim, Span.len, Piece.span, Piece.stop, Nat.add_sub_cancel_left]
        rfl
      rw [List.flatMap_singleton, V3.map_snd_offsetPairs, htext, hlen]
      by_cases hsize : p.shown.size = p.source.size
      · simp [hsize, Piece.span]
      · simp [hsize, Piece.span]

theorem map_snd_lookups (b : EditBuffer) (hires : Bool) :
    (V3.lookups b.sourceMap b.render hires).map Prod.snd =
      b.output.flatMap (sourceLookups hires) := by
  rw [V3.lookups, sourceMap_mappings]
  have hrender : b.render.At b.intro.size (b.output.flatMap Piece.render ++ b.outro) :=
    ⟨b.intro, by rw [render, List.append_assoc], rfl⟩
  exact flatMap_mappingsFrom hrender

/-- Where the piece shows a replacement of the length of its range, the offsets in it that get a
position of their own are boundaries of the range too. -/
def Aligned (hires : Bool) (p : Piece) : Prop :=
  ∀ text, p.replacement = some text → text.size = p.source.size →
    ∀ n ∈ V3.copiedOffsets hires text, p.source.isBoundary n = true

section
variable {b : EditBuffer} (h : b.Laid) {p : Piece} (hp : p ∈ b.pieces)
include h hp

theorem Laid.isBoundary_add (hn : n ≤ p.source.size) :
    b.source.isBoundary (p.start + n) = p.source.isBoundary n := by
  obtain ⟨pre, post, hsource, hpre⟩ := h.placed hp
  rw [hsource, ← hpre, List.append_assoc, Text.isBoundary, Text.drop?_add,
    Text.drop?_append_left _ hn, Option.isSome_map, Text.isBoundary]

theorem Laid.sourceLookups_boundary_iff (hires : Bool) :
    (∀ n ∈ sourceLookups hires p, b.source.isBoundary n = true) ↔ Aligned hires p := by
  have hstart : b.source.isBoundary p.start = true := by
    obtain ⟨pre, post, hsource, hpre⟩ := h.placed hp
    exact Text.isBoundary_iff.mpr ⟨pre, p.source ++ post, by simpa using hsource, hpre⟩
  -- an offset inside a text of the length of the piece is not past the end of the piece
  have hle {t : Text} {n : Nat} (hsize : t.size = p.source.size)
      (hn : n ∈ V3.copiedOffsets hires t) : n ≤ p.source.size :=
    hsize ▸ Text.le_size_of_isBoundary (V3.copiedOffsets_boundary hn)
  constructor
  · intro hall text hr hsize n hn
    have hshown : p.shown = text := by rw [Piece.shown, hr]; rfl
    have hne : p.shown ≠ [] := by
      rw [hshown]
      rintro rfl
      cases hn
    rw [← h.isBoundary_add hp (hle hsize hn)]
    apply hall
    rw [sourceLookups, if_neg hne, hshown, if_pos hsize]
    exact List.mem_cons_of_mem _ (List.mem_map_of_mem hn)
  · intro halign n hn
    rw [sourceLookups] at hn
    split at hn
    · cases hn
    · rcases List.mem_cons.mp hn with rfl | hn
      · exact hstart
      · split at hn
        next hsize =>
          obtain ⟨m, hm, rfl⟩ := List.mem_map.mp hn
          rw [h.isBoundary_add hp (hle hsize hm)]
          cases hr : p.replacement with
          | some text =>
            have hshown : p.shown = text := by rw [Piece.shown, hr]; rfl
            rw [hshown] at hsize hm
            exact halign text hr hsize m hm
          | none =>
            have hshown : p.shown = p.source := by rw [Piece.shown, hr]; rfl
            rw [hshown] at hm
            exact V3.copiedOffsets_boundary hm
        next => cases hn

end

/-- Whatever was edited, the offsets of the source that are looked up for the map lie between two of
its characters exactly if every replacement that is shown and taken for a copy is in step with the
characters it replaces; and then no surplus is more than the column it is taken from. -/
theorem lookups_boundary_iff_aligned (source : Text) (os : List Operation) (hires : Bool) :
    let b := (ofText source).afterAll os
    let looked := V3.lookups b.sourceMap b.render hires
    let index := LineIndex.ofText source
    ((∀ pair ∈ looked, source.isBoundary pair.2 = true) ↔ ∀ p ∈ b.output, Aligned hires p) ∧
      ((∀ p ∈ b.output, Aligned hires p) → ∀ pair ∈ looked, ∃ position,
        index.lineCol pair.2 = some position ∧
          index.shrink position.line pair.2 ≤ position.col) := by
  intro b looked index
  have hsound := ofText_sound source
  have hlaid : b.Laid := (hsound.afterAll os).laid
  have hsource : b.source = source := hsound.source_afterAll os
  have hiff : (∀ pair ∈ looked, source.isBoundary pair.2 = true) ↔
      ∀ p ∈ b.output, Aligned hires p := by
    have hlooked : (∀ n ∈ looked.map Prod.snd, source.isBoundary n = true) ↔
        ∀ pair ∈ looked, source.isBoundary pair.2 = true := List.forall_mem_map
    have hpieces : looked.map Prod.snd = b.output.flatMap (sourceLookups hires) :=
      map_snd_lookups b hires
    rw [← hlooked, hpieces, ← hsource]
    constructor
    · intro hall p hp
      refine (hlaid.sourceLookups_boundary_iff (mem_of_mem_output hp) hires).mp fun n hn => ?_
      exact hall n (List.mem_flatMap.mpr ⟨p, hp, hn⟩)
    · intro hall n hn
      obtain ⟨p, hp, hn⟩ := List.mem_flatMap.mp hn
      exact (hlaid.sourceLookups_boundary_iff (mem_of_mem_output hp) hires).mpr (hall p hp) n hn
  refine ⟨hiff, fun halign pair hpair => ?_⟩
  obtain ⟨before, after, hcut, hsize⟩ := Text.isBoundary_iff.mp (hiff.mpr halign pair hpair)
  obtain ⟨position, hposition, hshrink, -⟩ := LineIndex.ofText_at before after
  rw [← hcut, hsize] at hposition hshrink
  exact ⟨position, hposition, hshrink⟩

/-- Characters in place of others of the same widths. -/
theorem lookups_boundary_iff_aligned_accents :
    let b := (ofText ['é', 'b', '€']).afterAll [.overwrite 0 3 ['è', 'c'], .insertLeft 3 ['+']]
    b.render = ['è', 'c', '+', '€'] ∧ ∀ pair ∈ V3.lookups b.sourceMap b.render true,
      Text.isBoundary pair.2 ['é', 'b', '€'] = true := by
  intro b
  have hout : b.output.map (fun p => (p.source, p.replacement)) =
      [(['é', 'b'], some ['è', 'c']), (['€'], none)] := by decide +kernel
  have haligned : ∀ p ∈ b.output, Aligned true p := by
    intro p hp text hr hsize n hn
    have hmem := List.mem_map_of_mem (f := fun p : Piece => (p.source, p.replacement)) hp
    rw [hout] at hmem
    simp only [hr, List.mem_cons, Prod.mk.injEq, Option.some.injEq, reduceCtorEq, and_false,
      List.not_mem_nil, or_false] at hmem
    obtain ⟨hsource, rfl⟩ := hmem
    rw [hsource]
    exact (by decide +kernel : ∀ n ∈ V3.copiedOffsets true ['è', 'c'],
      Text.isBoundary n ['é', 'b'] = true) n hn
  exact ⟨by decide +kernel, (lookups_boundary_iff_aligned ['é', 'b', '€'] _ true).1.mpr haligned⟩

/-- Two letters in place of one character of two bytes: the second letter is looked up inside the
character. With three letters in place of one of three bytes the surplus is more than the column. -/
theorem replaced_char_lookup : let b := (ofText ['é']).after (.overwrite 0 2 ['x', 'y'])
    let b' := (ofText ['€']).after (.overwrite 0 3 ['x', 'y', 'z'])
    ((1, 1) ∈ V3.lookups b.sourceMap b.render true ∧ Text.isBoundary 1 ['é'] = false) ∧
      (1, 1) ∈ V3.lookups b'.sourceMap b'.render true ∧ Text.isBoundary 1 ['€'] = false ∧
      (LineIndex.ofText ['€']).lineCol 1 = some ⟨0, 1⟩ ∧
      1 < (LineIndex.ofText ['€']).shrink 0 1 := by
  decide +kernel

end EditBuffer
end SfcTsx
