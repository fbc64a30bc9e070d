import SfcTsx.Proofs.EditBuffer.Links

namespace SfcTsx

variable {start stop : Nat}

/-- A change of what pieces show. -/
inductive Stroke where
  /-- What is stuck to the text before an offset. -/
  | left (offset : Nat) (f : Text → Text)
  /-- What is stuck to the text after an offset. -/
  | right (offset : Nat) (f : Text → Text)
  /-- A text in place of a range, with or without what is stuck to the edges of its first piece. -/
  | range (start stop : Nat) (text : Text) (keepEdges : Bool)

namespace Stroke

def footprint : Stroke → Span
  | .left n _ => ⟨n, n⟩
  | .right n _ => ⟨n, n⟩
  | .range start stop _ _ => ⟨start, stop⟩

def Proper : Stroke → Prop
  | .range start stop _ _ => start < stop
  | _ => True

/-- What is stuck to the edges of the range is dropped, if the stroke is on one. -/
def Drops : Stroke → Prop
  | .range _ _ _ keepEdges => keepEdges = false
  | _ => True

def Touches : Stroke → Piece → Prop
  | .left n _, p => p.stop = n
  | .right n _, p => p.start = n
  | .range start stop _ _, p => start ≤ p.start ∧ p.start < stop

instance (k : Stroke) (p : Piece) : Decidable (k.Touches p) := by
  cases k <;> unfold Touches <;> infer_instance

def change : Stroke → Piece → Piece
  | .left _ f, p => { p with outro := f p.outro }
  | .right _ f, p => { p with intro := f p.intro }
  | .range start _ text keepEdges, p =>
    if p.start = start then EditBuffer.showing text keepEdges p else p.blank

def paint (k : Stroke) (p : Piece) : Piece := if k.Touches p then k.change p else p

def paintIntro : Stroke → Text → Text
  | .left 0 f, t => f t
  | _, t => t

/-- The end of the output, of a source of a given size. -/
def paintOutro (size : Nat) : Stroke → Text → Text
  | .right n f, t => if n = size then f t else t
  | _, t => t

theorem paintIntro_left (n : Nat) (f : Text → Text) (t : Text) :
    (left n f).paintIntro t = if n = 0 then f t else t := by
  cases n <;> rfl

variable {k : Stroke} {p : Piece}

theorem paint_of_touches (h : k.Touches p) : k.paint p = k.change p := if_pos h

theorem paint_of_not_touches (h : ¬ k.Touches p) : k.paint p = p := if_neg h

theorem paint_keeps (k : Stroke) (p : Piece) : (k.paint p).start = p.start ∧
    (k.paint p).source = p.source ∧ (k.paint p).prev = p.prev ∧ (k.paint p).next = p.next := by
  unfold paint
  split
  · cases k with
    | left n f => exact ⟨rfl, rfl, rfl, rfl⟩
    | right n f => exact ⟨rfl, rfl, rfl, rfl⟩
    | range start stop text keepEdges =>
      simp only [change]
      split
      · exact EditBuffer.showing_keeps text keepEdges p
      · exact EditBuffer.blank_keeps p
  · exact ⟨rfl, rfl, rfl, rfl⟩

theorem stop_paint : (k.paint p).stop = p.stop := by
  rw [Piece.stop, (k.paint_keeps p).1, (k.paint_keeps p).2.1, Piece.stop]

end Stroke

def Operation.stroke? : Operation → Option Stroke
  | .insertLeft n text => some (.left n (· ++ text))
  | .prependLeft n text => some (.left n (text ++ ·))
  | .insertRight n text => some (.right n (· ++ text))
  | .prependRight n text => some (.right n (text ++ ·))
  | .remove start stop => some (.range start stop [] false)
  | .overwrite start stop text => some (.range start stop text false)
  | .update start stop text => some (.range start stop text true)
  | _ => none

namespace EditBuffer

/-- The buffer with what a stroke makes of its pieces and of the ends of the output. -/
def stroke (b : EditBuffer) (k : Stroke) : EditBuffer :=
  { b with
    pieces := b.pieces.map k.paint
    intro := k.paintIntro b.intro
    outro := k.paintOutro b.source.size b.outro }

theorem painted_stroke (b : EditBuffer) (k : Stroke) : Painted k.paint b (b.stroke k) :=
  ⟨rfl, rfl, rfl, rfl, k.paint_keeps⟩

theorem blankRange_eq (b : EditBuffer) (start stop : Nat) :
    b.blankRange start stop = b.stroke (.range start stop [] false) := by
  have hpieces : (b.pieces.map fun p => if start ≤ p.start && p.start < stop then p.blank else p) =
      b.pieces.map (Stroke.range start stop [] false).paint := by
    refine List.map_congr_left fun p _ => ?_
    by_cases hin : start ≤ p.start ∧ p.start < stop
    · have htouch : (Stroke.range start stop [] false).Touches p := hin
      rw [if_pos (by simpa using hin), Stroke.paint_of_touches htouch, Stroke.change]
      split <;> rfl
    · have htouch : ¬ (Stroke.range start stop [] false).Touches p := hin
      rw [if_neg (by simpa using hin), Stroke.paint_of_not_touches htouch]
  rw [blankRange, stroke, hpieces]
  rfl

section
variable {b : EditBuffer} (h : b.Laid) {n : Nat} (hn : b.IsEdge n) (hne : b.source ≠ [])
include h hn hne

theorem Laid.editLeft_eq (f : Text → Text) : b.editLeft n f = b.stroke (.left n f) := by
  unfold editLeft stroke
  rw [Stroke.paintIntro_left]
  cases hat : b.endingAt? n with
  | some p =>
    obtain ⟨hp, rfl⟩ := h.endingAt?_eq_some.mp hat
    have hpos := Text.size_pos (h.source_ne_nil hne hp)
    have hzero : p.stop ≠ 0 := by
      simp only [Piece.stop]
      omega
    have hsame : ∀ q ∈ b.pieces, (q.start = p.start ↔ q.stop = p.stop) := fun q hq =>
      ⟨fun he => by rw [h.eq_of_start hq hp he], fun he => by rw [h.eq_of_stop hq hp he]⟩
    simp only [modifyPiece, if_neg hzero]
    congr 1
    exact List.map_congr_left fun q hq => by simp only [hsame q hq]; rfl
  | none =>
    have hend : ∀ p ∈ b.pieces, p.stop ≠ n := fun p hp he => by
      simp [h.endingAt?_eq_some.mpr ⟨hp, he⟩] at hat
    obtain rfl := h.edge_eq_zero hn hend
    rw [List.map_congr_left fun p hp => Stroke.paint_of_not_touches (k := .left 0 f) (hend p hp),
      List.map_id', if_pos rfl]
    rfl

theorem Laid.editRight_eq (f : Text → Text) : b.editRight n f = b.stroke (.right n f) := by
  unfold editRight stroke
  cases hat : b.startingAt? n with
  | some p =>
    obtain ⟨hp, rfl⟩ := h.startingAt?_eq_some.mp hat
    have hpos := Text.size_pos (h.source_ne_nil hne hp)
    have hsize : p.start ≠ b.source.size := by
      have := h.stop_le hp
      simp only [Piece.stop] at this
      omega
    rw [show (Stroke.right p.start f).paintOutro b.source.size b.outro = b.outro from if_neg hsize]
    rfl
  | none =>
    have hstart : ∀ p ∈ b.pieces, p.start ≠ n := fun p hp he => by
      simp [h.startingAt?_eq_some.mpr ⟨hp, he⟩] at hat
    obtain rfl := h.edge_eq_size hn hstart
    rw [List.map_congr_left fun p hp =>
      Stroke.paint_of_not_touches (k := .right b.source.size f) (hstart p hp), List.map_id',
      show (Stroke.right _ f).paintOutro b.source.size b.outro = f b.outro from if_pos rfl]
    rfl

end

section
variable {b : EditBuffer} (h : b.Laid)
include h

theorem Laid.within_eq_cons {p : Piece} {ps : List Piece} (hs : b.IsEdge start)
    (ht : b.IsEdge stop) (hlt : start < stop) (hw : b.within start stop = p :: ps) :
    p ∈ b.pieces ∧ p.start = start ∧
      ∀ s, s ∈ ps.map Piece.start ↔ b.Has s ∧ start < s ∧ s < stop := by
  have hmem (q : Piece) : q ∈ p :: ps ↔ q ∈ b.pieces ∧ start ≤ q.start ∧ q.start < stop := by
    rw [← hw, within, List.mem_filter]
    simp
  have hsorted : (p :: ps).Pairwise fun p q => p.start < q.start := by
    rw [← hw]
    exact h.sorted.filter _
  obtain ⟨hp, hge, -⟩ := (hmem p).mp (by simp)
  have hfirst : p.start = start := by
    have hle := h.edge_le ht
    have hhas : ∃ r ∈ b.pieces, r.start = start := by
      by_contra hnone
      have := h.edge_eq_size hs fun r hr he => hnone ⟨r, hr, he⟩
      omega
    obtain ⟨r, hr, hrs⟩ := hhas
    rcases List.mem_cons.mp ((hmem r).mpr ⟨hr, by omega, by omega⟩) with rfl | hrps
    · exact hrs
    · have := List.rel_of_pairwise_cons hsorted hrps
      omega
  refine ⟨hp, hfirst, ?_⟩
  intro s
  constructor
  · intro hsm
    obtain ⟨q, hq, rfl⟩ := List.mem_map.mp hsm
    obtain ⟨hqb, -, hqt⟩ := (hmem q).mp (by simp [hq])
    have := List.rel_of_pairwise_cons hsorted hq
    exact ⟨⟨q, hqb, rfl⟩, by omega, hqt⟩
  · rintro ⟨⟨q, hq, rfl⟩, h1, h2⟩
    rcases List.mem_cons.mp ((hmem q).mpr ⟨hq, by omega, h2⟩) with rfl | hqps
    · omega
    · exact List.mem_map_of_mem hqps

theorem Laid.showing_eq {p : Piece} {ps : List Piece} (hs : b.IsEdge start)
    (ht : b.IsEdge stop) (hlt : start < stop) (hw : b.within start stop = p :: ps) (text : Text)
    (keepEdges : Bool) :
    (b.blankAt (ps.map Piece.start)).modifyPiece p.start (showing text keepEdges) =
      b.stroke (.range start stop text keepEdges) := by
  obtain ⟨-, rfl, hmem⟩ := h.within_eq_cons hs ht hlt hw
  have hpieces : ((b.blankAt (ps.map Piece.start)).modifyPiece p.start (showing text keepEdges)).pieces =
      b.pieces.map (Stroke.range p.start stop text keepEdges).paint := by
    simp only [modifyPiece, blankAt, List.map_map]
    refine List.map_congr_left fun q hq => ?_
    have htouch : (Stroke.range p.start stop text keepEdges).Touches q ↔
        p.start ≤ q.start ∧ q.start < stop := Iff.rfl
    have hlater : q.start ∈ ps.map Piece.start ↔ p.start < q.start ∧ q.start < stop := by
      rw [hmem]
      exact and_iff_right ⟨q, hq, rfl⟩
    simp only [Function.comp, Stroke.paint, htouch, hlater, Stroke.change]
    by_cases heq : q.start = p.start
    · have hfirst : p.start ≤ q.start ∧ q.start < stop := by omega
      have hnot : ¬ (p.start < q.start ∧ q.start < stop) := by omega
      rw [if_neg hnot, if_pos heq, if_pos hfirst, if_pos heq]
    · by_cases hin : p.start < q.start ∧ q.start < stop
      · rw [if_pos hin, if_neg (show ¬ q.blank.start = p.start from heq),
          if_pos ⟨Nat.le_of_lt hin.1, hin.2⟩, if_neg heq]
      · have hout : ¬ (p.start ≤ q.start ∧ q.start < stop) := by omega
        rw [if_neg hin, if_neg heq, if_neg hout]
  rw [stroke, ← hpieces]
  rfl

end

/-- How a call with a stroke goes. -/
inductive Stroked (b : EditBuffer) (o : Operation) (k : Stroke) : Prop where
  | refused (e : EditError) (b' : EditBuffer) (run : o.run b = .error e b') (cuts : Cuts b b')
  | idle (n : Nat) (eq : o = .remove n n) (run : o.run b = .ok () b)
  | made (b₁ : EditBuffer) (r : EditRecord) (cuts : Cuts b b₁) (laid : b₁.Laid)
      (start : b₁.IsEdge k.footprint.start) (stop : b₁.IsEdge k.footprint.stop) (proper : k.Proper)
      (run : o.run b = .ok () ((b₁.stroke k).logged r))
  | broken (b₁ b' : EditBuffer) (e : EditError) (start stop : Nat) (p : Piece) (ps : List Piece)
      (cuts : Cuts b b₁) (laid : b₁.Laid) (within : b₁.within start stop = p :: ps)
      (broken : unbroken p ps ≠ ps) (run : o.run b = .error e b')

section
variable {b : EditBuffer} (h : b.Laid) {o : Operation} {k : Stroke} {kind : EditKind} {text : Text}
include h

theorem Laid.stroked_insertion {n : Nat} {f : EditBuffer → EditBuffer}
    (hrun : o.run = do split n; modify f; record kind (.empty n) text)
    (hk : k.footprint = ⟨n, n⟩ ∧ k.Proper)
    (hf : ∀ b', b'.Laid → b'.IsEdge n → b'.source = b.source → f b' = b'.stroke k) :
    Stroked b o k := by
  obtain ⟨e, he⟩ | ⟨b', hb, hc, hl, hedge⟩ := h.insertion_cases n kind text f
  · exact .refused e b (hrun ▸ he) .refl
  · rw [hf b' hl hedge hc.frame.1] at hb
    exact .made b' _ hc hl (hk.1 ▸ hedge) (hk.1 ▸ hedge) hk.2 (hrun ▸ hb)

theorem Laid.stroked_replace {keepEdges : Bool}
    (hrun : o.run = do replace start stop text keepEdges; record kind ⟨start, stop⟩ text) :
    Stroked b o (.range start stop text keepEdges) := by
  obtain ⟨e, b', hb, hc, -⟩ | ⟨b', p, ps, -, hlt, hc, hl, hs, ht, hw, hb⟩ :=
    h.replace_cases start stop text keepEdges
  · exact .refused e b' (by simp only [hrun, Editing.bind_apply, hb]) hc
  · by_cases hu : unbroken p ps = ps
    · rw [if_pos hu, hl.showing_eq hs ht hlt hw] at hb
      exact .made b' ⟨kind, ⟨start, stop⟩, some text⟩ hc hl hs ht hlt
        (by simp [hrun, hb, record_apply])
    · rw [if_neg hu] at hb
      exact .broken b' (b'.blankAt ((unbroken p ps).map Piece.start)) (.overwriteAcrossSplit start stop)
        start stop p ps hc hl hw hu (by simp [hrun, hb])

theorem Laid.stroked (hne : b.source ≠ []) (hk : o.stroke? = some k) : Stroked b o k := by
  cases o with
  | insertLeft n text | prependLeft n text =>
    obtain rfl := Option.some.inj hk
    exact h.stroked_insertion rfl ⟨rfl, trivial⟩ fun b' hl hn hs => hl.editLeft_eq hn (hs ▸ hne) _
  | insertRight n text | prependRight n text =>
    obtain rfl := Option.some.inj hk
    exact h.stroked_insertion rfl ⟨rfl, trivial⟩ fun b' hl hn hs => hl.editRight_eq hn (hs ▸ hne) _
  | remove start stop =>
    obtain rfl := Option.some.inj hk
    obtain ⟨e, b', hb, hc⟩ | ⟨rfl, hb⟩ | ⟨b', hlt, hc, hl, hs, ht, hb⟩ := h.remove_cases start stop
    · exact .refused e b' hb hc
    · exact .idle start rfl hb
    · rw [blankRange_eq] at hb
      exact .made b' _ hc hl hs ht hlt hb
  | overwrite start stop text | update start stop text =>
    obtain rfl := Option.some.inj hk
    exact h.stroked_replace rfl
  | append | prepend | moveRange | slice => cases hk

end
end EditBuffer
end SfcTsx
