import SfcTsx.Proofs.EditBuffer.Strip

namespace SfcTsx

variable {q : Piece}

def Span.Separate (r r' : Span) : Prop := ∀ n, r.start ≤ n → n ≤ r.stop → r'.start ≤ n → r'.stop < n

theorem Span.Separate.symm {r r' : Span} (h : r.Separate r') : r'.Separate r := by
  intro n hlo hhi hlo'
  by_contra hhi'
  have := h n hlo' (by omega) hlo
  omega

namespace Step
variable {σ : Type} {x y : Step σ} {xs ys : List (Step σ)} {s : σ}

def Guarded : List (Step σ) → σ → Prop
  | [], _ => True
  | x :: xs, s => x.Ready s ∧ (x.refusal s = none → Guarded xs (x.next s))

/-- A step that is made leaves another one ready, with the refusal it had. -/
def Spares (x y : Step σ) : Prop :=
  ∀ s, x.Ready s → y.Ready s → x.refusal s = none →
    y.Ready (x.next s) ∧ y.refusal (x.next s) = y.refusal s

/-- Two steps spare each other and lead to one state. -/
structure Independent (x y : Step σ) : Prop where
  left : Spares x y
  right : Spares y x
  comm : ∀ s, x.Ready s → y.Ready s → x.refusal s = none → y.refusal s = none →
    x.next (y.next s) = y.next (x.next s)

theorem Independent.symm (h : Independent x y) : Independent y x :=
  ⟨h.right, h.left, fun s hy hx ry rx => (h.comm s hx hy rx ry).symm⟩

theorem run_next (hi : ∀ x ∈ xs, Independent x y) (hg : Guarded xs s) (hy : y.Ready s) :
    y.Ready (run xs s).2 ∧ y.refusal (run xs s).2 = y.refusal s ∧
      (y.refusal s = none →
        Guarded xs (y.next s) ∧ run xs (y.next s) = ((run xs s).1, y.next (run xs s).2)) := by
  induction xs generalizing s with
  | nil => exact ⟨hy, rfl, fun _ => ⟨trivial, rfl⟩⟩
  | cons x xs ih =>
    obtain ⟨hx, hrest⟩ := hg
    obtain ⟨hxy, hi⟩ := List.forall_mem_cons.mp hi
    cases hr : x.refusal s with
    | some e =>
      simp only [run, hr]
      refine ⟨hy, trivial, fun hnone => ?_⟩
      obtain ⟨hready, hsame⟩ := hxy.right s hy hx hnone
      rw [hr] at hsame
      exact ⟨⟨hready, fun h => by simp [hsame] at h⟩, by simp only [hsame]⟩
    | none =>
      simp only [run, hr]
      obtain ⟨hready, hsame⟩ := hxy.left s hx hy hr
      obtain ⟨hy', hrefusal, hnext⟩ := ih hi (hrest hr) hready
      refine ⟨hy', hrefusal.trans hsame, fun hnone => ?_⟩
      obtain ⟨hready', hsame'⟩ := hxy.right s hy hx hnone
      obtain ⟨hg, hrun⟩ := hnext (hsame.trans hnone)
      rw [← hxy.comm s hx hy hr hnone] at hg hrun
      exact ⟨⟨hready', fun _ => hg⟩, by simp only [hsame', hr, hrun]⟩

theorem run_comm (hi : ∀ x ∈ xs, ∀ y ∈ ys, Independent x y) (hx : Guarded xs s) (hy : Guarded ys s) :
    (run xs (run ys s).2).1 = (run xs s).1 ∧ (run ys (run xs s).2).1 = (run ys s).1 ∧
      (run xs (run ys s).2).2 = (run ys (run xs s).2).2 := by
  induction ys generalizing s with
  | nil => exact ⟨rfl, rfl, rfl⟩
  | cons y ys ih =>
    obtain ⟨hready, hrest⟩ := hy
    obtain ⟨-, hsame, hnext⟩ := run_next (fun x hm => hi x hm y (List.mem_cons_self ..)) hx hready
    cases hr : y.refusal s with
    | some e =>
      rw [hr] at hsame
      simp [run, hr, hsame]
    | none =>
      rw [hr] at hsame
      obtain ⟨hg, hrun⟩ := hnext hr
      have hboth := ih (fun x hm z hz => hi x hm z (List.mem_cons_of_mem _ hz)) hg (hrest hr)
      simp only [run, hr, hsame]
      rwa [hrun] at hboth

end Step

namespace Piece
variable {p : Piece} {m n : Nat}

/-- If an offset is inside the piece, the text of the piece can be cut there. -/
def Cuttable (n : Nat) (p : Piece) : Prop :=
  p.Holds n → ∃ u v, p.source = u ++ v ∧ p.start + Text.size u = n

theorem sever_eq {u v : Text} (h : p.Holds n) (hp : p.source = u ++ v)
    (hn : p.start + Text.size u = n) :
    p.sever n = [{ p with source := u, outro := [] },
      { start := n, source := v, replacement := p.replacement.map fun _ => [], outro := p.outro }] := by
  have hoff : n - p.start = Text.size u := by omega
  rw [sever, if_pos h, hoff, hp, Text.slice_head, Text.slice_tail]

theorem Cuttable.mem_sever (h : p.Cuttable n) (hq : q ∈ p.sever n) :
    p.start ≤ q.start ∧ q.stop ≤ p.stop ∧ ¬ q.Holds n := by
  by_cases hin : p.Holds n
  · obtain ⟨u, v, hp, hn⟩ := h hin
    rw [sever_eq hin hp hn] at hq
    have hsize : p.source.size = u.size + v.size := by rw [hp, Text.size_append]
    simp only [List.mem_cons, List.not_mem_nil, or_false] at hq
    obtain rfl | rfl := hq <;> simp only [stop, Holds] <;> omega
  · rw [sever_of_not_holds hin, List.mem_singleton] at hq
    rw [hq]
    exact ⟨Nat.le_refl _, Nat.le_refl _, hin⟩

theorem Cuttable.not_holds_sever (h : p.Cuttable n) (hm : ¬ p.Holds m)
    (hq : q ∈ p.sever n) : ¬ q.Holds m := by
  obtain ⟨hlo, hhi, -⟩ := h.mem_sever hq
  unfold Holds at *
  omega

theorem edited_of_mem_sever (hq : q ∈ p.sever n) (h : q.edited = true) : p.edited = true := by
  unfold sever at hq
  split at hq
  · simp only [List.mem_cons, List.not_mem_nil, or_false] at hq
    obtain rfl | rfl := hq
    · exact h
    · cases hr : p.replacement <;> simp [edited, hr] at h
  · rwa [← List.mem_singleton.mp hq]

theorem Cuttable.tiles_sever (h : p.Cuttable n) :
    EditBuffer.Tiles p.start (p.sever n) ∧ (p.sever n).flatMap Piece.source = p.source := by
  by_cases hin : p.Holds n
  · obtain ⟨u, v, hp, hn⟩ := h hin
    simp [sever_eq hin hp hn, EditBuffer.Tiles, stop, hn, hp]
  · simp [sever_of_not_holds hin, EditBuffer.Tiles]

theorem sever_comm (hm : p.Cuttable m) (hn : p.Cuttable n) :
    (p.sever m).flatMap (sever n) = (p.sever n).flatMap (sever m) := by
  -- A cut outside the piece is not seen by its parts.
  have outside {a b : Nat} (ha : p.Cuttable a) (hb : ¬ p.Holds b) :
      (p.sever a).flatMap (sever b) = (p.sever b).flatMap (sever a) := by
    rw [sever_of_not_holds hb, List.flatMap_singleton]
    have hid : (p.sever a).flatMap (sever b) = (p.sever a).flatMap fun q => [q] :=
      List.flatMap_congr fun q hq => sever_of_not_holds (ha.not_holds_sever hb hq)
    rw [hid, List.flatMap_singleton']
  -- Cuts inside the piece give three parts.
  have inside {a b : Nat} (hab : a < b) (ha : p.Cuttable a) (hb : p.Cuttable b) (hina : p.Holds a)
      (hinb : p.Holds b) : (p.sever a).flatMap (sever b) = (p.sever b).flatMap (sever a) := by
    obtain ⟨u, v, hp, hu⟩ := ha hina
    obtain ⟨x, y, hp', hx⟩ := hb hinb
    obtain ⟨w, rfl, rfl⟩ : ∃ w, x = u ++ w ∧ v = w ++ y := by
      obtain ⟨w, hxw, hvw⟩ | ⟨w, huw, -⟩ := List.append_eq_append_iff.mp (hp.symm.trans hp')
      · exact ⟨w, hxw, hvw⟩
      · rw [huw, Text.size_append] at hu
        omega
    have hsize : p.source.size = u.size + w.size + y.size := by
      rw [hp', Text.size_append, Text.size_append]
    rw [Text.size_append] at hx
    have hstart : p.start < a := hina.1
    have hstop : b < p.start + p.source.size := hinb.2
    let head : Piece := { p with source := u, outro := [] }
    let tail (r : Option Text) : Piece := { start := b, source := y, replacement := r, outro := p.outro }
    have hfirst : head.sever b = [head] :=
      sever_of_not_holds (by simp only [Holds, stop, head]; omega)
    have hlast (r : Option Text) : (tail r).sever a = [tail r] :=
      sever_of_not_holds (by simp only [Holds, tail]; omega)
    rw [sever_eq hina hp hu, sever_eq hinb hp' (by rw [Text.size_append]; omega)]
    simp only [List.flatMap_cons, List.flatMap_nil, List.append_nil]
    rw [hfirst, hlast, sever_eq (u := w) (v := y) _ rfl (by dsimp only; omega),
      sever_eq (p := { p with source := u ++ w, outro := [] }) _ rfl hu]
    · simp [head, tail, Function.comp_def]
    · simp only [Holds, stop, Text.size_append]
      omega
    · simp only [Holds, stop, Text.size_append]
      omega
  by_cases hinm : p.Holds m
  · by_cases hinn : p.Holds n
    · obtain hlt | rfl | hlt := Nat.lt_trichotomy m n
      · exact inside hlt hm hn hinm hinn
      · rfl
      · exact (inside hlt hn hm hinn hinm).symm
    · exact outside hm hinn
  · exact (outside hn hinm).symm

end Piece

namespace Stroke
variable {k k' : Stroke} {p : Piece} {m n : Nat}

theorem holds_paint : (k.paint p).Holds n ↔ p.Holds n := by
  rw [Piece.Holds, (k.paint_keeps p).1, stop_paint, Piece.Holds]

theorem touches_paint : k.Touches (k'.paint p) ↔ k.Touches p := by
  cases k <;> simp only [Touches, (k'.paint_keeps p).1, stop_paint]

theorem covers {start stop : Nat} {text : Text} {keepEdges : Bool}
    (h : (range start stop text keepEdges).Touches p) (hstop : ¬ p.Holds stop) :
    start ≤ p.start ∧ p.stop ≤ stop := by
  have hlo : start ≤ p.start := h.1
  have hhi : p.start < stop := h.2
  unfold Piece.Holds at hstop
  omega

section
variable (hstop : ¬ p.Holds k.footprint.stop)
  (hout : ¬(k.footprint.start ≤ m ∧ m ≤ k.footprint.stop))
include hstop hout

theorem replacement_paint (hin : p.Holds m) : (k.paint p).replacement = p.replacement := by
  by_cases ht : k.Touches p
  · rw [paint_of_touches ht]
    cases k with
    | left n f => rfl
    | right n f => rfl
    | range start stop text keepEdges =>
      obtain ⟨hlo, hhi⟩ := covers ht hstop
      have hin' : p.start < m ∧ m < p.stop := hin
      simp only [footprint] at hout
      omega
  · rw [paint_of_not_touches ht]

theorem map_paint_sever (hc : p.Cuttable m) : (p.sever m).map k.paint = (k.paint p).sever m := by
  by_cases hin : p.Holds m
  · obtain ⟨u, v, hp, hm⟩ := hc hin
    have hreplacement := replacement_paint hstop hout hin
    have hsize : p.source.size = u.size + v.size := by rw [hp, Text.size_append]
    rw [Piece.sever_eq hin hp hm, Piece.sever_eq (holds_paint.mpr hin) ((k.paint_keeps p).2.1.trans hp)
      (by rw [(k.paint_keeps p).1]; exact hm), List.map_cons, List.map_singleton, hreplacement]
    let head : Piece := { p with source := u, outro := [] }
    let tail : Piece :=
      { start := m, source := v, replacement := p.replacement.map fun _ => [], outro := p.outro }
    have hstop_head : head.stop = m := hm
    have hstop_tail : tail.stop = p.stop := by
      simp only [Piece.stop, tail]
      omega
    cases k with
    | left n f =>
      have hhead : ¬ (left n f).Touches head := by
        simp only [Touches, hstop_head]
        simp only [footprint] at hout
        omega
      have htail : (left n f).Touches tail ↔ (left n f).Touches p := by
        simp only [Touches, hstop_tail]
      by_cases ht : (left n f).Touches p
      · rw [paint_of_not_touches hhead, paint_of_touches (htail.mpr ht), paint_of_touches ht]
        rfl
      · rw [paint_of_not_touches hhead, paint_of_not_touches (mt htail.mp ht),
          paint_of_not_touches ht]
    | right n f =>
      have htail : ¬ (right n f).Touches tail := by
        simp only [Touches, tail]
        simp only [footprint] at hout
        omega
      have hhead : (right n f).Touches head ↔ (right n f).Touches p := Iff.rfl
      by_cases ht : (right n f).Touches p
      · rw [paint_of_touches (hhead.mpr ht), paint_of_not_touches htail, paint_of_touches ht]
        rfl
      · rw [paint_of_not_touches (mt hhead.mp ht), paint_of_not_touches htail,
          paint_of_not_touches ht]
    | range start stop text keepEdges =>
      have hin' : p.start < m ∧ m < p.stop := hin
      simp only [footprint] at hout
      have ht : ¬ (range start stop text keepEdges).Touches p := by
        intro ht
        have := covers ht hstop
        omega
      have hhead : ¬ (range start stop text keepEdges).Touches head := ht
      have htail : ¬ (range start stop text keepEdges).Touches tail := fun h =>
        hout ⟨h.1, Nat.le_of_lt h.2⟩
      rw [paint_of_not_touches hhead, paint_of_not_touches htail, paint_of_not_touches ht]
  · rw [Piece.sever_of_not_holds hin, Piece.sever_of_not_holds (mt holds_paint.mp hin),
      List.map_singleton]

end

theorem Touches.start_mem (h : k.Touches p) :
    (∃ n f, k = left n f) ∨ k.footprint.start ≤ p.start ∧ p.start ≤ k.footprint.stop := by
  cases k with
  | left n f => exact .inl ⟨n, f, rfl⟩
  | right n f => exact .inr ⟨Nat.le_of_eq h.symm, Nat.le_of_eq h⟩
  | range start stop text keepEdges => exact .inr ⟨h.1, Nat.le_of_lt h.2⟩

theorem Touches.stop_mem (h : k.Touches p) (hstop : ¬ p.Holds k.footprint.stop) :
    (∃ n f, k = right n f) ∨ k.footprint.start ≤ p.stop ∧ p.stop ≤ k.footprint.stop := by
  cases k with
  | left n f => exact .inr ⟨Nat.le_of_eq h.symm, Nat.le_of_eq h⟩
  | right n f => exact .inl ⟨n, f, rfl⟩
  | range start stop text keepEdges =>
    obtain ⟨hlo, hhi⟩ := covers h hstop
    exact .inr ⟨Nat.le_trans hlo (Nat.le_add_right ..), hhi⟩

variable (hsep : k.footprint.Separate k'.footprint)
include hsep

theorem paint_comm (hstop : ¬ p.Holds k.footprint.stop) (hstop' : ¬ p.Holds k'.footprint.stop) :
    k.paint (k'.paint p) = k'.paint (k.paint p) := by
  by_cases ht : k.Touches p
  · by_cases ht' : k'.Touches p
    · -- Only strokes on the two sides of one piece touch it both.
      have hboth : (∃ n f n' f', k = left n f ∧ k' = right n' f') ∨
          ∃ n f n' f', k = right n f ∧ k' = left n' f' := by
        obtain ⟨n, f, rfl⟩ | ⟨hlo, hhi⟩ := ht.start_mem
        · obtain ⟨_, _, hk⟩ | ⟨hlo, hhi⟩ := ht.stop_mem hstop
          · cases hk
          · obtain ⟨n', f', rfl⟩ | ⟨hlo', hhi'⟩ := ht'.stop_mem hstop'
            · exact .inl ⟨n, f, n', f', rfl, rfl⟩
            · have := hsep _ hlo hhi hlo'
              omega
        · obtain ⟨n', f', rfl⟩ | ⟨hlo', hhi'⟩ := ht'.start_mem
          · obtain ⟨n, f, rfl⟩ | ⟨hlo, hhi⟩ := ht.stop_mem hstop
            · exact .inr ⟨n, f, n', f', rfl, rfl⟩
            · obtain ⟨_, _, hk⟩ | ⟨hlo', hhi'⟩ := ht'.stop_mem hstop'
              · cases hk
              · have := hsep _ hlo hhi hlo'
                omega
          · have := hsep _ hlo hhi hlo'
            omega
      rw [paint_of_touches (touches_paint.mpr ht : k.Touches (k'.paint p)),
        paint_of_touches (touches_paint.mpr ht' : k'.Touches (k.paint p)), paint_of_touches ht,
        paint_of_touches ht']
      obtain ⟨n, f, n', f', rfl, rfl⟩ | ⟨n, f, n', f', rfl, rfl⟩ := hboth <;> rfl
    · rw [paint_of_not_touches ht', paint_of_not_touches (mt touches_paint.mp ht')]
  · rw [paint_of_not_touches ht, paint_of_not_touches (mt touches_paint.mp ht)]

theorem paintIntro_comm (t : Text) :
    k.paintIntro (k'.paintIntro t) = k'.paintIntro (k.paintIntro t) := by
  unfold paintIntro
  split <;> split <;> try rfl
  have := hsep 0 (Nat.le_refl 0) (Nat.le_refl 0) (Nat.le_refl 0)
  simp [footprint] at this

theorem paintOutro_comm (size : Nat) (t : Text) :
    k.paintOutro size (k'.paintOutro size t) = k'.paintOutro size (k.paintOutro size t) := by
  cases k with
  | right n f =>
    cases k' with
    | right n' f' =>
      have hne : n = size → n' = size → False := by
        rintro rfl rfl
        exact Nat.lt_irrefl _ (hsep n' (Nat.le_refl _) (Nat.le_refl _) (Nat.le_refl _))
      simp only [paintOutro]
      by_cases hn : n = size
      · simp [if_neg (hne hn)]
      · simp only [if_neg hn]
    | left n' f' => rfl
    | range start stop text keepEdges => rfl
  | left n f => rfl
  | range start stop text keepEdges => rfl

end Stroke

namespace Strip
variable {source : Text} {s : Strip} {m n : Nat} {k k' : Stroke}

theorem Valid.cuttable (h : s.Valid source) (hn : source.isBoundary n = true) {p : Piece}
    (hp : p ∈ s.pieces) : p.Cuttable n := by
  intro hin
  obtain ⟨l, r, hl⟩ := List.append_of_mem hp
  have ht := h.tiles
  rw [hl, EditBuffer.tiles_append] at ht
  have hstart : Text.size (l.flatMap Piece.source) = p.start := by rw [ht.2.1, Nat.zero_add]
  have htext : source = l.flatMap Piece.source ++ p.source ++ r.flatMap Piece.source := by
    rw [← h.text, hl, List.flatMap_append, List.flatMap_cons, List.append_assoc]
  have hin' : p.start < n ∧ n < p.start + p.source.size := hin
  rw [htext] at hn
  obtain ⟨u, v, huv, hu⟩ := Text.exists_cut_of_isBoundary hn (by omega) (by omega)
  exact ⟨u, v, huv, by omega⟩

theorem Valid.cut (h : s.Valid source) (hn : source.isBoundary n = true) :
    (s.cut n).Valid source := by
  obtain ⟨htiles, htext⟩ := h.tiles.flatMap fun p hp => (h.cuttable hn hp).tiles_sever
  exact ⟨htiles, htext.trans h.text⟩

theorem Valid.paint (h : s.Valid source) (size : Nat) (k : Stroke) :
    (s.paint size k).Valid source := by
  have hmap : s.pieces.map k.paint = s.pieces.flatMap fun p => [k.paint p] := List.map_eq_flatMap
  obtain ⟨htiles, htext⟩ := h.tiles.flatMap (f := fun p => [k.paint p]) fun p _ => by
    simp [EditBuffer.Tiles, k.paint_keeps p]
  rw [← hmap] at htiles htext
  exact ⟨htiles, htext.trans h.text⟩

theorem Valid.hasEdge_cut (h : s.Valid source) (hn : source.isBoundary n = true) :
    (s.cut n).HasEdge n ∧ (s.HasEdge m → (s.cut n).HasEdge m) := by
  refine ⟨fun q hq => ?_, fun hm q hq => ?_⟩
  · obtain ⟨p, hp, hq⟩ := List.mem_flatMap.mp hq
    exact ((h.cuttable hn hp).mem_sever hq).2.2
  · obtain ⟨p, hp, hq⟩ := List.mem_flatMap.mp hq
    exact (h.cuttable hn hp).not_holds_sever (hm p hp) hq

theorem HasEdge.paint (h : s.HasEdge n) (size : Nat) (k : Stroke) : (s.paint size k).HasEdge n := by
  intro q hq
  obtain ⟨p, hp, rfl⟩ := List.mem_map.mp hq
  exact mt Stroke.holds_paint.mp (h p hp)

theorem cutRefusal_congr {s' : Strip}
    (h : (∃ p ∈ s.pieces, p.Holds n ∧ p.edited = true) ↔ ∃ p ∈ s'.pieces, p.Holds n ∧ p.edited = true) :
    s.cutRefusal n = s'.cutRefusal n := by
  have hany : (s.pieces.any fun p => decide (p.Holds n) && p.edited) =
      s'.pieces.any fun p => decide (p.Holds n) && p.edited := by
    rw [Bool.eq_iff_iff]
    simpa only [List.any_eq_true, Bool.and_eq_true, decide_eq_true_eq] using h
  rw [cutRefusal, hany, cutRefusal]

theorem cutRefusal_cut (hnone : s.cutRefusal n = none) : (s.cut n).cutRefusal m = s.cutRefusal m := by
  rw [cutRefusal_eq_none] at hnone
  refine cutRefusal_congr ⟨?_, ?_⟩
  · rintro ⟨q, hq, hm, hedited⟩
    obtain ⟨p, hp, hq⟩ := List.mem_flatMap.mp hq
    have hnot : ¬ p.Holds n := fun hin => by
      simpa [hnone p hp hin] using Piece.edited_of_mem_sever hq hedited
    rw [Piece.sever_of_not_holds hnot, List.mem_singleton] at hq
    exact ⟨p, hp, hq ▸ hm, hq ▸ hedited⟩
  · rintro ⟨p, hp, hm, hedited⟩
    have hnot : ¬ p.Holds n := fun hin => by simp [hnone p hp hin] at hedited
    refine ⟨p, List.mem_flatMap.mpr ⟨p, hp, ?_⟩, hm, hedited⟩
    rw [Piece.sever_of_not_holds hnot]
    exact List.mem_singleton_self p

theorem cutRefusal_paint (hstop : s.HasEdge k.footprint.stop)
    (hout : ¬(k.footprint.start ≤ m ∧ m ≤ k.footprint.stop)) (size : Nat) :
    (s.paint size k).cutRefusal m = s.cutRefusal m := by
  have hsame (p : Piece) (hp : p ∈ s.pieces) (hin : p.Holds m) :
      (k.paint p).edited = p.edited := by
    rw [Piece.edited, Stroke.replacement_paint (hstop p hp) hout hin, Piece.edited]
  refine cutRefusal_congr ⟨?_, ?_⟩
  · rintro ⟨q, hq, hm, hedited⟩
    obtain ⟨p, hp, rfl⟩ := List.mem_map.mp hq
    rw [Stroke.holds_paint] at hm
    exact ⟨p, hp, hm, (hsame p hp hm).symm.trans hedited⟩
  · rintro ⟨p, hp, hm, hedited⟩
    exact ⟨k.paint p, List.mem_map_of_mem hp, Stroke.holds_paint.mpr hm,
      (hsame p hp hm).trans hedited⟩

theorem Valid.cut_comm (h : s.Valid source) (hm : source.isBoundary m = true)
    (hn : source.isBoundary n = true) : (s.cut m).cut n = (s.cut n).cut m := by
  have hpieces : (s.pieces.flatMap (Piece.sever m)).flatMap (Piece.sever n) =
      (s.pieces.flatMap (Piece.sever n)).flatMap (Piece.sever m) := by
    rw [List.flatMap_assoc, List.flatMap_assoc]
    exact List.flatMap_congr fun p hp => Piece.sever_comm (h.cuttable hm hp) (h.cuttable hn hp)
  simp only [Strip.cut, hpieces]

theorem Valid.cut_paint (h : s.Valid source) (hm : source.isBoundary m = true)
    (hstop : s.HasEdge k.footprint.stop)
    (hout : ¬(k.footprint.start ≤ m ∧ m ≤ k.footprint.stop)) (size : Nat) :
    (s.paint size k).cut m = (s.cut m).paint size k := by
  have hpieces : (s.pieces.map k.paint).flatMap (Piece.sever m) =
      (s.pieces.flatMap (Piece.sever m)).map k.paint := by
    rw [List.flatMap_map, List.map_flatMap]
    exact List.flatMap_congr fun p hp =>
      (Stroke.map_paint_sever (hstop p hp) hout (h.cuttable hm hp)).symm
  simp only [Strip.cut, Strip.paint, hpieces]

theorem paint_comm (hsep : k.footprint.Separate k'.footprint) (hstop : s.HasEdge k.footprint.stop)
    (hstop' : s.HasEdge k'.footprint.stop) (size : Nat) :
    (s.paint size k').paint size k = (s.paint size k).paint size k' := by
  have hpieces : (s.pieces.map k'.paint).map k.paint = (s.pieces.map k.paint).map k'.paint := by
    rw [List.map_map, List.map_map]
    exact List.map_congr_left fun p hp => Stroke.paint_comm hsep (hstop p hp) (hstop' p hp)
  simp only [Strip.paint, hpieces, Stroke.paintIntro_comm hsep, Stroke.paintOutro_comm hsep]

end Strip

namespace Step
variable {source : Text} {m n : Nat} {k k' : Stroke}

theorem independent_cuts : Independent (cut source m) (cut source n) := by
  have hspares {a b : Nat} : Spares (cut source a) (cut source b) := by
    rintro s ⟨hv, ha⟩ ⟨-, hb⟩ hnone
    exact ⟨⟨hv.cut ha, hb⟩, Strip.cutRefusal_cut hnone⟩
  refine ⟨hspares, hspares, ?_⟩
  rintro s ⟨hv, hm⟩ ⟨-, hn⟩ - -
  exact hv.cut_comm hn hm

theorem independent_cut_paint (hout : ¬(k.footprint.start ≤ m ∧ m ≤ k.footprint.stop)) :
    Independent (cut source m) (paint source k) where
  left := by
    rintro s ⟨hv, hm⟩ ⟨hstart, hstop⟩ -
    exact ⟨⟨(hv.hasEdge_cut hm).2 hstart, (hv.hasEdge_cut hm).2 hstop⟩, rfl⟩
  right := by
    rintro s ⟨-, hstop⟩ ⟨hv, hm⟩ -
    exact ⟨⟨hv.paint .., hm⟩, Strip.cutRefusal_paint hstop hout _⟩
  comm := by
    rintro s ⟨hv, hm⟩ ⟨-, hstop⟩ - -
    exact hv.cut_paint hm hstop hout _

theorem independent_paints (hsep : k.footprint.Separate k'.footprint) :
    Independent (paint source k) (paint source k') := by
  have hspares {a b : Stroke} : Spares (paint source a) (paint source b) := by
    rintro s - ⟨hstart, hstop⟩ -
    exact ⟨⟨hstart.paint _ a, hstop.paint _ a⟩, rfl⟩
  refine ⟨hspares, hspares, ?_⟩
  rintro s ⟨-, hstop⟩ ⟨-, hstop'⟩ - -
  exact Strip.paint_comm hsep hstop hstop' _

theorem independent_ofStroke (source : Text) (hsep : k.footprint.Separate k'.footprint)
    (hle : k.footprint.start ≤ k.footprint.stop) (hle' : k'.footprint.start ≤ k'.footprint.stop) :
    ∀ x ∈ ofStroke source k, ∀ y ∈ ofStroke source k', Independent x y := by
  have hstart := hsep k.footprint.start (Nat.le_refl _) hle
  have hstop := hsep k.footprint.stop hle (Nat.le_refl _)
  have hstart' := hsep.symm k'.footprint.start (Nat.le_refl _) hle'
  have hstop' := hsep.symm k'.footprint.stop hle' (Nat.le_refl _)
  simp only [ofStroke, List.forall_mem_cons, List.not_mem_nil, false_implies, implies_true, and_true]
  exact ⟨⟨independent_cuts, independent_cuts, independent_cut_paint (by omega)⟩,
    ⟨independent_cuts, independent_cuts, independent_cut_paint (by omega)⟩,
    (independent_cut_paint (by omega)).symm, (independent_cut_paint (by omega)).symm,
    independent_paints hsep⟩

theorem guarded_ofStroke {s : Strip} (hv : s.Valid source)
    (hstart : source.isBoundary k.footprint.start = true)
    (hstop : source.isBoundary k.footprint.stop = true) : Guarded (ofStroke source k) s := by
  refine ⟨⟨hv, hstart⟩, fun _ => ⟨⟨hv.cut hstart, hstop⟩, fun _ => ⟨⟨?_, ?_⟩, fun _ => trivial⟩⟩⟩
  · exact ((hv.cut hstart).hasEdge_cut hstop).2 (hv.hasEdge_cut (m := 0) hstart).1
  · exact ((hv.cut hstart).hasEdge_cut (m := 0) hstop).1

end Step

namespace Operation

/-- The range that an edit in place touches, both ends included. -/
def footprint? : Operation → Option Span
  | .insertLeft n _ | .prependLeft n _ | .insertRight n _ | .prependRight n _ => some ⟨n, n⟩
  | .remove start stop | .overwrite start stop _ | .update start stop _ => some ⟨start, stop⟩
  | .append _ | .prepend _ | .moveRange .. | .slice .. => none

theorem footprint?_eq (o : Operation) : o.footprint? = o.stroke?.map Stroke.footprint := by
  cases o <;> rfl

theorem isMove_of_stroke? {o : Operation} {k : Stroke} (h : o.stroke? = some k) :
    o.isMove = false := by
  cases o <;> first | rfl | cases h

end Operation

namespace EditBuffer

theorem Runs.refusal_eq {b : EditBuffer} {o : Operation} {r : Option EditError × Strip}
    (h : Runs o.run b r) : b.refusal o = r.1 ∧ (b.after o).strip = r.2 := h

theorem ne_nil_of_separate {source : Text} {r r' : Span} (hsep : r.Separate r')
    (h : source.isBoundary r.start = true ∧ source.isBoundary r.stop = true)
    (h' : source.isBoundary r'.start = true ∧ source.isBoundary r'.stop = true) : source ≠ [] := by
  rintro rfl
  have hzero {n : Nat} (hn : Text.isBoundary n [] = true) : n = 0 := by
    obtain ⟨u, v, huv, rfl⟩ := Text.isBoundary_iff.mp hn
    obtain ⟨rfl, -⟩ := List.append_eq_nil_iff.mp huv.symm
    rfl
  have := hsep 0 (Nat.le_of_eq (hzero h.1)) (Nat.zero_le _) (Nat.le_of_eq (hzero h'.1))
  exact Nat.not_lt_zero _ this

/-- Edits in place whose ranges are apart commute: whatever edits but moves came before, either order
gives both calls the answers they get alone, and the same text. -/
theorem after_comm_of_separate (source : Text) {os : List Operation}
    (hmoves : ∀ o ∈ os, o.isMove = false) {o o' : Operation} {r r' : Span}
    (hr : o.footprint? = some r) (hr' : o'.footprint? = some r') (hsep : r.Separate r') :
    let b := (ofText source).afterAll os
    (b.after o').refusal o = b.refusal o ∧ (b.after o).refusal o' = b.refusal o' ∧
      ((b.after o).after o').render = ((b.after o').after o).render := by
  intro b
  rw [Operation.footprint?_eq, Option.map_eq_some_iff] at hr hr'
  obtain ⟨k, hk, rfl⟩ := hr
  obtain ⟨k', hk', rfl⟩ := hr'
  have hsound : b.Sound := (ofText_sound source).afterAll os
  have hsource : b.source = source := (ofText_sound source).source_afterAll os
  have horder : b.InOrder := (mirrors_ofText source).order.afterAll (ofText_sound source) hmoves
  have hkeep (x : Operation) : (b.after x).source = source :=
    (hsound.laid.source_after x).trans hsource
  cases course_of_stroke? hk source with
  | settled e hsettled =>
    rw [(hsettled b hsource).2, (hsettled _ (hkeep o')).2, (hsettled b hsource).1]
    exact ⟨(hsettled _ (hkeep o')).1, rfl, rfl⟩
  | steps hle hstart hstop hruns =>
    cases course_of_stroke? hk' source with
    | settled e hsettled =>
      rw [(hsettled b hsource).2, (hsettled _ (hkeep o)).2, (hsettled b hsource).1]
      exact ⟨rfl, (hsettled _ (hkeep o)).1, rfl⟩
    | steps hle' hstart' hstop' hruns' =>
      have hne : source ≠ [] := ne_nil_of_separate hsep ⟨hstart, hstop⟩ ⟨hstart', hstop'⟩
      have horder₁ := horder.after hsound.laid (Operation.isMove_of_stroke? hk)
      have horder₂ := horder.after hsound.laid (Operation.isMove_of_stroke? hk')
      have hlaid₁ := (hsound.after o).laid
      have hlaid₂ := (hsound.after o').laid
      have hvalid : b.strip.Valid source := hsource ▸ hsound.laid.valid_strip
      obtain ⟨hx, hy, hsame⟩ := Step.run_comm
        (Step.independent_ofStroke source hsep hle hle')
        (Step.guarded_ofStroke hvalid hstart hstop) (Step.guarded_ofStroke hvalid hstart' hstop')
      obtain ⟨ho, hb₁⟩ := (hruns b hsource hne hsound.laid horder).refusal_eq
      obtain ⟨ho', hb₂⟩ := (hruns' b hsource hne hsound.laid horder).refusal_eq
      obtain ⟨hoo', hb₁₂⟩ := (hruns' _ (hkeep o) hne hlaid₁ horder₁).refusal_eq
      obtain ⟨ho'o, hb₂₁⟩ := (hruns _ (hkeep o') hne hlaid₂ horder₂).refusal_eq
      rw [hb₁] at hoo' hb₁₂
      rw [hb₂] at ho'o hb₂₁
      refine ⟨by rw [ho'o, hx, ho], by rw [hoo', hy, ho'], ?_⟩
      have hrender₁ := (horder₁.after hlaid₁ (Operation.isMove_of_stroke? hk')).render_strip
      have hrender₂ := (horder₂.after hlaid₂ (Operation.isMove_of_stroke? hk)).render_strip
      rw [← hrender₁, ← hrender₂, hb₁₂, hb₂₁, hsame]

/-- Here the removal is refused in either order, for it would cut a replaced piece. -/
theorem after_comm_of_separate_refused :
    let b := (ofText ['a', 'b', 'c', 'd', 'e', 'f']).afterAll [.overwrite 0 3 ['X'], .append ['!']]
    let o := Operation.remove 1 2
    let o' := Operation.update 4 5 ['z']
    b.refusal o = some (.splitEdited 1) ∧ b.refusal o' = none ∧
      (b.after o').refusal o = b.refusal o ∧ (b.after o).refusal o' = b.refusal o' ∧
      ((b.after o).after o').render = ((b.after o').after o).render := by
  refine ⟨by decide +kernel, by decide +kernel, ?_⟩
  exact after_comm_of_separate _ (by decide) rfl rfl fun n hlo hhi hlo' => by simp at *; omega

end EditBuffer
end SfcTsx
