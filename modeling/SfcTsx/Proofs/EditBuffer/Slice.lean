import SfcTsx.Proofs.EditBuffer.Strip

namespace SfcTsx.EditBuffer

/-- An offset does not lie inside a character of a piece. -/
def Sits (n : Nat) (ps : List Piece) : Prop :=
  ∀ p ∈ ps, p.start ≤ n → n ≤ p.stop → p.source.isBoundary (n - p.start) = true

theorem Laid.sits {b : EditBuffer} (h : b.Laid) {n : Nat} (hn : b.source.isBoundary n = true) :
    Sits n b.pieces := by
  intro p hp hlo hhi
  obtain ⟨pre, post, hsrc, hpre⟩ := h.placed hp
  rw [hsrc] at hn
  obtain ⟨s, u, hcut, hs⟩ := Text.exists_cut_of_isBoundary hn (by omega) (by rw [hpre]; exact hhi)
  exact Text.isBoundary_iff.mpr ⟨s, u, hcut, by omega⟩

section
variable {p : Piece} {ps : List Piece} {i j k n : Nat} {x y : Text}

theorem reaches_iff : reaches p j = true ↔ p.start < j ∧ j ≤ p.stop := by
  simp [reaches]

theorem slicePiece_of_outside (start : Option Nat) (h : p.stop ≤ j ∨ j ≤ p.start) :
    slicePiece p start j = (if p.start = start.getD p.start then p.intro else []) ++
      p.shown.slice (start.getD p.start - p.start) p.shown.size ++ p.outro := by
  unfold slicePiece
  by_cases hj : reaches p j = true
  · have hstop : p.stop = j := by have := reaches_iff.mp hj; omega
    simp [hj, hstop]
  · simp [hj]

theorem slicePiece_none (h : p.stop ≤ j ∨ j ≤ p.start) : slicePiece p none j = p.render := by
  have hall : p.shown.slice 0 p.shown.size = p.shown := by simpa using Text.slice_head p.shown []
  rw [slicePiece_of_outside none h]
  simp [hall, Piece.render]

theorem slicePiece_append (hplain : p.replacement = none) (hi : p.start ≤ i) (hij : i < j)
    (hj : j < p.stop) (hjk : j < k) (hsi : Sits i [p]) (hsj : Sits j [p]) (hsk : Sits k [p]) :
    slicePiece p (some i) j ++ slicePiece p (some j) k = slicePiece p (some i) k := by
  have hshown : p.shown = p.source := by rw [Piece.shown, hplain, Option.getD_none]
  have hstop : p.stop = p.start + p.source.size := rfl
  have hbi := hsi p (by simp) hi (by omega)
  have hbj := hsj p (by simp) (by omega) (by omega)
  -- the slice up to `k` ends in the piece at `m`
  obtain ⟨m, hm, hbm, hupTo⟩ : ∃ m, j - p.start ≤ m ∧ p.source.isBoundary m = true ∧
      (if reaches p k then p.source.size - (p.stop - k) else p.source.size) = m := by
    by_cases hk : reaches p k = true
    · have := (reaches_iff.mp hk).2
      exact ⟨k - p.start, by omega, hsk p (by simp) (by omega) this, by rw [if_pos hk]; omega⟩
    · exact ⟨p.source.size, by omega, (Text.At.size p.source).isBoundary, if_neg hk⟩
  have hrj : reaches p j = true := reaches_iff.mpr ⟨by omega, by omega⟩
  have hj' : p.source.size - (p.stop - j) = j - p.start := by omega
  have hcut := Text.slice_append hbi hbj hbm (by omega) hm
  have hne : p.start ≠ j := by omega
  have hne' : p.stop ≠ j := by omega
  simp only [slicePiece, Option.getD_some, hshown, hrj, if_true, hj', hupTo, if_neg hne, hne',
    ← hcut, Bool.not_true, Bool.false_or, decide_false, Bool.false_eq_true, if_false,
    List.append_nil, List.nil_append, List.append_assoc]

theorem sliceRest_cons (start : Option Nat) : sliceRest j start (p :: ps) =
    (if reaches p j then
      if p.replacement.isSome && p.stop ≠ j then .error (.sliceAnchor j) else .ok []
    else sliceRest j none ps).map (slicePiece p start j ++ ·) := by
  rw [sliceRest]
  split
  · split
    · rfl
    · simp [Except.map]
  · rfl

theorem sliceSearch_start (hne : p.source ≠ []) :
    sliceSearch p.start j (p :: ps) = sliceRest j none (p :: ps) := by
  have hpos := Text.size_pos hne
  have hin : p.start < p.stop := by simp only [Piece.stop]; omega
  rw [sliceSearch, sliceRest_cons, sliceRest_cons]
  simp [hin, slicePiece]

theorem sliceSearch_of_stop_le (h : p.stop ≤ i) (hij : i < j) :
    sliceSearch i j (p :: ps) = sliceSearch i j ps := by
  have hr : ¬ reaches p j = true := by rw [reaches_iff]; omega
  rw [sliceSearch, if_neg (by simp; omega), if_neg hr]

theorem sliceSearch_of_mem (hlo : p.start ≤ i) (hhi : i < p.stop)
    (h : sliceSearch i j (p :: ps) = .ok x) :
    (p.replacement.isSome && p.start ≠ i) = false ∧ sliceRest j (some i) (p :: ps) = .ok x := by
  rw [sliceSearch, if_pos (by simp [hlo, hhi])] at h
  by_cases ha : (p.replacement.isSome && decide (p.start ≠ i)) = true
  · rw [if_pos ha] at h
    cases h
  · rw [if_neg ha] at h
    exact ⟨by simpa using ha, h⟩

theorem sliceSearch_append (ht : Tiles n ps) (hne : ∀ p ∈ ps, p.source ≠ []) (hni : n ≤ i)
    (hij : i < j) (hjk : j < k) (hk : k ≤ n + Text.size (ps.flatMap Piece.source))
    (hsi : Sits i ps) (hsj : Sits j ps) (hsk : Sits k ps) (hx : sliceSearch i j ps = .ok x)
    (hy : sliceSearch j k ps = .ok y) : sliceSearch i k ps = .ok (x ++ y) := by
  induction ps generalizing n i x with
  | nil => simp at hk; omega
  | cons p ps ih =>
    obtain ⟨rfl, ht⟩ := ht
    have hall {n : Nat} (h : Sits n (p :: ps)) : Sits n [p] ∧ Sits n ps :=
      ⟨fun q hq => h q (by simp_all), fun q hq => h q (by simp [hq])⟩
    have hsize : p.stop + Text.size (ps.flatMap Piece.source) =
        p.start + Text.size ((p :: ps).flatMap Piece.source) := by
      simp only [Piece.stop, List.flatMap_cons, Text.size_append]
      omega
    have hne' : ∀ q ∈ ps, q.source ≠ [] := fun q hq => hne q (by simp [hq])
    by_cases hpi : p.stop ≤ i
    · rw [sliceSearch_of_stop_le hpi hij] at hx
      rw [sliceSearch_of_stop_le (by omega) hjk] at hy
      rw [sliceSearch_of_stop_le hpi (by omega)]
      exact ih ht hne' hpi hij (by omega) (hall hsi).2 (hall hsj).2 (hall hsk).2 hx hy
    · obtain ⟨hanchor, hx⟩ := sliceSearch_of_mem hni (by omega) hx
      have hgoal : sliceSearch i k (p :: ps) = sliceRest k (some i) (p :: ps) := by
        rw [sliceSearch, if_pos (by simp; omega), hanchor]
        rfl
      rw [hgoal]
      by_cases hjp : j < p.stop
      · -- the slices meet inside the piece, which has to show its source there
        have hrj : reaches p j = true := reaches_iff.mpr ⟨by omega, by omega⟩
        obtain ⟨-, hy⟩ := sliceSearch_of_mem (by omega) hjp hy
        have hplain : p.replacement = none := by
          by_contra hr
          have hsome : p.replacement.isSome = true := Option.isSome_iff_ne_none.mpr hr
          rw [sliceRest, if_pos hrj, if_pos (by simp [hsome]; omega)] at hx
          cases hx
        rw [sliceRest, if_pos hrj, if_neg (by simp [hplain])] at hx
        cases hx
        rw [sliceRest_cons] at hy ⊢
        rw [← slicePiece_append hplain hni hij hjp hjk (hall hsi).1 (hall hsj).1 (hall hsk).1]
        generalize (if reaches p k = true then _ else _ : Except EditError Text) = rest at hy ⊢
        cases rest with
        | error e => cases hy
        | ok z =>
          cases hy
          simp [Except.map]
      · rw [sliceSearch_of_stop_le (by omega) hjk] at hy
        have hrk : ¬ reaches p k = true := by rw [reaches_iff]; omega
        rw [sliceRest, if_neg hrk, slicePiece_of_outside _ (by omega)]
        obtain ⟨q, qs, rfl⟩ : ∃ q qs, ps = q :: qs := by
          refine List.exists_cons_of_ne_nil ?_
          rintro rfl
          rw [List.flatMap_nil, Text.size_nil] at hsize
          omega
        have hq : q.start = p.stop := ht.1
        have hrest (m : Nat) : sliceRest m none (q :: qs) = sliceSearch p.stop m (q :: qs) := by
          rw [← hq, sliceSearch_start (hne q (by simp))]
        by_cases hjs : j = p.stop
        · rw [sliceRest, if_pos (reaches_iff.mpr ⟨by omega, by omega⟩), if_neg (by simp [hjs]),
            slicePiece_of_outside _ (by omega)] at hx
          cases hx
          rw [hrest, ← hjs, hy]
          rfl
        · rw [sliceRest, if_neg (by rw [reaches_iff]; omega), slicePiece_of_outside _ (by omega),
            hrest] at hx
          cases hz : sliceSearch p.stop j (q :: qs) with
          | error e => rw [hz] at hx; cases hx
          | ok z =>
            rw [hz] at hx
            cases hx
            have hstart : Sits p.stop (q :: qs) := by
              intro r hr hlo hhi
              have := ht.pairwise.1 r hr
              rw [show p.stop - r.start = 0 by omega]
              exact (Text.At.zero _).isBoundary
            rw [hrest, ih ht hne' (Nat.le_refl _) (by omega) (by omega) hstart (hall hsj).2
              (hall hsk).2 hz hy]
            simp [Except.map]

theorem sliceRest_all (ht : Tiles n ps) (hne : ∀ p ∈ ps, p.source ≠ [])
    (hj : j = n + Text.size (ps.flatMap Piece.source)) :
    sliceRest j none ps = .ok (ps.flatMap Piece.render) := by
  induction ps generalizing n with
  | nil => rfl
  | cons p ps ih =>
    obtain ⟨rfl, ht⟩ := ht
    have hstop : j = p.stop + Text.size (ps.flatMap Piece.source) := by
      rw [hj, List.flatMap_cons, Text.size_append, Piece.stop, Nat.add_assoc]
    have hrest := ih ht (fun q hq => hne q (by simp [hq])) hstop
    rw [sliceRest_cons, slicePiece_none (by omega), hrest]
    split
    next hr =>
      -- nothing comes behind the piece that reaches the end
      have hend : p.stop = j := by have := (reaches_iff.mp hr).2; omega
      cases ps with
      | nil => simp [hend, Except.map]
      | cons q qs =>
        have := Text.size_pos (hne q (by simp))
        simp only [List.flatMap_cons, Text.size_append] at hstop
        omega
    next => simp [Except.map]

theorem sliceRest_zero (ps : List Piece) : sliceRest 0 none ps = .ok (ps.flatMap Piece.render) := by
  induction ps with
  | nil => rfl
  | cons p ps ih =>
    have hr : ¬ reaches p 0 = true := by rw [reaches_iff]; omega
    rw [sliceRest, if_neg hr, ih, slicePiece_none (.inr (Nat.zero_le _))]
    rfl

theorem sliceSearch_of_forall_stop_le (h : ∀ p ∈ ps, p.stop ≤ i) : sliceSearch i j ps = .ok [] := by
  induction ps with
  | nil => rfl
  | cons p ps ih =>
    have hp := h p (by simp)
    rw [sliceSearch, if_neg (by simp; omega), ih fun q hq => h q (by simp [hq]), ite_self]

theorem sliceSearch_self (ht : Tiles n ps) (hni : n < i) (h : sliceSearch i i ps = .ok x) :
    x = [] := by
  induction ps generalizing n with
  | nil =>
    cases h
    rfl
  | cons p ps ih =>
    obtain ⟨rfl, ht⟩ := ht
    by_cases hhi : i < p.stop
    · obtain ⟨hanchor, hx⟩ := sliceSearch_of_mem (Nat.le_of_lt hni) hhi h
      have hplain : p.replacement = none := by simpa [Nat.ne_of_lt hni] using hanchor
      have hr : reaches p i = true := reaches_iff.mpr ⟨hni, Nat.le_of_lt hhi⟩
      rw [sliceRest, if_pos hr, if_neg (by simp [hplain])] at hx
      cases hx
      have hshown : p.shown = p.source := by rw [Piece.shown, hplain, Option.getD_none]
      have hupTo : p.source.size - (p.stop - i) = i - p.start := by
        simp only [Piece.stop] at hhi ⊢
        omega
      have hne : p.start ≠ i := Nat.ne_of_lt hni
      have hne' : p.stop ≠ i := Nat.ne_of_gt hhi
      simp [slicePiece, hr, hshown, hupTo, hne, hne', Text.slice_self]
    · rw [sliceSearch, if_neg (by simp; omega)] at h
      split at h
      next =>
        cases h
        rfl
      next hr =>
        rw [reaches_iff] at hr
        exact ih ht (by omega) h

end

section
variable {b : EditBuffer} {i j : Nat} {x : Text}

theorem slice_eq_ok : slice i j b = .ok x b ↔ i ≤ j ∧ b.source.isBoundary i = true ∧
    b.source.isBoundary j = true ∧ sliceSearch i j b.output = .ok x := by
  simp only [slice, Editing.bind_apply, Editing.get_apply]
  obtain ⟨hnot, e, -, he⟩ | ⟨hle, hi, hj, hok⟩ := checkRange_settled b.source i j
  · rw [he b rfl]
    exact iff_of_false (by simp) fun h => hnot ⟨h.1, h.2.1, h.2.2.1⟩
  · simp only [hok b rfl, hle, hi, hj, true_and]
    cases sliceSearch i j b.output <;> simp

end

/-- In a buffer where nothing was moved, two slices that meet make one, and the slice of the whole source
is the text without what was added at the ends of the output. -/
theorem slice_append_slice {source : Text} (hs : source ≠ []) {os : List Operation}
    (hmoves : ∀ o ∈ os, o.isMove = false) :
    let b := (ofText source).afterAll os
    (∀ (i j k : Nat) (x y : Text), i < j → j < k → slice i j b = .ok x b → slice j k b = .ok y b →
      slice i k b = .ok (x ++ y) b) ∧
      ∃ x, slice 0 source.size b = .ok x b ∧ b.render = b.intro ++ x ++ b.outro := by
  intro b
  obtain ⟨hlaid, hsource, horder, -⟩ : Resting source b := resting_afterAll source hmoves
  have hout : b.output = b.pieces := Visits.output_eq horder
  have hne : ∀ p ∈ b.pieces, p.source ≠ [] := fun p hp =>
    hlaid.source_ne_nil (hsource ▸ hs) hp
  have hsize : 0 + Text.size (b.pieces.flatMap Piece.source) = source.size := by
    rw [hlaid.text, hsource, Nat.zero_add]
  refine ⟨?_, b.pieces.flatMap Piece.render, ?_, by rw [render, hout]⟩
  · intro i j k x y hij hjk hx hy
    obtain ⟨-, hi, hj, hx⟩ := slice_eq_ok.mp hx
    obtain ⟨-, -, hk, hy⟩ := slice_eq_ok.mp hy
    refine slice_eq_ok.mpr ⟨by omega, hi, hk, ?_⟩
    rw [hout] at hx hy ⊢
    have hle := Text.le_size_of_isBoundary hk
    rw [hsource] at hle
    exact sliceSearch_append hlaid.tiles hne (Nat.zero_le i) hij hjk (by omega) (hlaid.sits hi)
      (hlaid.sits hj) (hlaid.sits hk) hx hy
  · refine slice_eq_ok.mpr ⟨Nat.zero_le _, (Text.At.zero _).isBoundary, ?_, ?_⟩
    · rw [hsource]
      exact (Text.At.size source).isBoundary
    · rw [hout]
      obtain ⟨p, ps, hps⟩ := List.exists_cons_of_ne_nil hlaid.some_piece
      have ht := hlaid.tiles
      rw [hps] at ht hne hsize ⊢
      have hall := sliceRest_all ht hne hsize.symm
      rwa [← sliceSearch_start (hne p (by simp)), ht.1] at hall

/-- The slices meet inside a piece that shows its source, behind an insertion and in front of one. -/
theorem slice_append_slice_inside :
    let b := (ofText ['a', 'b', 'é', 'd', 'e', 'f']).afterAll
      [.insertRight 1 ['+'], .overwrite 5 6 ['X', 'Y'], .insertLeft 5 ['-'], .append ['!']]
    slice 1 4 b = .ok ['+', 'b', 'é'] b ∧ slice 4 6 b = .ok ['d', '-', 'X', 'Y'] b ∧
      slice 1 6 b = .ok ['+', 'b', 'é', 'd', '-', 'X', 'Y'] b := by
  intro b
  have hx : slice 1 4 b = .ok ['+', 'b', 'é'] b := rfl
  have hy : slice 4 6 b = .ok ['d', '-', 'X', 'Y'] b := rfl
  exact ⟨hx, hy, (slice_append_slice (by decide) (by decide)).1 1 4 6 _ _ (by decide) (by decide) hx hy⟩

/-- In a buffer where nothing was moved, the slice of an empty range is empty, but for the one at the start
of a source that has any text: that slice shows all of the pieces. -/
theorem slice_of_empty_range (source : Text) {os : List Operation} (hmoves : ∀ o ∈ os, o.isMove = false) :
    let b := (ofText source).afterAll os
    (∀ (i : Nat) (x : Text), 0 < i → slice i i b = .ok x b → x = []) ∧
      slice 0 0 b = .ok (if source = [] then [] else b.output.flatMap Piece.render) b := by
  intro b
  obtain ⟨hlaid, hsource, horder, -⟩ : Resting source b := resting_afterAll source hmoves
  have hout : b.output = b.pieces := Visits.output_eq horder
  refine ⟨?_, ?_⟩
  · intro i x hi hx
    obtain ⟨-, -, -, hx⟩ := slice_eq_ok.mp hx
    rw [hout] at hx
    exact sliceSearch_self hlaid.tiles hi hx
  · have hzero : b.source.isBoundary 0 = true := (Text.At.zero _).isBoundary
    refine slice_eq_ok.mpr ⟨Nat.le_refl _, hzero, hzero, ?_⟩
    rw [hout]
    split
    next hs =>
      refine sliceSearch_of_forall_stop_le fun p hp => ?_
      have hle := hlaid.stop_le hp
      rwa [hsource, hs] at hle
    next hs =>
      obtain ⟨p, ps, hps⟩ := List.exists_cons_of_ne_nil hlaid.some_piece
      have hp := hlaid.source_ne_nil (hsource ▸ hs) (show p ∈ b.pieces by simp [hps])
      have hstart : p.start = 0 := (hps ▸ hlaid.tiles : Tiles 0 (p :: ps)).1
      rw [hps, ← sliceRest_zero, ← sliceSearch_start hp, hstart]

/-- Inside a piece and between two pieces, with insertions on both sides. -/
theorem slice_of_empty_range_between :
    let b := (ofText ['a', 'b', 'é', 'd']).afterAll [.insertRight 1 ['+'], .insertLeft 1 ['-']]
    b.render = ['a', '-', '+', 'b', 'é', 'd'] ∧ (slice 1 1 b = .ok [] b ∧ slice 2 2 b = .ok [] b) ∧
      ∀ x, slice 1 1 b = .ok x b ∨ slice 2 2 b = .ok x b → x = [] := by
  intro b
  have hmoves : ∀ o ∈ [Operation.insertRight 1 ['+'], .insertLeft 1 ['-']], o.isMove = false := by
    decide
  have h := (slice_of_empty_range ['a', 'b', 'é', 'd'] hmoves).1
  exact ⟨rfl, ⟨rfl, rfl⟩, fun x hx => hx.elim (h 1 x (by decide)) (h 2 x (by decide))⟩

/-- The slice of the empty range at the start is the whole text. -/
theorem slice_zero_zero_whole :
    slice 0 0 (ofText ['a', 'b']) = .ok ['a', 'b'] (ofText ['a', 'b']) := rfl

end SfcTsx.EditBuffer
