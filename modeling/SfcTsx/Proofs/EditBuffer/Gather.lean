import SfcTsx.Proofs.EditBuffer.Row

namespace SfcTsx

variable {c : Cell} {r : Span}

namespace Cell

variable {ranges : List Span}

def isOutside (ranges : List Span) (c : Cell) : Bool := !ranges.any fun r => c.isIn r.start r.stop

/-- Characters with those of some ranges brought together in front of an offset. -/
def gather (d : Nat) (ranges : List Span) (cs : List Cell) : List Cell :=
  (cs.filter (·.start < d)).filter (isOutside ranges) ++
    (ranges.flatMap (fun r => cs.filter (isIn r.start r.stop)) ++
      (cs.filter (d ≤ ·.start)).filter (isOutside ranges))

theorem isOutside_iff :
    c.isOutside ranges = true ↔ ∀ r ∈ ranges, c.isIn r.start r.stop = false := by
  simp [isOutside]

theorem isIn_of_apart {r' : Span} (h : r'.stop ≤ r.start ∨ r.stop ≤ r'.start)
    (hc : c.isIn r.start r.stop = true) : c.isIn r'.start r'.stop = false := by
  have hlt := c.start_lt_stop
  rw [isIn_iff] at hc
  exact isIn_eq_false_iff.mpr (by omega)

section
variable (cs : List Cell) (hapart : ∀ r' ∈ ranges, r'.stop ≤ r.start ∨ r.stop ≤ r'.start)
include hapart

theorem isIn_of_mem_moved : ∀ c ∈ ranges.flatMap (fun r => cs.filter (isIn r.start r.stop)),
    c.isIn r.start r.stop = false := by
  intro c hc
  obtain ⟨r', hr', hc⟩ := List.mem_flatMap.mp hc
  exact isIn_of_apart (hapart r' hr').symm (List.mem_filter.mp hc).2

theorem filter_isIn_unmoved {f : Cell → Bool}
    (hf : ∀ c : Cell, c.isIn r.start r.stop = true → f c = true) :
    ((cs.filter f).filter (isOutside ranges)).filter (isIn r.start r.stop) =
      cs.filter (isIn r.start r.stop) := by
  rw [List.filter_filter, List.filter_filter]
  refine List.filter_congr fun c _ => ?_
  cases hc : c.isIn r.start r.stop with
  | false => rfl
  | true =>
    have hout : c.isOutside ranges = true := isOutside_iff.mpr fun r' hr' =>
      isIn_of_apart (hapart r' hr') hc
    rw [hf c hc, hout]
    rfl

theorem filter_gather (d : Nat) : (gather d ranges cs).filter (fun c => !c.isIn r.start r.stop) =
      (cs.filter (·.start < d)).filter (isOutside (ranges ++ [r])) ++
        (ranges.flatMap (fun r => cs.filter (isIn r.start r.stop)) ++
          (cs.filter (d ≤ ·.start)).filter (isOutside (ranges ++ [r]))) := by
  have hone (l : List Cell) : (l.filter (isOutside ranges)).filter (fun c => !c.isIn r.start r.stop) =
      l.filter (isOutside (ranges ++ [r])) := by
    rw [List.filter_filter]
    exact List.filter_congr fun c _ => by simp [isOutside, Bool.and_comm]
  have hmoved : ∀ c ∈ ranges.flatMap (fun r => cs.filter (isIn r.start r.stop)),
      (!c.isIn r.start r.stop) = true := fun c hc => by simp [isIn_of_mem_moved cs hapart c hc]
  rw [gather, List.filter_append, List.filter_append, List.filter_eq_self.mpr hmoved, hone,
    hone]

end

theorem isOutside_of_off {d : Nat} (hoff : ∀ r ∈ ranges, ¬ (r.start ≤ d ∧ d ≤ r.stop))
    (hc : c.start = d ∨ c.stop = d) : c.isOutside ranges = true := by
  refine isOutside_iff.mpr fun r hr => ?_
  have := hoff r hr
  have := c.start_lt_stop
  exact isIn_eq_false_iff.mpr (by omega)

end Cell

theorem Row.exists_cons {source : Text} {cs : List Cell} (h : Row source cs) {d : Nat}
    (hge : ∀ c ∈ cs, d ≤ c.start) (hd : ∃ c ∈ cs, c.start = d) :
    ∃ c rest, cs = c :: rest ∧ c.start = d ∧ ∀ x ∈ rest, x.start ≠ d := by
  obtain ⟨c, hc, hcd⟩ := hd
  cases cs with
  | nil => cases hc
  | cons x rest =>
    obtain ⟨hlater, -⟩ := List.pairwise_cons.mp h.sorted
    have hlt := x.start_lt_stop
    have hx := hge x (by simp)
    refine ⟨x, rest, rfl, ?_, fun y hy => ?_⟩
    · rcases List.mem_cons.mp hc with rfl | hc
      · exact hcd
      · have := hlater c hc
        omega
    · have := hlater y hy
      omega

namespace EditBuffer

theorem Linked.cells_relocate_end {b : EditBuffer} (h : b.Laid) (hne : b.source ≠ []) {s e : Nat}
    (hs : b.IsEdge s) (he : b.IsEdge e) (hl : b.Linked) {P A Q : List Cell}
    (hrun : Run s e b.cells P A Q) (hQ : Q ≠ []) :
    (b.relocate s e b.source.size).Linked ∧ Rewired b (b.relocate s e b.source.size) ∧
      (b.relocate s e b.source.size).cells = P ++ (Q ++ A) := by
  obtain ⟨l₁, l₂, l₃, first, last, hmem, h₁, h₂, h₃, hat, hend, hA, hA', hring⟩ :=
    hrun.exists_ring h hne hs he hl
  have hnone : b.startingAt? b.source.size = none := by
    refine Option.eq_none_iff_forall_ne_some.mpr fun p hp => ?_
    obtain ⟨hp, hps⟩ := h.startingAt?_eq_some.mp hp
    have hpos := Text.size_pos (h.source_ne_nil hne hp)
    have hle := h.stop_le hp
    rw [Piece.stop] at hle
    omega
  have hreloc : b.relocate s e b.source.size = b.relink first.start last.start none := by
    simp [relocate, hat, hend, hnone]
  have hw := rewired_relink b first.start last.start none
  rw [hreloc]
  let S : List Piece → List (Option Nat) := fun l => l.map fun p => some p.start
  have hl₃ : S l₃ ≠ [] := by
    rintro hnil
    obtain rfl : l₃ = [] := by simpa [S] using hnil
    exact hQ h₃.symm
  have hsplit : b.Ring (S l₂ ++ S l₃ ++ (none :: S l₁)) := by
    have hrot : b.Ring ((none :: S l₁) ++ (S l₂ ++ S l₃)) := by simpa [S] using hring
    simpa using hrot.rotate
  have hnew := hsplit.splice hA hA' hl₃ rfl
  have hspliced : (b.relink first.start last.start none).Ring
      (none :: ((l₁ ++ (l₃ ++ l₂)).map Piece.start).map some) := by
    have hback : (b.relink first.start last.start none).Ring (S l₂ ++ ((none :: S l₁) ++ S l₃)) := by
      simpa using hnew
    simpa [S, Function.comp_def] using hback.rotate
  refine ⟨hspliced.linked (hw.laid h), hw, ?_⟩
  have hsub : ∀ p ∈ l₁ ++ (l₃ ++ l₂), p ∈ b.pieces := by
    intro p hp
    refine hmem p ?_
    simp only [List.mem_append] at hp ⊢
    tauto
  rw [hw.cells_eq h hsub hspliced.map_start_output, List.flatMap_append, List.flatMap_append, h₁, h₂,
    h₃]

section
variable {source : Text} {b : EditBuffer} (h : Resting source b) {d : Nat}
  (hd : source.isBoundary d = true) {ranges : List Span}
  (hoff : ∀ r ∈ ranges, ¬ (r.start ≤ d ∧ d ≤ r.stop))
include h hd hoff

theorem Resting.exists_start (hlt : d < source.size) :
    ∃ c ∈ (b.cells.filter (d ≤ ·.start)).filter (Cell.isOutside ranges), c.start = d := by
  have hmem : d ∈ b.cells.map Cell.start := by
    rw [h.map_cells fun _ _ => rfl]
    exact Operation.mem_starts hd hlt
  obtain ⟨c, hc, hcd⟩ := List.mem_map.mp hmem
  refine ⟨c, List.mem_filter.mpr ⟨List.mem_filter.mpr ⟨hc, ?_⟩, ?_⟩, hcd⟩
  · simpa using Nat.le_of_eq hcd.symm
  · exact Cell.isOutside_of_off hoff (.inl hcd)

theorem Resting.exists_stop (hpos : 0 < d) :
    ∃ c ∈ (b.cells.filter (·.start < d)).filter (Cell.isOutside ranges), c.stop = d := by
  have hlast := (h.run (Text.At.zero source).isBoundary hd hpos).last
  obtain ⟨c, hc, hcd⟩ := Option.map_eq_some_iff.mp hlast
  have hlt := c.start_lt_stop
  refine ⟨c, List.mem_filter.mpr ⟨List.mem_filter.mpr ⟨?_, ?_⟩, ?_⟩, hcd⟩
  · exact (List.mem_filter.mp (List.mem_of_getLast? hc)).1
  · simpa using by omega
  · exact Cell.isOutside_of_off hoff (.inr hcd)

theorem Resting.run_gather (hs : source.isBoundary r.start = true)
    (he : source.isBoundary r.stop = true) (hlt : r.start < r.stop)
    (hr : ¬ (r.start ≤ d ∧ d ≤ r.stop))
    (hapart : ∀ r' ∈ ranges, r'.stop ≤ r.start ∨ r.stop ≤ r'.start) :
    ∃ P Q, Run r.start r.stop (Cell.gather d ranges b.cells) P
        (b.cells.filter (Cell.isIn r.start r.stop)) Q ∧
      (d < source.size → Lands d P Q) ∧ (d = source.size → Q ≠ []) := by
  have hrun := h.run hs he hlt
  have hrow := h.row
  let X := (b.cells.filter (·.start < d)).filter (Cell.isOutside ranges)
  let M := ranges.flatMap fun r => b.cells.filter (Cell.isIn r.start r.stop)
  let Y := (b.cells.filter (d ≤ ·.start)).filter (Cell.isOutside ranges)
  have hX : Row source X := (hrow.filter _).filter _
  have hY : Row source Y := (hrow.filter _).filter _
  have hM : ∀ c ∈ M, c.isIn r.start r.stop = false := Cell.isIn_of_mem_moved _ hapart
  have hXd : ∀ c ∈ X, c.start < d ∧ c.stop ≤ d := by
    intro c hc
    have hc' := (List.mem_filter.mp hc).1
    have hlo : c.start < d := by simpa using (List.mem_filter.mp hc').2
    have := hrow.sited c (List.mem_filter.mp hc').1 d hd
    omega
  have hYd : ∀ c ∈ Y, d ≤ c.start := by
    intro c hc
    simpa using (List.mem_filter.mp (List.mem_filter.mp hc).1).2
  by_cases hside : r.stop < d
  · have hA := Cell.filter_isIn_unmoved (f := (·.start < d)) b.cells hapart fun c hc => by
      have := Cell.isIn_iff.mp hc
      have := c.start_lt_stop
      simpa using by omega
    have hMY : ∀ c ∈ M ++ Y, c.isIn r.start r.stop = false := by
      intro c hc
      rcases List.mem_append.mp hc with hc | hc
      · exact hM c hc
      · have := hYd c hc
        have := c.start_lt_stop
        exact Cell.isIn_eq_false_iff.mpr (by omega)
    -- The character in front of the destination lies between the range and it.
    obtain ⟨c, hc, hcd⟩ := h.exists_stop hd hoff (by omega)
    have hcQ : c ∈ X.filter (r.stop ≤ ·.start) := by
      refine List.mem_filter.mpr ⟨hc, ?_⟩
      have := hX.sited c hc r.stop he
      simpa using by omega
    obtain ⟨x, xs, hxs⟩ := List.exists_cons_of_ne_nil (List.ne_nil_of_mem hcQ)
    refine ⟨_, _, hX.run (U := []) he (Nat.le_of_lt hlt) hA hrun.first hrun.last (by simp) hMY,
      fun hd' => .inr ⟨?_, ?_⟩, ?_⟩
    · obtain ⟨y, hy, hyd⟩ := h.exists_start hd hoff hd'
      exact ⟨y, List.mem_append_right _ (List.mem_append_right _ hy), hyd⟩
    · have := (hXd x (List.mem_filter.mp (hxs ▸ List.mem_cons_self)).1).1
      rw [hxs]
      simpa using by omega
    · rintro -
      rw [hxs]
      simp
  · have hA := Cell.filter_isIn_unmoved (f := (d ≤ ·.start)) b.cells hapart fun c hc => by
      have := Cell.isIn_iff.mp hc
      simpa using by omega
    have hXM : ∀ c ∈ X ++ M, c.isIn r.start r.stop = false := by
      intro c hc
      rcases List.mem_append.mp hc with hc | hc
      · have := hXd c hc
        exact Cell.isIn_eq_false_iff.mpr (by omega)
      · exact hM c hc
    have hsize : d < source.size := by
      have := Text.le_size_of_isBoundary hs
      omega
    have hall := hY.run (V := []) he (Nat.le_of_lt hlt) hA hrun.first hrun.last hXM (by simp)
    rw [List.append_nil, List.append_assoc] at hall
    refine ⟨_, _, hall, fun _ => .inl ?_, fun heq => by omega⟩
    obtain ⟨y, hy, hyd⟩ := h.exists_start hd hoff hsize
    exact ⟨y, List.mem_append_right _ (List.mem_filter.mpr ⟨hy, by simpa using by omega⟩), hyd⟩

end

/-- A buffer in which some ranges of another one were brought to an offset. -/
structure Gathered (source : Text) (b₀ : EditBuffer) (d : Nat) (ranges : List Span) (b : EditBuffer) :
    Prop where
  laid : b.Laid
  linked : b.Linked
  source_eq : b.source = source
  intro_eq : b.intro = b₀.intro
  outro_eq : b.outro = b₀.outro
  cells_eq : b.cells = Cell.gather d ranges b₀.cells
  off : ∀ r ∈ ranges, ¬ (r.start ≤ d ∧ d ≤ r.stop)

section
variable {source : Text} {b₀ b b' : EditBuffer} {d : Nat} {ranges : List Span}
  (h : Gathered source b₀ d ranges b)
include h

theorem Gathered.cuts (hc : Cuts b b') : Gathered source b₀ d ranges b' := by
  obtain ⟨hsource, -, hintro, houtro, -⟩ := hc.frame
  exact ⟨hc.laid h.laid, h.linked.cuts h.laid hc, hsource.trans h.source_eq, hintro.trans h.intro_eq,
    houtro.trans h.outro_eq, (h.linked.cells_cuts h.laid hc).trans h.cells_eq, h.off⟩

theorem Gathered.logged (r : EditRecord) : Gathered source b₀ d ranges (b.logged r) :=
  ⟨(painted_logged b r).laid h.laid, h.linked.painted (painted_logged b r), h.source_eq, h.intro_eq,
    h.outro_eq, (cells_logged b r).trans h.cells_eq, h.off⟩

section
variable (hne : source ≠ []) (h₀ : Resting source b₀)
include hne h₀

theorem Gathered.relocate (hs : b.IsEdge r.start) (he : b.IsEdge r.stop)
    (hd : b.IsEdge d) (hlt : r.start < r.stop)
    (hr : ¬ (r.start ≤ d ∧ d ≤ r.stop))
    (hapart : ∀ r' ∈ ranges, r'.stop ≤ r.start ∨ r.stop ≤ r'.start) :
    Gathered source b₀ d (ranges ++ [r]) (b.relocate r.start r.stop d) := by
  have hbd := h.source_eq ▸ h.laid.isBoundary_of_isEdge hd
  obtain ⟨P, Q, hrun, hland, hend⟩ := h₀.run_gather hbd h.off
    (h.source_eq ▸ h.laid.isBoundary_of_isEdge hs) (h.source_eq ▸ h.laid.isBoundary_of_isEdge he) hlt
    hr hapart
  have hoff : ∀ r' ∈ ranges ++ [r], ¬ (r'.start ≤ d ∧ d ≤ r'.stop) := by
    intro r' hr'
    rcases List.mem_append.mp hr' with hr' | hr'
    · exact h.off r' hr'
    · rwa [List.mem_singleton.mp hr']
  have hstay := Cell.filter_gather b₀.cells hapart d
  rw [← h.cells_eq] at hrun hstay
  have hne' : b.source ≠ [] := h.source_eq ▸ hne
  suffices hmoved : (b.relocate r.start r.stop d).Linked ∧ Rewired b (b.relocate r.start r.stop d) ∧
      (b.relocate r.start r.stop d).cells = Cell.gather d (ranges ++ [r]) b₀.cells by
    obtain ⟨hl, hw, hcells⟩ := hmoved
    exact ⟨hw.laid h.laid, hl, hw.source.trans h.source_eq, hw.intro.trans h.intro_eq,
      hw.outro.trans h.outro_eq, hcells, hoff⟩
  rw [Cell.gather, List.flatMap_append, List.flatMap_singleton]
  rcases Nat.lt_or_eq_of_le (h.source_eq ▸ h.laid.edge_le hd) with hlt' | heq
  · obtain ⟨hl, hw, hcells⟩ := h.linked.cells_relocate h.laid hne' hs he hd hrun (hland hlt')
    refine ⟨hl, hw, ?_⟩
    obtain ⟨c, rest, hrest, hcd, hothers⟩ := ((h₀.row.filter (d ≤ ·.start)).filter _).exists_cons
      (fun c hc => by simpa using (List.mem_filter.mp (List.mem_filter.mp hc).1).2)
      (h₀.exists_start hbd hoff hlt')
    rw [hrest, ← List.append_assoc] at hstay
    rw [hcells, Operation.relocate_eq hstay hcd ?_ hothers, hrun.filter_in, hrest]
    · simp
    · intro x hx hxd
      rcases List.mem_append.mp hx with hx | hx
      · have hlt : x.start < d := by simpa using (List.mem_filter.mp (List.mem_filter.mp hx).1).2
        omega
      · obtain ⟨r', hr', hx⟩ := List.mem_flatMap.mp hx
        have hout := Cell.isOutside_iff.mp (Cell.isOutside_of_off h.off (.inl hxd)) r' hr'
        rw [(List.mem_filter.mp hx).2] at hout
        cases hout
  · obtain ⟨hl, hw, hcells⟩ := h.linked.cells_relocate_end h.laid hne' hs he hrun (hend heq)
    rw [show b.source.size = d by rw [h.source_eq, heq]] at hl hw hcells
    refine ⟨hl, hw, ?_⟩
    have hnone : b₀.cells.filter (d ≤ ·.start) = [] := by
      refine List.filter_eq_nil_iff.mpr fun c hc => ?_
      have hstart : c.start ∈ (Text.cells 0 source).map Cell.start := by
        rw [← h₀.map_cells fun _ _ => rfl]
        exact List.mem_map_of_mem hc
      obtain ⟨x, hx, hxc⟩ := List.mem_map.mp hstart
      have := (Text.mem_cells hx).2
      have := x.start_lt_stop
      simp only [decide_eq_true_eq]
      omega
    have hpq := hrun.filter_out.symm.trans hstay
    rw [hnone, List.filter_nil, List.append_nil] at hpq ⊢
    rw [hcells, ← List.append_assoc, hpq, List.append_assoc]

theorem Gathered.move (hlt : r.start < r.stop)
    (hapart : ∀ r' ∈ ranges, r'.stop ≤ r.start ∨ r.stop ≤ r'.start)
    (hok : moveRange r.start r.stop d b = .ok () b') : Gathered source b₀ d (ranges ++ [r]) b' := by
  obtain ⟨e, b₁, hb, -⟩ | ⟨-, hr, hc, -, hs, he, hd, hb⟩ := h.laid.moveRange_cases r.start r.stop d
  · rw [hb] at hok
    cases hok
  · rw [hb] at hok
    obtain rfl := (EStateM.Result.ok.inj hok).2
    exact ((h.cuts hc).logged _).relocate hne h₀ hs he hd hlt hr hapart

theorem Gathered.perform {rs : List Span} (hlt : ∀ r ∈ rs, r.start < r.stop)
    (hapart : (ranges ++ rs).Pairwise fun r r' => r.stop ≤ r'.start ∨ r'.stop ≤ r.start)
    (hok : perform (rs.map fun r => .moveRange r.start r.stop d) b = .ok () b') :
    Gathered source b₀ d (ranges ++ rs) b' := by
  induction rs generalizing b ranges with
  | nil =>
    obtain rfl := (EStateM.Result.ok.inj hok).2
    rwa [List.append_nil]
  | cons r rs ih =>
    obtain ⟨hr, hlt⟩ := List.forall_mem_cons.mp hlt
    simp only [List.map_cons, EditBuffer.perform, Editing.bind_apply] at hok
    cases hmove : Operation.run (.moveRange r.start r.stop d) b with
    | error e b₁ =>
      rw [hmove] at hok
      cases hok
    | ok _ b₁ =>
      rw [hmove] at hok
      have hbefore : ∀ r' ∈ ranges, r'.stop ≤ r.start ∨ r.stop ≤ r'.start := fun r' hr' =>
        (List.pairwise_append.mp hapart).2.2 r' hr' r (by simp)
      rw [List.append_cons] at hapart ⊢
      exact ih (h.move hne h₀ hr hbefore hmove) hlt hapart hok

end

end

/-- Moves of ranges apart from each other to one place, on a buffer in which nothing was moved before:
what they move stands in front of that place in the order of the moves, each range with all that is
stuck to its characters, and the other characters stay where they were. -/
theorem render_moves {source : Text} (hne : source ≠ []) {os : List Operation}
    (hos : ∀ o ∈ os, o.isMove = false) {d : Nat} {ranges : List Span}
    (hlt : ∀ r ∈ ranges, r.start < r.stop)
    (hapart : ranges.Pairwise fun r r' => r.stop ≤ r'.start ∨ r'.stop ≤ r.start) {b' : EditBuffer}
    (hok : perform (ranges.map fun r => .moveRange r.start r.stop d) ((ofText source).afterAll os) =
      .ok () b') :
    let b := (ofText source).afterAll os
    b.cells.map Cell.start = (Text.cells 0 source).map Cell.start ∧
      b.render = b.intro ++ b.cells.flatMap Cell.render ++ b.outro ∧
      b'.render = b.intro ++ (Cell.gather d ranges b.cells).flatMap Cell.render ++ b.outro := by
  intro b
  have hrest : Resting source b := resting_afterAll source hos
  have hnone : Cell.gather d [] b.cells = b.cells := by
    have hall : ∀ cs : List Cell, cs.filter (Cell.isOutside []) = cs := fun cs =>
      List.filter_eq_self.mpr fun _ _ => rfl
    rw [Cell.gather, hall, hall]
    exact hrest.row.append_at d
  have hstart : Gathered source b d [] b :=
    ⟨hrest.laid, hrest.linked, hrest.source_eq, rfl, rfl, hnone.symm, by simp⟩
  have hend := hstart.perform hne hrest hlt hapart hok
  refine ⟨hrest.map_cells fun _ _ => rfl, hrest.laid.render_eq_cells (hrest.source_eq.symm ▸ hne), ?_⟩
  rw [hend.laid.render_eq_cells (hend.source_eq.symm ▸ hne), hend.intro_eq, hend.outro_eq,
    hend.cells_eq, List.nil_append]

/-- Ranges from both sides of the destination, two of which touch. -/
theorem render_moves_both_sides :
    let b := (ofText ['a', 'b', 'c', 'd', 'e', 'f', 'g', 'h']).afterAll
      [.insertRight 5 ['('], .insertLeft 6 [')'], .append ['!']]
    let ranges : List Span := [⟨5, 6⟩, ⟨1, 2⟩, ⟨6, 8⟩]
    ∃ b', perform (ranges.map fun r => .moveRange r.start r.stop 4) b = .ok () b' ∧
      b.render = ['a', 'b', 'c', 'd', 'e', '(', 'f', ')', 'g', 'h', '!'] ∧
      b'.render = ['a', 'c', 'd', '(', 'f', ')', 'b', 'g', 'h', 'e', '!'] := by
  intro b ranges
  have hsome : ((perform (ranges.map fun r => .moveRange r.start r.stop 4)).run' b).isSome = true := by
    decide +kernel
  cases hok : perform (ranges.map fun r => .moveRange r.start r.stop 4) b with
  | error e b' =>
    delta EStateM.run' EStateM.run at hsome
    rw [hok] at hsome
    cases hsome
  | ok u b' =>
    obtain ⟨-, hold, hnew⟩ := render_moves (by decide) (by decide) (by decide) (by decide) hok
    exact ⟨b', rfl, hold.trans (by decide +kernel), hnew.trans (by decide +kernel)⟩

end EditBuffer
end SfcTsx
