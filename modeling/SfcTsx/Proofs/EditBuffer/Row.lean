import SfcTsx.Proofs.EditBuffer.Strip

namespace SfcTsx

variable {s e : Nat}

/-- Characters in source order, none of them across a boundary of the source. -/
structure Row (source : Text) (cs : List Cell) : Prop where
  sorted : cs.Pairwise fun c d => c.stop ≤ d.start
  sited : Operation.Sited source cs

namespace Cell

section
variable {A : List Cell} (hsorted : A.Pairwise fun c d => c.stop ≤ d.start) (g : Cell → Text)
include hsorted

theorem flatMap_first (hfirst : A.head?.map start = some s) (f : Cell → Text) :
    (A.flatMap fun c => (if c.start = s then f c else []) ++ g c) =
      (A.flatMap fun c => if c.start = s then f c else []) ++ A.flatMap g := by
  cases A with
  | nil => rfl
  | cons c A =>
    obtain ⟨hlater, -⟩ := List.pairwise_cons.mp hsorted
    have hlt := c.start_lt_stop
    have hc : c.start = s := Option.some.inj hfirst
    have hothers : ∀ d ∈ A, (if d.start = s then f d else []) = [] := by
      intro d hd
      have := hlater d hd
      exact if_neg (by omega)
    have hrest : (A.flatMap fun d => (if d.start = s then f d else []) ++ g d) = A.flatMap g :=
      List.flatMap_congr fun d hd => by rw [hothers d hd, List.nil_append]
    rw [List.flatMap_cons, List.flatMap_cons, List.flatMap_cons, hrest,
      List.flatMap_eq_nil_iff.mpr hothers]
    simp

theorem flatMap_last (hlast : A.getLast?.map stop = some e) (f : Cell → Text) :
    (A.flatMap fun c => g c ++ if c.stop = e then f c else []) =
      A.flatMap g ++ A.flatMap fun c => if c.stop = e then f c else [] := by
  obtain rfl | ⟨l, c, rfl⟩ := A.eq_nil_or_concat
  · rfl
  · rw [List.concat_eq_append] at hsorted hlast ⊢
    rw [List.getLast?_concat] at hlast
    have hc : c.stop = e := Option.some.inj hlast
    have hlt := c.start_lt_stop
    have hothers : ∀ d ∈ l, (if d.stop = e then f d else []) = [] := by
      intro d hd
      have := (List.pairwise_append.mp hsorted).2.2 d hd c (by simp)
      exact if_neg (by omega)
    have hrest : (l.flatMap fun d => g d ++ if d.stop = e then f d else []) = l.flatMap g :=
      List.flatMap_congr fun d hd => by rw [hothers d hd, List.append_nil]
    simp only [List.flatMap_append, List.flatMap_singleton, hrest, List.flatMap_eq_nil_iff.mpr hothers,
      List.nil_append, List.append_assoc]

end

end Cell

namespace Row

section
variable {source : Text} {cs : List Cell} (h : Row source cs)
include h

theorem filter (f : Cell → Bool) : Row source (cs.filter f) :=
  ⟨h.sorted.filter f, fun c hc => h.sited c (List.mem_of_mem_filter hc)⟩

theorem append_at (n : Nat) : cs.filter (·.start < n) ++ cs.filter (n ≤ ·.start) = cs := by
  induction cs with
  | nil => rfl
  | cons c cs ih =>
    obtain ⟨hlater, hsorted⟩ := List.pairwise_cons.mp h.sorted
    have hrest := ih ⟨hsorted, fun d hd => h.sited d (by simp [hd])⟩
    have hlt := c.start_lt_stop
    by_cases hc : n ≤ c.start
    · have hge : ∀ d ∈ c :: cs, n ≤ d.start := by
        intro d hd
        rcases List.mem_cons.mp hd with rfl | hd
        · exact hc
        · have := hlater d hd
          omega
      rw [List.filter_eq_nil_iff.mpr fun d hd => by simpa using hge d hd,
        List.filter_eq_self.mpr fun d hd => by simpa using hge d hd, List.nil_append]
    · rw [List.filter_cons_of_pos (by simpa using hc), List.filter_cons_of_neg (by simpa using hc),
        List.cons_append, hrest]

theorem append_range (he : source.isBoundary e = true) (hle : s ≤ e) :
    cs.filter (·.start < s) ++ (cs.filter (Cell.isIn s e) ++ cs.filter (e ≤ ·.start)) = cs := by
  have hrest := (h.filter (s ≤ ·.start)).append_at e
  have hin : (cs.filter (s ≤ ·.start)).filter (·.start < e) = cs.filter (Cell.isIn s e) := by
    rw [List.filter_filter]
    refine List.filter_congr fun c hc => ?_
    have := h.sited c hc e he
    have := c.start_lt_stop
    rw [Bool.eq_iff_iff]
    simp only [Cell.isIn_iff, Bool.and_eq_true, decide_eq_true_eq]
    omega
  have hbehind : (cs.filter (s ≤ ·.start)).filter (e ≤ ·.start) = cs.filter (e ≤ ·.start) := by
    rw [List.filter_filter]
    refine List.filter_congr fun c _ => ?_
    rw [Bool.eq_iff_iff]
    simp only [Bool.and_eq_true, decide_eq_true_eq]
    omega
  rw [hin, hbehind] at hrest
  rw [hrest, h.append_at s]

theorem run (he : source.isBoundary e = true) (hle : s ≤ e) {A U V : List Cell}
    (hA : cs.filter (Cell.isIn s e) = A) (hfirst : A.head?.map Cell.start = some s)
    (hlast : A.getLast?.map Cell.stop = some e) (hU : ∀ c ∈ U, c.isIn s e = false)
    (hV : ∀ c ∈ V, c.isIn s e = false) :
    EditBuffer.Run s e (U ++ (cs ++ V)) (U ++ cs.filter (·.start < s)) A
      (cs.filter (e ≤ ·.start) ++ V) := by
  subst hA
  refine ⟨?_, fun c hc => (List.mem_filter.mp hc).2, ?_, ?_, hfirst, hlast⟩
  · nth_rewrite 1 [← h.append_range he hle]
    simp
  · intro c hc
    rcases List.mem_append.mp hc with hc | hc
    · exact hU c hc
    · have hc : c.start < s := by simpa using (List.mem_filter.mp hc).2
      exact Cell.isIn_eq_false_iff.mpr (.inl hc)
  · intro c hc
    rcases List.mem_append.mp hc with hc | hc
    · have hc : e ≤ c.start := by simpa using (List.mem_filter.mp hc).2
      exact Cell.isIn_eq_false_iff.mpr (.inr (Nat.lt_of_le_of_lt hc c.start_lt_stop))
    · exact hV c hc

end

end Row

namespace EditBuffer

section
variable {source : Text} {b : EditBuffer}

theorem Resting.cuts {b' : EditBuffer} (h : Resting source b) (hc : Cuts b b') : Resting source b' :=
  ⟨hc.laid h.laid, hc.frame.1.trans h.source_eq, h.order.cuts h.laid hc, h.linked.cuts h.laid hc⟩

theorem Resting.map_cells (h : Resting source b) {α : Type} {f : Cell → α}
    (hf : ∀ (p : Piece) (c : Cell), f (p.paint c) = f c) :
    b.cells.map f = (Text.cells 0 source).map f := by
  rw [cells, Visits.output_eq h.order, h.laid.tiles.map_cells hf, h.laid.text, h.source_eq]

theorem Resting.row (h : Resting source b) : Row source b.cells := by
  have hmap := h.map_cells (f := fun c => (c.start, c.stop)) fun _ _ => rfl
  constructor
  · refine (List.pairwise_map (f := fun c : Cell => (c.start, c.stop))
      (R := fun x y => x.2 ≤ y.1)).mp ?_
    rw [hmap]
    exact List.pairwise_map.mpr (Text.apart_cells 0 source)
  · intro c hc n hn
    have hm : (c.start, c.stop) ∈ (Text.cells 0 source).map fun c => (c.start, c.stop) :=
      hmap ▸ List.mem_map_of_mem hc
    obtain ⟨d, hd, heq⟩ := List.mem_map.mp hm
    obtain ⟨h1, h2⟩ := Prod.mk.inj heq
    rw [← h1, ← h2]
    exact Operation.sited_cells source d hd n hn

theorem Resting.run (h : Resting source b) (hs : source.isBoundary s = true)
    (he : source.isBoundary e = true) (hlt : s < e) :
    Run s e b.cells (b.cells.filter (·.start < s)) (b.cells.filter (Cell.isIn s e))
      (b.cells.filter (e ≤ ·.start)) := by
  obtain ⟨P, A, Q, hrun, -⟩ := Operation.run_cells hs he hlt
  have hmap : (b.cells.filter (Cell.isIn s e)).map (fun c => (c.start, c.stop)) =
      A.map fun c => (c.start, c.stop) := by
    have hall := congrArg (List.filter fun x : Nat × Nat => s ≤ x.1 && x.2 ≤ e)
      (h.map_cells (f := fun c => (c.start, c.stop)) fun _ _ => rfl)
    rw [List.filter_map, List.filter_map] at hall
    exact hall.trans (congrArg _ hrun.filter_in)
  have hfirst : (b.cells.filter (Cell.isIn s e)).head?.map Cell.start = some s := by
    have hhead := congrArg (fun l => l.head?.map Prod.fst) hmap
    simp only [List.head?_map, Option.map_map] at hhead
    exact hhead.trans hrun.first
  have hlast : (b.cells.filter (Cell.isIn s e)).getLast?.map Cell.stop = some e := by
    have hlast := congrArg (fun l => l.getLast?.map Prod.snd) hmap
    simp only [List.getLast?_map, Option.map_map] at hlast
    exact hlast.trans hrun.last
  simpa using h.row.run (U := []) (V := []) he (Nat.le_of_lt hlt) rfl hfirst hlast (by simp) (by simp)

theorem cells_logged (b : EditBuffer) (r : EditRecord) : (b.logged r).cells = b.cells := by
  rw [cells, (painted_logged b r).output, List.map_id, cells]

end

end EditBuffer
end SfcTsx
