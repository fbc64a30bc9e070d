import SfcTsx.Proofs.EditBuffer.Cells
import Mathlib.Data.List.Sort

namespace SfcTsx

variable {s e : Nat} {cs : List Cell} {o : Operation} {ns : List Nat}

namespace Operation

def offsets : Operation → List Nat
  | .insertLeft n _ | .prependRight n _ => [n]
  | .remove s e | .overwrite s e _ => [s, e]
  | .moveRange s e d => [s, e, d]
  | _ => []

/-- An edit in place or a move, within a source. -/
structure Fits (source : Text) (o : Operation) : Prop where
  boundary : ∀ n ∈ o.offsets, source.isBoundary n = true
  placed : match o with
    | .insertLeft n _ => 0 < n
    | .prependRight n _ => n < source.size
    | .remove s e => s ≤ e
    | .overwrite s e _ => s < e
    | .moveRange s e d => s < e ∧ (d < s ∨ e < d ∧ d < source.size)
    | _ => False

/-- A move finds its range together and its destination apart from it. -/
def Ready (cs : List Cell) : Operation → Prop
  | .moveRange s e d => ∃ P A Q, EditBuffer.Run s e cs P A Q ∧ EditBuffer.Lands d P Q
  | _ => True

end Operation

namespace EditBuffer

/-- A buffer over a source that shows these cells and nothing at its ends. -/
structure Live (source : Text) (b : EditBuffer) (cs : List Cell) : Prop where
  laid : b.Laid
  linked : b.Linked
  source_eq : b.source = source
  cells_eq : b.cells = cs
  intro_eq : b.intro = []
  outro_eq : b.outro = []

theorem ofText_live (source : Text) : Live source (ofText source) (Text.cells 0 source) :=
  ⟨ofText_laid source, ofText_linked source, rfl, ofText_cells source, rfl, rfl⟩

section
variable {source : Text} {b b' : EditBuffer} {cs : List Cell} (h : Live source b cs)
include h

theorem Live.render_eq (hne : source ≠ []) : b.render = cs.flatMap Cell.render := by
  rw [h.laid.render_eq_cells (h.source_eq ▸ hne), h.cells_eq, h.intro_eq, h.outro_eq]
  simp

theorem Live.cuts (hc : Cuts b b') : Live source b' cs := by
  obtain ⟨hsource, -, hintro, houtro, -⟩ := hc.frame
  exact ⟨hc.laid h.laid, h.linked.cuts h.laid hc, hsource.trans h.source_eq,
    (h.linked.cells_cuts h.laid hc).trans h.cells_eq, hintro.trans h.intro_eq,
    houtro.trans h.outro_eq⟩

theorem Live.logged (r : EditRecord) : Live source (b.logged r) cs := by
  have hp := painted_logged b r
  refine ⟨hp.laid h.laid, h.linked.painted hp, h.source_eq, ?_, h.intro_eq, h.outro_eq⟩
  rw [cells, hp.output, List.map_id]
  exact h.cells_eq

theorem Live.painted {f : Piece → Piece} {cs' : List Cell} (hp : Painted f b b')
    (hcells : b'.cells = cs') (hintro : b'.intro = b.intro)
    (houtro : b'.outro = b.outro) : Live source b' cs' :=
  ⟨hp.laid h.laid, h.linked.painted hp, hp.source.trans h.source_eq, hcells,
    hintro.trans h.intro_eq, houtro.trans h.outro_eq⟩

theorem Live.stroke {k : Stroke} (hne : source ≠ []) (hk : o.stroke? = some k) (hdrop : k.Drops)
    (hintro : ∀ t, k.paintIntro t = t) (houtro : ∀ t, k.paintOutro source.size t = t) (htint : ∀ c, o.paint c = k.tint c)
    (hok : o.run b = .ok () b') : Live source b' (cs.map o.paint) := by
  cases h.laid.stroked (h.source_eq ▸ hne) hk with
  | refused e b₁ run cuts => cases run.symm.trans hok
  | broken b₁ b₂ e start stop p ps cuts laid within broken run => cases run.symm.trans hok
  | idle n eq run =>
    obtain rfl := (EStateM.Result.ok.inj (run.symm.trans hok)).2
    have hnone : cs.map o.paint = cs := by
      refine (List.map_congr_left fun c _ => ?_).trans (List.map_id _)
      have := c.start_lt_stop
      have hout : c.isIn n n = false := by
        rw [Cell.isIn_eq_false_iff]
        omega
      simp [eq, Operation.paint, hout]
    rwa [hnone]
  | made b₁ r cuts laid start stop proper run =>
    obtain rfl := (EStateM.Result.ok.inj (run.symm.trans hok)).2
    have h₁ := h.cuts cuts
    have hcells := laid.cells_stroke start stop hdrop
    rw [h₁.cells_eq, ← List.map_congr_left fun c _ => htint c] at hcells
    rw [← h₁.source_eq] at houtro
    exact (h₁.painted (painted_stroke b₁ k) hcells (hintro _) (houtro _)).logged r

/-- An edit that is carried out does to the output what it does to the cells. -/
theorem Live.step (hne : source ≠ []) (hf : o.Fits source) (hr : o.Ready cs)
    (hok : o.run b = .ok () b') : Live source b' (o.apply cs) := by
  obtain ⟨hb, hplaced⟩ := hf
  cases o with
  | insertLeft n text =>
    refine h.stroke hne rfl trivial (fun t => ?_) (fun _ => rfl) (fun _ => rfl) hok
    exact (Stroke.paintIntro_left n _ t).trans (if_neg (Nat.ne_of_gt hplaced))
  | prependRight n text =>
    exact h.stroke hne rfl trivial (fun _ => rfl) (fun _ => if_neg (Nat.ne_of_lt hplaced))
      (fun _ => rfl) hok
  | remove s e =>
    refine h.stroke hne rfl rfl (fun _ => rfl) (fun _ => rfl) (fun c => ?_) hok
    simp [Operation.paint, Stroke.tint, Cell.hide]
  | overwrite s e text =>
    exact h.stroke hne rfl rfl (fun _ => rfl) (fun _ => rfl) (fun _ => rfl) hok
  | moveRange s e d =>
    obtain ⟨P, A, Q, hrun, hland⟩ := hr
    obtain ⟨e', b₁, he, -⟩ | ⟨hle, hout, hc, hl, hs, he, hd, hmove⟩ := h.laid.moveRange_cases s e d
    · cases he.symm.trans hok
    · obtain rfl := (EStateM.Result.ok.inj (hmove.symm.trans hok)).2
      have h₁ := (h.cuts hc).logged ⟨.move d, ⟨s, e⟩, none⟩
      rw [← h₁.cells_eq] at hrun
      obtain ⟨hlink, hw, hcells⟩ := h₁.linked.cells_relocate h₁.laid (h₁.source_eq ▸ hne) hs he hd
        hrun hland
      rw [h₁.cells_eq] at hcells
      exact ⟨hw.laid h₁.laid, hlink, hw.source.trans h₁.source_eq, hcells,
        hw.intro.trans h₁.intro_eq, hw.outro.trans h₁.outro_eq⟩
  | _ => exact hplaced.elim

end

theorem Run.paint {P A Q : List Cell} (h : Run s e cs P A Q) (o : Operation) :
    Run s e (cs.map o.paint) (P.map o.paint) (A.map o.paint) (Q.map o.paint) := by
  have hin : ∀ c : Cell, (o.paint c).isIn s e = c.isIn s e := fun c => by simp [Cell.isIn]
  refine ⟨by simp [h.eq], ?_, ?_, ?_, ?_, ?_⟩
  · simpa [hin] using h.inside
  · simpa [hin] using h.before
  · simpa [hin] using h.behind
  · simpa [Function.comp_def] using h.first
  · simpa [Function.comp_def] using h.last

end EditBuffer

namespace Operation

open EditBuffer (Run Lands)

def Sited (source : Text) (cs : List Cell) : Prop :=
  ∀ c ∈ cs, ∀ n, source.isBoundary n = true → n ≤ c.start ∨ c.stop ≤ n

theorem mem_relocate {d : Nat} {c : Cell} (h : c ∈ relocate s e d cs) : c ∈ cs := by
  obtain ⟨x, hx, hc⟩ := List.mem_flatMap.mp h
  split at hc
  · cases hc
  · split at hc
    · rcases List.mem_append.mp hc with hc | hc
      · exact (List.mem_filter.mp hc).1
      · rwa [List.mem_singleton.mp hc]
    · rwa [List.mem_singleton.mp hc]

theorem Sited.apply {source : Text} (h : Sited source cs) (o : Operation) :
    Sited source (o.apply cs) := by
  have hpaint : Sited source (cs.map o.paint) := by
    intro c hc n hn
    obtain ⟨x, hx, rfl⟩ := List.mem_map.mp hc
    simpa using h x hx n hn
  cases o with
  | moveRange s e d => exact fun c hc => h c (mem_relocate hc)
  | _ => exact hpaint

def Off (s e n : Nat) : Prop := n < s ∨ e ≤ n

/-- A range that a move neither takes from nor puts into. -/
def Apart (s e d s' e' : Nat) : Prop := (e ≤ s' ∨ e' ≤ s) ∧ (d ≤ s' ∨ e' ≤ d)

/-- A move does not break up what a later edit wants to find together. -/
def Orderly : Operation → Operation → Prop
  | .moveRange s e d, .moveRange s' e' d' =>
    (Apart s e d s' e' ∨ s' < s ∧ e < e' ∧ s' < d ∧ d < e') ∧ Off s e s' ∧ Off s e d' ∧
      (s' < d' → Off s e e')
  | .moveRange s e d, .overwrite s' e' _ => Apart s e d s' e'
  | _, _ => True

/-- What an edit needs is in place: the characters of its range stand together, in the order of the
source if they are to be overwritten, and a move knows on which side its destination lies. -/
def Poised (cs : List Cell) : Operation → Prop
  | .moveRange s e d => (∃ P A Q, Run s e cs P A Q) ∧
    (d < s ∧ [d, s].Sublist (cs.map Cell.start) ∨ e < d ∧ [s, e, d].Sublist (cs.map Cell.start))
  | .overwrite s e _ => ∃ P A Q, Run s e cs P A Q ∧ A.Pairwise fun c c' => c.start < c'.start
  | _ => True

theorem mem_of_pair_sublist {l r : List Nat} {x y : Nat} (hn : (l ++ y :: r).Nodup)
    (h : [x, y].Sublist (l ++ y :: r)) : x ∈ l := by
  have hy : y ∉ r := (List.nodup_cons.mp (List.nodup_append.mp hn).2.1).1
  obtain ⟨l₁, l₂, heq, h₁, h₂⟩ := List.sublist_append_iff.mp h
  cases l₁ with
  | cons z l₁ =>
    obtain ⟨rfl, -⟩ := List.cons.inj heq
    exact h₁.subset (by simp)
  | nil =>
    obtain rfl : l₂ = [x, y] := heq.symm
    have hr : [y].Sublist r := by
      rcases List.sublist_cons_iff.mp h₂ with h₂ | ⟨l₃, heq, h₃⟩
      · exact (List.sublist_cons_self _ _).trans h₂
      · obtain ⟨-, rfl⟩ := List.cons.inj heq
        exact h₃
    exact absurd (hr.subset (by simp)) hy

theorem Poised.ready (h : o.Poised cs) (hn : (cs.map Cell.start).Nodup) : o.Ready cs := by
  cases o with
  | moveRange s e d =>
    obtain ⟨⟨P, A, Q, hrun⟩, hside⟩ := h
    refine ⟨P, A, Q, hrun, ?_⟩
    obtain ⟨a, A, rfl⟩ : ∃ a A', A = a :: A' :=
      List.exists_cons_of_ne_nil fun h0 => by simpa [h0] using hrun.first
    obtain rfl : a.start = s := by simpa using hrun.first
    have hbehind : ∀ n, e ≤ n → n ∉ (a :: A).map Cell.start := by
      intro n hle hm
      obtain ⟨c, hc, rfl⟩ := List.mem_map.mp hm
      have := (Cell.isIn_iff.mp (hrun.inside c hc)).2
      have := c.start_lt_stop
      omega
    rw [hrun.eq, List.map_append, List.map_append] at hn hside
    rcases hside with ⟨-, hsub⟩ | ⟨hlt, hsub⟩
    · exact .inl (by simpa using mem_of_pair_sublist hn hsub)
    · right
      have hs : a.start ∉ P.map Cell.start := fun hs =>
        (List.nodup_append.mp hn).2.2 _ hs a.start (by simp) rfl
      -- what comes behind the run's first character is not in front of the run
      have hP : ∀ n, [a.start, n].Sublist
          (P.map Cell.start ++ ((a :: A).map Cell.start ++ Q.map Cell.start)) →
            n ∉ P.map Cell.start := by
        intro n hsub hm
        obtain ⟨P₁, P₂, hP⟩ := List.append_of_mem hm
        rw [hP, List.append_assoc, List.cons_append] at hn hsub
        exact hs (hP ▸ List.mem_append_left _ (mem_of_pair_sublist hn hsub))
      have hse : [a.start, e].Sublist [a.start, e, d] := by simp
      have hsd : [a.start, d].Sublist [a.start, e, d] := by simp
      have hed : [e, d].Sublist [a.start, e, d] := by simp
      constructor
      · have hd : d ∈ _ := hsub.subset (show d ∈ [a.start, e, d] by simp)
        rcases List.mem_append.mp hd with hd | hd
        · exact absurd hd (hP d (hsd.trans hsub))
        · rcases List.mem_append.mp hd with hd | hd
          · exact absurd hd (hbehind d (by omega))
          · simpa using hd
      · intro hhead
        cases Q with
        | nil => cases hhead
        | cons c Q =>
          obtain rfl : c.start = d := by simpa using hhead
          rw [← List.append_assoc, List.map_cons] at hn hsub
          rcases List.mem_append.mp (mem_of_pair_sublist hn (hed.trans hsub)) with he | he
          · refine hP e ?_ he
            rw [← List.append_assoc, List.map_cons]
            exact hse.trans hsub
          · exact hbehind e (Nat.le_refl e) he
  | _ => trivial

section
variable {s e d s' e' : Nat} {cs P A Q : List Cell} {source : Text}

/-- What a move does to one character, given the characters of its range. -/
def passing (s e d : Nat) (moved : List Cell) (c : Cell) : List Cell :=
  if c.isIn s e then [] else if c.start = d then moved ++ [c] else [c]

theorem relocate_append (cs P A Q : List Cell) (h : cs = P ++ (A ++ Q)) :
    relocate s e d cs = P.flatMap (passing s e d (cs.filter (Cell.isIn s e))) ++
      (A.flatMap (passing s e d (cs.filter (Cell.isIn s e))) ++
        Q.flatMap (passing s e d (cs.filter (Cell.isIn s e)))) := by
  have hdef : relocate s e d cs = cs.flatMap (passing s e d (cs.filter (Cell.isIn s e))) := rfl
  rw [hdef]
  generalize cs.filter (Cell.isIn s e) = moved
  rw [h, List.flatMap_append, List.flatMap_append]

theorem flatMap_passing {moved : List Cell} (hin : ∀ c ∈ cs, c.isIn s e = false)
    (hd : ∀ c ∈ cs, c.start ≠ d) : cs.flatMap (passing s e d moved) = cs := by
  have hone : ∀ c ∈ cs, passing s e d moved c = [c] := fun c hc => by
    simp [passing, hin c hc, hd c hc]
  rw [List.flatMap_congr hone, List.flatMap_singleton']

theorem run_relocate_apart (h : Run s' e' cs P A Q) (hn : (cs.map Cell.start).Nodup)
    (ha : Apart s e d s' e') : ∃ P' Q', Run s' e' (relocate s e d cs) P' A Q' := by
  obtain ⟨hrange, hdest⟩ := ha
  have hin : ∀ c ∈ A, c.isIn s e = false := by
    intro c hc
    have := Cell.isIn_iff.mp (h.inside c hc)
    have := c.start_lt_stop
    rw [Cell.isIn_eq_false_iff]
    omega
  have hmoved : ∀ c ∈ cs.filter (Cell.isIn s e), c.isIn s' e' = false := by
    intro c hc
    have := Cell.isIn_iff.mp (List.mem_filter.mp hc).2
    have := c.start_lt_stop
    rw [Cell.isIn_eq_false_iff]
    omega
  have hout : ∀ R : List Cell, (∀ c ∈ R, c.isIn s' e' = false) →
      ∀ c ∈ R.flatMap (passing s e d (cs.filter (Cell.isIn s e))), c.isIn s' e' = false := by
    intro R hR c hc
    obtain ⟨x, hx, hc⟩ := List.mem_flatMap.mp hc
    unfold passing at hc
    split at hc
    · cases hc
    · split at hc
      · rcases List.mem_append.mp hc with hc | hc
        · exact hmoved c hc
        · rw [List.mem_singleton.mp hc]
          exact hR x hx
      · rw [List.mem_singleton.mp hc]
        exact hR x hx
  have heq := relocate_append (s := s) (e := e) (d := d) cs P A Q h.eq
  generalize cs.filter (Cell.isIn s e) = moved at hmoved hout heq
  obtain ⟨a, A, rfl⟩ : ∃ a A', A = a :: A' :=
    List.exists_cons_of_ne_nil fun h0 => by simpa [h0] using h.first
  have ha : a.start = s' := by simpa using h.first
  have hA : ∀ c ∈ A, c.start ≠ d := by
    intro c hc hcd
    have hrun := Cell.isIn_iff.mp (h.inside c (by simp [hc]))
    have := c.start_lt_stop
    have hsame : c.start = a.start := by omega
    rw [h.eq, List.map_append, List.map_append, List.map_cons] at hn
    have hn' := (List.nodup_append.mp (List.nodup_append.mp hn).2.1).1
    exact (List.nodup_cons.mp hn').1 (hsame ▸ List.mem_map_of_mem hc)
  by_cases had : a.start = d
  · refine ⟨P.flatMap (passing s e d moved) ++ moved, Q.flatMap (passing s e d moved), ?_,
      h.inside, ?_, hout Q h.behind, h.first, h.last⟩
    · rw [heq, List.flatMap_cons, flatMap_passing (fun c hc => hin c (by simp [hc])) hA]
      simp [passing, hin a (by simp), had]
    · intro c hc
      rcases List.mem_append.mp hc with hc | hc
      · exact hout P h.before c hc
      · exact hmoved c hc
  · refine ⟨P.flatMap (passing s e d moved), Q.flatMap (passing s e d moved), ?_,
      h.inside, hout P h.before, hout Q h.behind, h.first, h.last⟩
    rw [heq, flatMap_passing hin]
    intro c hc
    rcases List.mem_cons.mp hc with rfl | hc
    · exact had
    · exact hA c hc

theorem run_relocate_inside (h : Run s' e' cs P A Q) (hsited : Sited source cs)
    (he : source.isBoundary e = true) (he' : source.isBoundary e' = true) (hs : s' < s)
    (hlt : e < e') (hd : s' < d) (hd' : d < e') : ∃ A', Run s' e' (relocate s e d cs) P A' Q := by
  have hfar : ∀ R : List Cell, (∀ c ∈ R, c ∈ cs) → (∀ c ∈ R, c.isIn s' e' = false) →
      (∀ c ∈ R, c.isIn s e = false) ∧ ∀ c ∈ R, c.start ≠ d := by
    intro R hR hout
    have hcase : ∀ c ∈ R, c.start < s' ∨ e' ≤ c.start := by
      intro c hc
      have hno := hout c hc
      rw [Cell.isIn_eq_false_iff] at hno
      have := hsited c (hR c hc) e' he'
      omega
    constructor
    · intro c hc
      have := hcase c hc
      have := c.start_lt_stop
      rw [Cell.isIn_eq_false_iff]
      omega
    · intro c hc hcd
      have := hcase c hc
      omega
  have heq := relocate_append (s := s) (e := e) (d := d) cs P A Q h.eq
  have hmem : ∀ c, c ∈ P ∨ c ∈ A ∨ c ∈ Q → c ∈ cs := by
    intro c hc
    rw [h.eq]
    simpa using hc
  obtain ⟨hP, hP'⟩ := hfar P (fun c hc => hmem c (.inl hc)) h.before
  obtain ⟨hQ, hQ'⟩ := hfar Q (fun c hc => hmem c (.inr (.inr hc))) h.behind
  rw [flatMap_passing hP hP', flatMap_passing hQ hQ'] at heq
  have hmoved : ∀ c ∈ cs.filter (Cell.isIn s e), c.isIn s' e' = true := by
    intro c hc
    have := Cell.isIn_iff.mp (List.mem_filter.mp hc).2
    rw [Cell.isIn_iff]
    omega
  generalize cs.filter (Cell.isIn s e) = moved at heq hmoved
  have hstay : ∀ c ∈ A, c.isIn s e = false → c.start ≠ d → passing s e d moved c = [c] := by
    intro c _ hin hne
    simp [passing, hin, hne]
  refine ⟨_, heq, ?_, h.before, h.behind, ?_, ?_⟩
  · intro c hc
    obtain ⟨x, hx, hc⟩ := List.mem_flatMap.mp hc
    unfold passing at hc
    split at hc
    · cases hc
    · split at hc
      · rcases List.mem_append.mp hc with hc | hc
        · exact hmoved c hc
        · rw [List.mem_singleton.mp hc]
          exact h.inside x hx
      · rw [List.mem_singleton.mp hc]
        exact h.inside x hx
  · obtain ⟨a, A, rfl⟩ : ∃ a A', A = a :: A' :=
      List.exists_cons_of_ne_nil fun h0 => by simpa [h0] using h.first
    have ha : a.start = s' := by simpa using h.first
    have hin : a.isIn s e = false := by
      rw [Cell.isIn_eq_false_iff]
      omega
    rw [List.flatMap_cons, hstay a (by simp) hin (by omega)]
    simpa using ha
  · obtain rfl | ⟨A', a, rfl⟩ := A.eq_nil_or_concat
    · exact absurd h.first (by simp)
    · rw [List.concat_eq_append] at *
      have ha : a.stop = e' := by simpa using h.last
      have hcut := hsited a (hmem a (by simp)) e he
      have hin : a.isIn s e = false := by
        rw [Cell.isIn_eq_false_iff]
        omega
      rw [List.flatMap_append, List.flatMap_singleton]
      have hlast : (passing s e d moved a).getLast? = some a := by
        unfold passing
        rw [if_neg (by simp [hin])]
        split <;> simp
      simp [List.getLast?_append, hlast, ha]

theorem sublist_relocate (h : ns.Sublist (cs.map Cell.start)) (hoff : ∀ n ∈ ns, Off s e n) :
    ns.Sublist ((relocate s e d cs).map Cell.start) := by
  obtain ⟨l, hl, rfl⟩ := List.sublist_map_iff.mp h
  refine List.Sublist.map _ ?_
  have hstay : ∀ c ∈ l, c.isIn s e = false := by
    intro c hc
    have := hoff c.start (List.mem_map_of_mem hc)
    have := c.start_lt_stop
    unfold Off at *
    rw [Cell.isIn_eq_false_iff]
    omega
  have hdef : relocate s e d cs = cs.flatMap (passing s e d (cs.filter (Cell.isIn s e))) := rfl
  rw [hdef]
  generalize cs.filter (Cell.isIn s e) = moved
  clear hdef h hoff
  induction hl with
  | slnil => exact List.Sublist.slnil
  | cons c _ ih =>
    rw [List.flatMap_cons]
    exact (ih hstay).trans (List.sublist_append_right _ _)
  | cons_cons c _ ih =>
    rw [List.flatMap_cons, ← List.singleton_append]
    refine List.Sublist.append ?_ (ih fun x hx => hstay x (by simp [hx]))
    unfold passing
    rw [if_neg (by simp [hstay c (by simp)])]
    split <;> simp

theorem Poised.apply {o' : Operation} (h : o'.Poised cs) (hn : (cs.map Cell.start).Nodup)
    (hsited : Sited source cs) (hf : o.Fits source) (hf' : o'.Fits source) (ho : o.Orderly o') :
    o'.Poised (o.apply cs) := by
  have hpaint : o'.Poised (cs.map o.paint) := by
    have hstarts : (cs.map o.paint).map Cell.start = cs.map Cell.start := by simp [Function.comp_def]
    cases o' with
    | moveRange s' e' d' =>
      obtain ⟨⟨P, A, Q, hrun⟩, hside⟩ := h
      exact ⟨⟨_, _, _, hrun.paint o⟩, hstarts ▸ hside⟩
    | overwrite s' e' text =>
      obtain ⟨P, A, Q, hrun, hsorted⟩ := h
      exact ⟨_, _, _, hrun.paint o, List.pairwise_map.mpr (by simpa using hsorted)⟩
    | _ => trivial
  cases o with
  | moveRange s e d =>
    cases o' with
    | moveRange s' e' d' =>
      obtain ⟨⟨P, A, Q, hrun⟩, hside⟩ := h
      obtain ⟨hkeep, hs', hd', he'⟩ := ho
      constructor
      · rcases hkeep with ha | ⟨h₁, h₂, h₃, h₄⟩
        · obtain ⟨P', Q', hrun'⟩ := run_relocate_apart hrun hn ha
          exact ⟨P', A, Q', hrun'⟩
        · obtain ⟨A', hrun'⟩ := run_relocate_inside hrun hsited (hf.boundary e (by simp [offsets]))
            (hf'.boundary e' (by simp [offsets])) h₁ h₂ h₃ h₄
          exact ⟨P, A', Q, hrun'⟩
      · refine hside.imp (fun h => ⟨h.1, sublist_relocate h.2 ?_⟩)
          fun h => ⟨h.1, sublist_relocate h.2 ?_⟩
        · simp [hs', hd']
        · have hlt : s' < e' := hf'.placed.1
          simp [hs', hd', he' (by omega)]
    | overwrite s' e' text =>
      obtain ⟨P, A, Q, hrun, hsorted⟩ := h
      obtain ⟨P', Q', hrun'⟩ := run_relocate_apart hrun hn ho
      exact ⟨P', A, Q', hrun', hsorted⟩
    | _ => trivial
  | _ => exact hpaint

end

section
variable {source : Text}

theorem cells_cut (hs : source.isBoundary s = true) (he : source.isBoundary e = true)
    (hle : s ≤ e) : ∃ x y z, source = x ++ (y ++ z) ∧ Text.size x = s ∧ s + Text.size y = e ∧
      Text.cells 0 source = Text.cells 0 x ++ (Text.cells s y ++ Text.cells e z) := by
  obtain ⟨t, ht⟩ := Text.At.of_isBoundary hs
  obtain ⟨z, hz⟩ := Text.At.of_isBoundary he
  obtain ⟨y, rfl, rfl⟩ := ht.between hz hle
  obtain ⟨x, rfl, rfl⟩ := ht
  exact ⟨x, y, z, rfl, rfl, rfl, by simp [Text.cells_append]⟩

theorem run_cells (hs : source.isBoundary s = true) (he : source.isBoundary e = true)
    (hlt : s < e) : ∃ P A Q, Run s e (Text.cells 0 source) P A Q ∧
      A.Pairwise fun c c' => c.start < c'.start := by
  obtain ⟨x, y, z, -, hx, hy, heq⟩ := cells_cut hs he (Nat.le_of_lt hlt)
  have hne : y ≠ [] := by
    rintro rfl
    simp only [Text.size_nil] at hy
    omega
  refine ⟨_, _, _, ⟨heq, ?_, ?_, ?_, Text.head?_cells s hne, ?_⟩, Text.pairwise_cells s y⟩
  · intro c hc
    have := Text.mem_cells hc
    rw [Cell.isIn_iff]
    omega
  · intro c hc
    have := Text.mem_cells hc
    have := c.start_lt_stop
    rw [Cell.isIn_eq_false_iff]
    omega
  · intro c hc
    have := Text.mem_cells hc
    have := c.start_lt_stop
    rw [Cell.isIn_eq_false_iff]
    omega
  · rw [Text.getLast?_cells s hne, hy]

theorem mem_starts {n : Nat} (hn : source.isBoundary n = true) (hlt : n < source.size) :
    n ∈ (Text.cells 0 source).map Cell.start := by
  obtain ⟨t, x, rfl, rfl⟩ := Text.At.of_isBoundary hn
  cases t with
  | nil => simp at hlt
  | cons c t => simp [Text.cells_append, Text.cells]

theorem sublist_starts (hsorted : ns.Pairwise (· < ·))
    (hns : ∀ n ∈ ns, source.isBoundary n = true ∧ n < source.size) :
    ns.Sublist ((Text.cells 0 source).map Cell.start) := by
  have hcells : ((Text.cells 0 source).map Cell.start).Pairwise (· < ·) :=
    List.pairwise_map.mpr (Text.pairwise_cells 0 source)
  have hsub : ns ⊆ (Text.cells 0 source).map Cell.start := fun n hn =>
    mem_starts (hns n hn).1 (hns n hn).2
  have hnodup : ns.Nodup := hsorted.imp fun h => Nat.ne_of_lt h
  exact List.sublist_of_subperm_of_pairwise (hnodup.subperm hsub) (hsorted.imp Nat.le_of_lt)
    (hcells.imp Nat.le_of_lt)

theorem Fits.poised (h : o.Fits source) : o.Poised (Text.cells 0 source) := by
  obtain ⟨hb, hplaced⟩ := h
  cases o with
  | moveRange s e d =>
    obtain ⟨hlt, hside⟩ := hplaced
    have hs := hb s (by simp [offsets])
    have he := hb e (by simp [offsets])
    have hd := hb d (by simp [offsets])
    have hle := Text.le_size_of_isBoundary he
    obtain ⟨P, A, Q, hrun, -⟩ := run_cells hs he hlt
    refine ⟨⟨P, A, Q, hrun⟩, hside.imp (fun h => ⟨h, sublist_starts ?_ ?_⟩)
      fun h => ⟨h.1, sublist_starts ?_ ?_⟩⟩
    · simpa using h
    · simp only [List.mem_cons, List.not_mem_nil, or_false, forall_eq_or_imp, forall_eq]
      exact ⟨⟨hd, by omega⟩, hs, by omega⟩
    · simp only [List.pairwise_cons, List.mem_cons, List.not_mem_nil, or_false, forall_eq_or_imp,
        forall_eq]
      exact ⟨⟨hlt, by omega⟩, h.1, by simp⟩
    · simp only [List.mem_cons, List.not_mem_nil, or_false, forall_eq_or_imp, forall_eq]
      exact ⟨⟨hs, by omega⟩, ⟨he, by omega⟩, hd, h.2⟩
  | overwrite s e text =>
    exact run_cells (hb s (by simp [offsets])) (hb e (by simp [offsets])) hplaced
  | _ => trivial

theorem sited_cells (source : Text) : Sited source (Text.cells 0 source) := by
  intro c hc n hn
  obtain ⟨t, ht⟩ := Text.At.of_isBoundary hn
  obtain ⟨x, rfl, rfl⟩ := ht
  rw [Text.cells_append] at hc
  rcases List.mem_append.mp hc with hc | hc
  · exact .inr (by simpa using (Text.mem_cells hc).2)
  · exact .inl (by simpa using (Text.mem_cells hc).1)

end

end Operation

namespace EditBuffer

open Operation (Sited)

section
variable {source : Text} {b b' : EditBuffer} {cs : List Cell} {os : List Operation}

theorem Live.perform (h : Live source b cs) (hne : source ≠ []) (hs : Sited source cs)
    (hf : ∀ o ∈ os, o.Fits source) (hp : ∀ o ∈ os, o.Poised cs)
    (horder : os.Pairwise Operation.Orderly) (hok : perform os b = .ok () b') :
    Live source b' (Operation.applyAll cs os) := by
  induction os generalizing b cs with
  | nil =>
    obtain rfl := (EStateM.Result.ok.inj hok).2
    exact h
  | cons o os ih =>
    simp only [EditBuffer.perform, Editing.bind_apply] at hok
    cases hrun : o.run b with
    | error e b₁ =>
      rw [hrun] at hok
      cases hok
    | ok _ b₁ =>
      rw [hrun] at hok
      have hn : (cs.map Cell.start).Nodup := h.cells_eq ▸ h.linked.nodup_cells h.laid
      have h₁ := h.step hne (hf o (by simp)) ((hp o (by simp)).ready hn) hrun
      obtain ⟨ho, horder⟩ := List.pairwise_cons.mp horder
      refine ih h₁ (hs.apply o) (fun o' ho' => hf o' (by simp [ho'])) ?_ horder hok
      intro o' ho'
      exact (hp o' (by simp [ho'])).apply hn hs (hf o (by simp)) (hf o' (by simp [ho'])) (ho o' ho')

/-- What edits that do not get in each other's way make of a source. -/
theorem render_perform (hne : source ≠ []) (hf : ∀ o ∈ os, o.Fits source)
    (horder : os.Pairwise Operation.Orderly) (hok : EditBuffer.perform os (ofText source) = .ok () b') :
    b'.render = (Operation.applyAll (Text.cells 0 source) os).flatMap Cell.render :=
  ((ofText_live source).perform hne (Operation.sited_cells source) hf (fun o ho => (hf o ho).poised)
    horder hok).render_eq hne

end
end EditBuffer
end SfcTsx
