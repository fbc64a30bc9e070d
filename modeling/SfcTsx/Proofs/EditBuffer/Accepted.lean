import SfcTsx.Proofs.EditBuffer.Perform

namespace SfcTsx

namespace Operation

def covers : Operation → List Span
  | .overwrite s e _ => [⟨s, e⟩]
  | _ => []

/-- A later edit cuts nowhere inside of what an earlier one replaced. -/
def Spares (o o' : Operation) : Prop :=
  ∀ r ∈ o.covers, ∀ n ∈ o'.offsets, n ≤ r.start ∨ r.stop ≤ n

end Operation

namespace EditBuffer

/-- Texts stand only in place of these ranges. -/
def Covered (rs : List Span) (b : EditBuffer) : Prop :=
  ∀ p ∈ b.pieces, p.replacement.getD [] ≠ [] → ∃ r ∈ rs, r.start ≤ p.start ∧ p.stop ≤ r.stop

section
variable {rs : List Span} {b b' : EditBuffer}

theorem Covered.cuts (h : Covered rs b) (hl : b.Laid) (hc : Cuts b b') : Covered rs b' := by
  refine (hc.keep ?_ hl h).2
  intro b₁ p offset h₁ hc₁ hcov r hr hne
  obtain rfl | rfl | ⟨q, hq, -, rfl⟩ := (h₁.mem_cutAt hc₁).mp hr
  · exact absurd hc₁.plain (by simpa [cutPiece] using hne)
  · exfalso
    cases hp : p.replacement <;> simp [cutPiece, hp] at hne
  · simpa using hcov q hq (by simpa using hne)

theorem Covered.map {f : Piece → Piece} (h : Covered rs b) (hp : b'.pieces = b.pieces.map f)
    (hf : ∀ p ∈ b.pieces, (f p).start = p.start ∧ (f p).stop = p.stop)
    (hnew : ∀ p ∈ b.pieces, (f p).replacement.getD [] ≠ [] → p.replacement.getD [] = [] →
      ∃ r ∈ rs, r.start ≤ p.start ∧ p.stop ≤ r.stop) : Covered rs b' := by
  intro q hq hne
  rw [hp] at hq
  obtain ⟨p, hpm, rfl⟩ := List.mem_map.mp hq
  rw [(hf p hpm).1, (hf p hpm).2]
  by_cases hold : p.replacement.getD [] = []
  · exact hnew p hpm hne hold
  · exact h p hpm hold

theorem Covered.mono {rs' : List Span} (h : Covered rs b) (hsub : ∀ r ∈ rs, r ∈ rs') :
    Covered rs' b := by
  intro p hp hne
  obtain ⟨r, hr, hle⟩ := h p hp hne
  exact ⟨r, hsub r hr, hle⟩

theorem Covered.rewired (h : Covered rs b) (hw : Rewired b b') : Covered rs b' := by
  obtain ⟨f, hf, hlinks⟩ := hw.pieces
  refine h.map hf (fun p _ => ?_) fun p _ hne hold => ?_
  · obtain ⟨prev, next, hp⟩ := hlinks p
    rw [hp]
    exact ⟨rfl, rfl⟩
  · obtain ⟨prev, next, hp⟩ := hlinks p
    rw [hp] at hne
    exact absurd hold hne

theorem Covered.stroke {k : Stroke} (h : Covered rs b) (hl : b.Laid)
    (he : b.IsEdge k.footprint.stop)
    (hnew : match k with
      | .range s e text _ => text = [] ∨ ⟨s, e⟩ ∈ rs
      | _ => True) : Covered rs (b.stroke k) := by
  refine h.map rfl (fun p _ => ⟨(k.paint_keeps p).1, Stroke.stop_paint⟩) fun p hp hne hold => ?_
  have hout := hl.edge_outside he hp
  unfold Stroke.paint at hne
  split at hne
  next ht =>
    cases k with
    | left n f => exact absurd hold hne
    | right n f => exact absurd hold hne
    | range s e text keepEdges =>
      rw [Stroke.change] at hne
      split at hne
      next =>
        have hshown : (showing text keepEdges p).replacement = some text := by cases keepEdges <;> rfl
        rw [hshown] at hne
        exact ⟨_, hnew.resolve_left hne, ht.1, hout.resolve_left (Nat.not_le.mpr ht.2)⟩
      next => exact absurd rfl hne
  next => exact absurd hold hne

theorem Laid.split_ok {n : Nat} (h : b.Laid) (hcov : Covered rs b)
    (hb : b.source.isBoundary n = true) (hspare : ∀ r ∈ rs, n ≤ r.start ∨ r.stop ≤ n) :
    ∃ b', split n b = .ok () b' ∧ Cuts b b' ∧ b'.Laid ∧ b'.IsEdge n ∧ Covered rs b' ∧
      b'.source = b.source := by
  cases h.splits n with
  | refused e plain out run => simp [hb] at out
  | edge edge run => exact ⟨b, run, .refl, h, edge, hcov, rfl⟩
  | edited p mem lo hi shown run =>
    obtain ⟨r, hr, hlo, hhi⟩ := hcov p mem fun hplain => Piece.not_edited_iff.mpr hplain shown
    have := hspare r hr
    omega
  | cut p can run =>
    have hc : Cuts b (b.cutAt p n) := .single ⟨can⟩
    exact ⟨_, run, hc, h.cutAt can, h.isEdge_cutAt can, hcov.cuts h hc, hc.frame.1⟩

theorem checkRange_ok {s e : Nat} (hle : s ≤ e) (hs : b.source.isBoundary s = true)
    (he : b.source.isBoundary e = true) : checkRange s e b = .ok () b := by
  obtain ⟨hnot, -⟩ | ⟨-, -, -, hok⟩ := checkRange_settled b.source s e
  · exact absurd ⟨hle, hs, he⟩ hnot
  · exact hok b rfl

end

section
variable {b : EditBuffer}

theorem Visits.unbroken_eq {c : Option Nat} {l r : List Piece} {p : Piece} {ps : List Piece}
    (hv : b.Visits c (l ++ (p :: ps ++ r))) : unbroken p ps = ps := by
  induction ps generalizing l p with
  | nil => rfl
  | cons q ps ih =>
    have hnext : p.next = some q.start := Visits.next_eq hv
    rw [unbroken, if_pos hnext, ih (l := l ++ [p]) (p := q)]
    simpa using hv

theorem Run.within_eq {s e : Nat} {P A Q : List Cell} {l₁ l₂ l₃ : List Piece} (h : b.Laid)
    (hlink : b.Linked) (hne : b.source ≠ []) (hs : b.IsEdge s) (he : b.IsEdge e)
    (hrun : Run s e b.cells P A Q) (hsorted : A.Pairwise fun c c' => c.start < c'.start)
    (hout : b.output = l₁ ++ (l₂ ++ l₃)) (h₁ : l₁.flatMap Piece.cells = P)
    (h₂ : l₂.flatMap Piece.cells = A) (h₃ : l₃.flatMap Piece.cells = Q) :
    b.within s e = l₂ := by
  have hmem : ∀ p ∈ l₁ ++ (l₂ ++ l₃), p ∈ b.pieces := fun p hp => mem_of_mem_output (hout ▸ hp)
  -- a piece tells by any of its characters whether it is in the range
  have hfirst : ∀ p ∈ b.pieces, ∃ c ∈ p.cells, c.start = p.start ∧
      c.isIn s e = (decide (s ≤ p.start) && decide (p.start < e)) := by
    intro p hp
    have hfull := h.source_ne_nil hne hp
    obtain ⟨c, cs, hc⟩ := List.exists_cons_of_ne_nil (Piece.cells_ne_nil hfull)
    have hhead := Piece.head?_cells hfull
    rw [hc] at hhead
    have hcp : c ∈ p.cells := by simp [hc]
    have hin := Piece.mem_cells hcp
    exact ⟨c, hcp, Option.some.inj hhead, h.isIn_cells hs he hp hin.1 hin.2⟩
  have hiff : ∀ p, p ∈ b.within s e ↔ p ∈ l₂ := by
    intro p
    rw [within, List.mem_filter]
    constructor
    · rintro ⟨hp, hin⟩
      obtain ⟨c, hc, -, hcin⟩ := hfirst p hp
      rw [hin] at hcin
      have hpo : p ∈ l₁ ++ (l₂ ++ l₃) := hout ▸ hlink.every.mem_iff.mpr hp
      simp only [List.mem_append] at hpo
      rcases hpo with hp | hp | hp
      · have := hrun.before c (h₁ ▸ List.mem_flatMap.mpr ⟨p, hp, hc⟩)
        rw [hcin] at this
        cases this
      · exact hp
      · have := hrun.behind c (h₃ ▸ List.mem_flatMap.mpr ⟨p, hp, hc⟩)
        rw [hcin] at this
        cases this
    · intro hp
      have hpm := hmem p (by simp [hp])
      obtain ⟨c, hc, -, hcin⟩ := hfirst p hpm
      refine ⟨hpm, ?_⟩
      rw [← hcin]
      exact hrun.inside c (h₂ ▸ List.mem_flatMap.mpr ⟨p, hp, hc⟩)
  have hsorted₂ : l₂.Pairwise fun p q => p.start < q.start := by
    rw [← h₂] at hsorted
    have hsub : ∀ p ∈ l₂, p ∈ b.pieces := fun p hp => hmem p (by simp [hp])
    refine ((List.pairwise_flatMap.mp hsorted).2).imp_of_mem ?_
    intro p q hp hq hlt
    obtain ⟨c, hc, hcs, -⟩ := hfirst p (hsub p hp)
    obtain ⟨d, hd, hds, -⟩ := hfirst q (hsub q hq)
    rw [← hcs, ← hds]
    exact hlt c hc d hd
  have hsorted₁ : (b.within s e).Pairwise fun p q => p.start < q.start := h.sorted.filter _
  have hnodup : ∀ l : List Piece, (l.Pairwise fun p q => p.start < q.start) → l.Nodup :=
    fun l hl => hl.imp fun hlt heq => by simp [heq] at hlt
  have hperm := (List.perm_ext_iff_of_nodup (hnodup _ hsorted₁) (hnodup _ hsorted₂)).mpr hiff
  refine hperm.eq_of_pairwise ?_ hsorted₁ hsorted₂
  intro p q _ _ h₁ h₂
  omega

end

section
variable {source : Text} {b : EditBuffer} {cs : List Cell} {rs : List Span} {o : Operation}

theorem Live.accepts (h : Live source b cs) (hne : source ≠ []) (hcov : Covered rs b)
    (hf : o.Fits source) (hp : o.Poised cs)
    (hspare : ∀ r ∈ rs, ∀ n ∈ o.offsets, n ≤ r.start ∨ r.stop ≤ n) :
    ∃ b', o.run b = .ok () b' ∧ Covered (o.covers ++ rs) b' := by
  obtain ⟨hb, hplaced⟩ := hf
  rw [← h.source_eq] at hb
  have hsplit : ∀ n ∈ o.offsets, ∀ b₁, b₁.Laid → Covered rs b₁ → b₁.source = b.source →
      ∃ b', split n b₁ = .ok () b' ∧ Cuts b₁ b' ∧ b'.Laid ∧ b'.IsEdge n ∧ Covered rs b' ∧
        b'.source = b.source := by
    intro n hn b₁ hl₁ hc₁ hs₁
    obtain ⟨b', h₁, h₂, h₃, h₄, h₅, h₆⟩ := hl₁.split_ok hc₁ (hs₁ ▸ hb n hn) fun r hr => hspare r hr n hn
    exact ⟨b', h₁, h₂, h₃, h₄, h₅, h₆.trans hs₁⟩
  cases o with
  | insertLeft n text =>
    obtain ⟨b₁, hb₁, -, hl₁, hn, hc₁, hs₁⟩ := hsplit n (.head _) b h.laid hcov rfl
    have hrun : (Operation.insertLeft n text).run b =
        .ok () ((b₁.stroke (.left n (· ++ text))).logged ⟨.insertLeft, .empty n, some text⟩) := by
      simp [Operation.run, insertLeft, hb₁, record_apply,
        hl₁.editLeft_eq hn (hs₁.trans h.source_eq ▸ hne)]
    exact ⟨_, hrun, hc₁.stroke hl₁ hn trivial⟩
  | prependRight n text =>
    obtain ⟨b₁, hb₁, -, hl₁, hn, hc₁, hs₁⟩ := hsplit n (.head _) b h.laid hcov rfl
    have hrun : (Operation.prependRight n text).run b =
        .ok () ((b₁.stroke (.right n (text ++ ·))).logged ⟨.prependRight, .empty n, some text⟩) := by
      simp [Operation.run, prependRight, hb₁, record_apply,
        hl₁.editRight_eq hn (hs₁.trans h.source_eq ▸ hne)]
    exact ⟨_, hrun, hc₁.stroke hl₁ hn trivial⟩
  | remove s e =>
    have hs := hb s (.head _)
    have he := hb e (.tail _ (.head _))
    have hcheck := checkRange_ok hplaced hs he
    by_cases heq : s = e
    · refine ⟨b, ?_, hcov⟩
      simp [Operation.run, remove, hcheck, if_pos heq]
    · obtain ⟨b₁, hb₁, -, hl₁, -, hc₁, hs₁⟩ := hsplit s (.head _) b h.laid hcov rfl
      obtain ⟨b₂, hb₂, -, hl₂, he, hc₂, -⟩ := hsplit e (.tail _ (.head _)) b₁ hl₁ hc₁ hs₁
      have hrun : (Operation.remove s e).run b =
          .ok () ((b₂.stroke (.range s e [] false)).logged ⟨.remove, ⟨s, e⟩, none⟩) := by
        simp [Operation.run, remove, hcheck, if_neg heq, hb₁, hb₂, record_apply, blankRange_eq]
      exact ⟨_, hrun, hc₂.stroke hl₂ he (.inl rfl)⟩
  | overwrite s e text =>
    have hlt : s < e := hplaced
    have hcheck := checkRange_ok (Nat.le_of_lt hlt) (hb s (.head _)) (hb e (.tail _ (.head _)))
    obtain ⟨b₁, hb₁, hcut₁, hl₁, hs, hc₁, hs₁⟩ := hsplit s (.head _) b h.laid hcov rfl
    obtain ⟨b₂, hb₂, hcut₂, hl₂, he, hc₂, hs₂⟩ := hsplit e (.tail _ (.head _)) b₁ hl₁ hc₁ hs₁
    have hs := hcut₂.isEdge hl₁ hs
    have h₂ := h.cuts (hcut₁.trans hcut₂)
    obtain ⟨P, A, Q, hrun, hsorted⟩ := hp
    rw [← h₂.cells_eq] at hrun
    have hne₂ : b₂.source ≠ [] := h₂.source_eq ▸ hne
    obtain ⟨l₁, l₂, l₃, hout, hP, hA, hQ⟩ := Run.exists_pieces hl₂ hne₂ hs he hrun
    have hw := Run.within_eq hl₂ h₂.linked hne₂ hs he hrun hsorted hout hP hA hQ
    cases l₂ with
    | nil =>
      obtain rfl : A = [] := hA.symm
      exact absurd hrun.first (by simp)
    | cons p ps =>
      have hwalk := h₂.linked.walk
      rw [hout] at hwalk
      have hu := hwalk.unbroken_eq
      have hrun : (Operation.overwrite s e text).run b =
          .ok () ((b₂.stroke (.range s e text false)).logged ⟨.overwrite, ⟨s, e⟩, some text⟩) := by
        rw [← hl₂.showing_eq hs he hlt hw]
        have hw' : (b₂.pieces.filter fun p => s ≤ p.start && p.start < e) = p :: ps := hw
        simp only [Operation.run, overwrite, replace, Editing.bind_apply, hcheck,
          if_neg (Nat.ne_of_lt hlt), hb₁, hb₂, Editing.get_apply, hw', blankRun_apply, if_pos hu,
          Editing.modify_apply, record_apply]
        rfl
      exact ⟨_, hrun, (hc₂.mono fun r hr => List.mem_cons_of_mem _ hr).stroke hl₂ he
        (.inr List.mem_cons_self)⟩
  | moveRange s e d =>
    obtain ⟨hlt, hside⟩ := hplaced
    have hcheck := checkRange_ok (Nat.le_of_lt hlt) (hb s (.head _)) (hb e (.tail _ (.head _)))
    obtain ⟨b₁, hb₁, hcut₁, hl₁, hs, hc₁, hs₁⟩ := hsplit s (.head _) b h.laid hcov rfl
    obtain ⟨b₂, hb₂, hcut₂, hl₂, he, hc₂, hs₂⟩ := hsplit e (.tail _ (.head _)) b₁ hl₁ hc₁ hs₁
    obtain ⟨b₃, hb₃, hcut₃, hl₃, hd, hc₃, hs₃⟩ := hsplit d (by simp [Operation.offsets]) b₂ hl₂ hc₂ hs₂
    have hout : ¬ (s ≤ d ∧ d ≤ e) := by omega
    obtain ⟨e', b', herr, -⟩ | ⟨-, -, hcut, -, -, -, -, hok⟩ := h.laid.moveRange_cases s e d
    · exfalso
      simp only [moveRange, Editing.bind_apply, hcheck, if_neg hout, hb₁, hb₂, hb₃,
        record_apply, Editing.get_apply] at herr
      generalize EditBuffer.startingAt? _ s = first, EditBuffer.endingAt? _ e = last at herr
      cases first <;> cases last <;> cases herr
    · refine ⟨_, hok, ?_⟩
      have hlog : Covered rs ((b.withEdges s e d).logged ⟨.move d, ⟨s, e⟩, none⟩) :=
        show Covered rs (b.withEdges s e d) from hcov.cuts h.laid hcut
      refine hlog.rewired ?_
      unfold relocate
      split
      · exact rewired_relink _ _ _ _
      · exact .refl _
  | _ => exact hplaced.elim

theorem Live.exists_perform {os : List Operation} (h : Live source b cs) (hne : source ≠ [])
    (hs : Operation.Sited source cs) (hcov : Covered rs b) (hf : ∀ o ∈ os, o.Fits source)
    (hp : ∀ o ∈ os, o.Poised cs) (horder : os.Pairwise Operation.Orderly)
    (hspare : os.Pairwise Operation.Spares)
    (hfree : ∀ r ∈ rs, ∀ o ∈ os, ∀ n ∈ o.offsets, n ≤ r.start ∨ r.stop ≤ n) :
    ∃ b', EditBuffer.perform os b = .ok () b' := by
  induction os generalizing b cs rs with
  | nil => exact ⟨b, rfl⟩
  | cons o os ih =>
    obtain ⟨b₁, hrun, hcov₁⟩ := h.accepts hne hcov (hf o (by simp)) (hp o (by simp))
      fun r hr => hfree r hr o (by simp)
    have hn : (cs.map Cell.start).Nodup := h.cells_eq ▸ h.linked.nodup_cells h.laid
    have h₁ := h.step hne (hf o (by simp)) ((hp o (by simp)).ready hn) hrun
    obtain ⟨ho, horder⟩ := List.pairwise_cons.mp horder
    obtain ⟨hso, hspare⟩ := List.pairwise_cons.mp hspare
    obtain ⟨b', hb'⟩ := ih h₁ (hs.apply o) hcov₁ (fun o' ho' => hf o' (by simp [ho']))
      (fun o' ho' => (hp o' (by simp [ho'])).apply hn hs (hf o (by simp)) (hf o' (by simp [ho']))
        (ho o' ho')) horder hspare (by
        intro r hr o' ho'
        rcases List.mem_append.mp hr with hr | hr
        · exact hso o' ho' r hr
        · exact hfree r hr o' (by simp [ho']))
    exact ⟨b', by simp only [EditBuffer.perform, Editing.bind_apply, hrun, hb']⟩

end

theorem exists_perform {source : Text} {os : List Operation} (hne : source ≠ [])
    (hf : ∀ o ∈ os, o.Fits source) (horder : os.Pairwise Operation.Orderly)
    (hspare : os.Pairwise Operation.Spares) : ∃ b', perform os (ofText source) = .ok () b' := by
  have hcov : Covered [] (ofText source) := by
    intro p hp hshown
    simp only [ofText, List.mem_singleton] at hp
    subst hp
    exact absurd rfl hshown
  exact (ofText_live source).exists_perform hne (Operation.sited_cells source) hcov hf
    (fun o ho => (hf o ho).poised) horder hspare (by simp)

end EditBuffer
end SfcTsx
