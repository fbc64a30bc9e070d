import SfcTsx.Proofs.EditBuffer.Links

namespace SfcTsx.EditBuffer

def blanked (b : EditBuffer) (start stop : Nat) : List Piece :=
  match b.within start stop with
  | p :: ps => unbroken p ps
  | [] => []

/-- Nothing of the output is lost if a replacement is refused: it comes to no break, or what it
blanks shows nothing. -/
def sparesReplacing (b : EditBuffer) (start stop : Nat) (text : Text) (keepEdges : Bool) : Bool :=
  match replace start stop text keepEdges b with
  | .ok _ _ => true
  | .error e _ =>
    let b' := (b.withEdge start).withEdge stop
    !e.isBreak || b'.output.all fun p => p ∉ b'.blanked start stop || p.render = []

def spares (b : EditBuffer) : Operation → Bool
  | .overwrite start stop text => b.sparesReplacing start stop text false
  | .update start stop text => b.sparesReplacing start stop text true
  | _ => true

theorem mem_of_mem_unbroken {p q : Piece} {ps : List Piece} (h : q ∈ unbroken p ps) : q ∈ ps := by
  induction ps generalizing p with
  | nil => exact h
  | cons r ps ih =>
    unfold unbroken at h
    split at h
    · rcases List.mem_cons.mp h with rfl | h
      · exact List.mem_cons_self
      · exact List.mem_cons_of_mem _ (ih h)
    · cases h

theorem blanked_subset (b : EditBuffer) (start stop : Nat) :
    ∀ p ∈ b.blanked start stop, p ∈ b.pieces := by
  intro p hp
  unfold blanked at hp
  split at hp
  next q ps hw =>
    have hin : p ∈ b.within start stop := hw ▸ List.mem_cons_of_mem q (mem_of_mem_unbroken hp)
    exact (List.mem_filter.mp hin).1
  next => cases hp

theorem flatMap_ite_nil_eq_iff {α β : Type} (c : α → Prop) [DecidablePred c] (f : α → List β)
    (l : List α) :
    (l.flatMap fun x => if c x then [] else f x) = l.flatMap f ↔ ∀ x ∈ l, c x → f x = [] := by
  have hlen (l : List α) :
      (l.flatMap fun x => if c x then [] else f x).length ≤ (l.flatMap f).length := by
    induction l with
    | nil => exact Nat.le_refl _
    | cons x l ih =>
      simp only [List.flatMap_cons, List.length_append]
      split
      · simp only [List.length_nil]
        omega
      · omega
  induction l with
  | nil => simp
  | cons x l ih =>
    rw [List.flatMap_cons, List.flatMap_cons, List.forall_mem_cons]
    by_cases hx : c x
    · rw [if_pos hx, List.nil_append]
      constructor
      · intro heq
        have hempty : f x = [] := by
          have hl := congrArg List.length heq
          have := hlen l
          rw [List.length_append] at hl
          exact List.eq_nil_of_length_eq_zero (by omega)
        rw [hempty, List.nil_append] at heq
        exact ⟨fun _ => hempty, ih.mp heq⟩
      · rintro ⟨hempty, hall⟩
        rw [hempty hx, List.nil_append]
        exact ih.mpr hall
    · rw [if_neg hx, List.append_cancel_left_eq]
      exact ⟨fun heq => ⟨fun h => absurd h hx, ih.mp heq⟩, fun h => ih.mpr h.2⟩

theorem Laid.render_blankAt_iff {b : EditBuffer} (h : b.Laid) {ps : List Piece}
    (hps : ∀ p ∈ ps, p ∈ b.pieces) :
    (b.blankAt (ps.map Piece.start)).render = b.render ↔
      ∀ p ∈ b.output, p ∈ ps → p.render = [] := by
  have hpaint := painted_map b (·.start ∈ ps.map Piece.start) _ blank_keeps
  have hout : (b.blankAt (ps.map Piece.start)).output =
      b.output.map fun p => if p.start ∈ ps.map Piece.start then p.blank else p := hpaint.output
  have hshown : (b.blankAt (ps.map Piece.start)).output.flatMap Piece.render =
      b.output.flatMap fun p => if p.start ∈ ps.map Piece.start then [] else p.render := by
    rw [hout, List.flatMap_map]
    congr 1
    funext p
    split <;> rfl
  have hmem : ∀ p ∈ b.output, p.start ∈ ps.map Piece.start ↔ p ∈ ps := by
    intro p hp
    refine ⟨fun hs => ?_, List.mem_map_of_mem⟩
    obtain ⟨q, hq, hqp⟩ := List.mem_map.mp hs
    rwa [← h.eq_of_start (hps q hq) (mem_of_mem_output hp) hqp]
  rw [render, render, hshown]
  refine (List.append_cancel_right_eq ..).to_iff.trans
    ((List.append_cancel_left_eq ..).to_iff.trans ?_)
  rw [flatMap_ite_nil_eq_iff]
  exact ⟨fun hall p hp hin => hall p hp ((hmem p hp).mpr hin),
    fun hall p hp hin => hall p hp ((hmem p hp).mp hin)⟩

section
variable {b b' : EditBuffer} (h : b.Laid) {e : EditError}
include h

theorem Laid.refused_insertion {offset : Nat} {kind : EditKind} {text : Text}
    {f : EditBuffer → EditBuffer}
    (he : (do split offset; modify f; record kind (.empty offset) text : Editing Unit) b =
      .error e b') : Cuts b b' := by
  obtain ⟨e₁, hb⟩ | ⟨b₁, hb, -⟩ := h.insertion_cases offset kind text f
  · rw [hb] at he
    cases he
    exact .refl
  · rw [hb] at he
    cases he

theorem Laid.refused_replace {start stop : Nat} {text : Text} {keepEdges : Bool} {kind : EditKind}
    (he : (do replace start stop text keepEdges; record kind ⟨start, stop⟩ text : Editing Unit) b =
      .error e b') :
    (Cuts b b' ∧ b.sparesReplacing start stop text keepEdges = true) ∨
      let b₁ := (b.withEdge start).withEdge stop
      Cuts b b₁ ∧ b₁.Laid ∧ b' = b₁.blankAt ((b₁.blanked start stop).map Piece.start) ∧
        (b.sparesReplacing start stop text keepEdges = true ↔
          ∀ p ∈ b₁.output, p ∈ b₁.blanked start stop → p.render = []) := by
  rw [Editing.bind_apply] at he
  obtain ⟨e₁, b₁, hb, hc, hk⟩ | ⟨b₁, p, ps, hb₁, -, hc, hl, -, -, hw, hb⟩ :=
    h.replace_cases start stop text keepEdges
  · rw [hb] at he
    cases he
    exact .inl ⟨hc, by simp [sparesReplacing, hb, hk]⟩
  · right
    have hblanked : b₁.blanked start stop = unbroken p ps := by rw [blanked, hw]
    by_cases hu : unbroken p ps = ps
    · rw [hb, if_pos hu] at he
      cases he
    · rw [if_neg hu] at hb
      rw [hb] at he
      cases he
      rw [sparesReplacing, hb]
      simp only [← hb₁]
      refine ⟨hc, hl, by rw [hblanked], ?_⟩
      simp [EditError.isBreak, or_iff_not_imp_left]

theorem Laid.refused_cases {o : Operation} (he : o.run b = .error e b') :
    (Cuts b b' ∧ b.spares o = true) ∨ ∃ start stop,
      let b₁ := (b.withEdge start).withEdge stop
      Cuts b b₁ ∧ b₁.Laid ∧ b' = b₁.blankAt ((b₁.blanked start stop).map Piece.start) ∧
        (b.spares o = true ↔ ∀ p ∈ b₁.output, p ∈ b₁.blanked start stop → p.render = []) := by
  cases o with
  | insertLeft offset text => exact .inl ⟨h.refused_insertion he, rfl⟩
  | prependLeft offset text => exact .inl ⟨h.refused_insertion he, rfl⟩
  | insertRight offset text => exact .inl ⟨h.refused_insertion he, rfl⟩
  | prependRight offset text => exact .inl ⟨h.refused_insertion he, rfl⟩
  | append text => cases he
  | prepend text => cases he
  | remove start stop =>
    rw [Operation.run] at he
    obtain ⟨e₁, b₁, hb, hc⟩ | ⟨-, hb⟩ | ⟨b₁, -, -, -, -, -, hb⟩ := h.remove_cases start stop
    · rw [hb] at he
      cases he
      exact .inl ⟨hc, rfl⟩
    · rw [hb] at he
      cases he
    · rw [hb] at he
      cases he
  | overwrite start stop text =>
    exact (h.refused_replace he).imp_right fun hbreak => ⟨start, stop, hbreak⟩
  | update start stop text =>
    exact (h.refused_replace he).imp_right fun hbreak => ⟨start, stop, hbreak⟩
  | moveRange start stop destination =>
    rw [Operation.run] at he
    obtain ⟨e₁, b₁, hb, hc⟩ | ⟨-, -, -, -, -, -, -, hb⟩ := h.moveRange_cases start stop destination
    · rw [hb] at he
      cases he
      exact .inl ⟨hc, rfl⟩
    · rw [hb] at he
      cases he
  | slice start stop =>
    rw [Operation.run, Editing.bind_apply] at he
    obtain ⟨e₁, hb⟩ | ⟨text, hb⟩ := slice_cases start stop b
    · rw [hb] at he
      cases he
      exact .inl ⟨.refl, rfl⟩
    · rw [hb] at he
      cases he

end

/-- After any calls, a refused one leaves the log as it was and a walk that ends, and it keeps the
text exactly if it is no replacement that has blanked visible pieces before it came to a break. -/
theorem render_refused_iff (source : Text) (os : List Operation) {o : Operation} {e : EditError}
    {b' : EditBuffer} (he : o.run ((ofText source).afterAll os) = .error e b') :
    let b := (ofText source).afterAll os
    b'.log = b.log ∧ (b'.Ends ↔ b.Ends) ∧ (b.Ends → (b'.render = b.render ↔ b.spares o = true)) := by
  intro b
  have hs : b.Sound := (ofText_sound source).afterAll os
  obtain ⟨hc, hspares⟩ | ⟨start, stop, hc, hl, rfl, hspares⟩ := hs.laid.refused_cases he
  · obtain ⟨-, hends, hrender⟩ := hc.text hs.laid hs.closed
    exact ⟨hc.frame.2.1, hends, fun hb => iff_of_true (hrender hb) hspares⟩
  · obtain ⟨-, hends, hrender⟩ := hc.text hs.laid hs.closed
    have hpaint := painted_map ((b.withEdge start).withEdge stop) (·.start ∈
      (((b.withEdge start).withEdge stop).blanked start stop).map Piece.start) _ blank_keeps
    refine ⟨hc.frame.2.1, hpaint.ends_iff.trans hends, ?_⟩
    intro hb
    rw [← hrender hb, hl.render_blankAt_iff (blanked_subset _ _ _), hspares]

/-- The piece in front of the break was removed before, so its loss does not show. -/
theorem render_refused_iff_removed :
    let b := (ofText ['a', 'b', 'c', 'd', 'e', 'f']).afterAll [.moveRange 2 3 6, .remove 1 2]
    let o : Operation := .overwrite 0 3 ['X']
    o.run b = .error (.overwriteAcrossSplit 0 3) (b.after o) ∧ b.Ends ∧ b.spares o = true ∧
      b.render = ['a', 'd', 'e', 'f', 'c'] ∧ (b.after o).render = b.render ∧
      (b.after o).log = b.log := by
  intro b o
  have he : o.run b = .error (.overwriteAcrossSplit 0 3) (b.after o) := rfl
  have hends : b.Ends := ⟨_, .visit rfl (.visit rfl (.visit rfl (.visit rfl .done)))⟩
  have hspares : b.spares o = true := by decide +kernel
  obtain ⟨hlog, -, hrender⟩ := render_refused_iff _ _ he
  exact ⟨he, hends, hspares, by decide +kernel, (hrender hends).mpr hspares, hlog⟩

/-- A replacement across a moved piece is refused, and the piece in front of the break is gone. -/
theorem refused_overwrite_drops_piece :
    let b := (ofText ['a', 'b', 'c', 'd', 'e', 'f']).afterAll [.moveRange 2 3 6, .insertLeft 1 []]
    let o : Operation := .overwrite 0 3 ['X']
    o.run b = .error (.overwriteAcrossSplit 0 3) (b.after o) ∧ b.spares o = false ∧
      b.render = ['a', 'b', 'd', 'e', 'f', 'c'] ∧
      (b.after o).render = ['a', 'd', 'e', 'f', 'c'] :=
  ⟨rfl, by decide +kernel, by decide +kernel, by decide +kernel⟩

end SfcTsx.EditBuffer
