import SfcTsx.Proofs.EditBuffer.Perform
import SfcTsx.Proofs.EditBuffer.Refinement

namespace SfcTsx

variable {n : Nat} {b : EditBuffer}

def Operation.isMove : Operation → Bool
  | .moveRange .. => true
  | _ => false

namespace Piece

def bare (p : Piece) : Piece := { p with prev := none, next := none }

def Holds (n : Nat) (p : Piece) : Prop := p.start < n ∧ n < p.stop

instance (n : Nat) (p : Piece) : Decidable (p.Holds n) := inferInstanceAs (Decidable (_ ∧ _))

def sever (n : Nat) (p : Piece) : List Piece :=
  if p.Holds n then
    [{ p with source := p.source.slice 0 (n - p.start), outro := [] },
      { start := n, source := p.source.slice (n - p.start) p.source.size
        replacement := p.replacement.map fun _ => [], outro := p.outro }]
  else [p]

theorem sever_of_not_holds {p : Piece} (h : ¬ p.Holds n) : p.sever n = [p] := if_neg h

end Piece

/-- What a buffer in source order shows. -/
structure Strip where
  pieces : List Piece
  intro : Text
  outro : Text

variable {s : Strip}

namespace Strip

def render (s : Strip) : Text := s.intro ++ s.pieces.flatMap Piece.render ++ s.outro

/-- The pieces are the source, cut up. -/
structure Valid (source : Text) (s : Strip) : Prop where
  tiles : EditBuffer.Tiles 0 s.pieces
  text : s.pieces.flatMap Piece.source = source

/-- An offset is inside no piece. -/
def HasEdge (n : Nat) (s : Strip) : Prop := ∀ p ∈ s.pieces, ¬ p.Holds n

def cut (n : Nat) (s : Strip) : Strip := { s with pieces := s.pieces.flatMap (Piece.sever n) }

def paint (size : Nat) (k : Stroke) (s : Strip) : Strip :=
  ⟨s.pieces.map k.paint, k.paintIntro s.intro, k.paintOutro size s.outro⟩

def cutRefusal (n : Nat) (s : Strip) : Option EditError :=
  if s.pieces.any fun p => decide (p.Holds n) && p.edited then some (.splitEdited n) else none

theorem cutRefusal_eq_none :
    s.cutRefusal n = none ↔ ∀ p ∈ s.pieces, p.Holds n → p.edited = false := by
  unfold cutRefusal
  split
  next h =>
    simp only [List.any_eq_true, Bool.and_eq_true, decide_eq_true_eq] at h
    obtain ⟨p, hp, hin, hedited⟩ := h
    refine iff_of_false (by simp) fun hall => ?_
    rw [hall p hp hin] at hedited
    cases hedited
  next h => simpa [List.any_eq_true] using h

theorem HasEdge.cut (h : s.HasEdge n) : s.cutRefusal n = none ∧ s.cut n = s := by
  refine ⟨cutRefusal_eq_none.mpr fun p hp hin => absurd hin (h p hp), ?_⟩
  have hid : s.pieces.flatMap (Piece.sever n) = s.pieces.flatMap fun p => [p] :=
    List.flatMap_congr fun p hp => Piece.sever_of_not_holds (h p hp)
  rw [Strip.cut, hid, List.flatMap_singleton']

end Strip

/-- A step of an edit: it may be refused, and leads to a next state if not. -/
structure Step (σ : Type) where
  /-- What has to hold for the step to be made. -/
  Ready : σ → Prop
  refusal : σ → Option EditError
  next : σ → σ

namespace Step

def run {σ : Type} : List (Step σ) → σ → Option EditError × σ
  | [], s => (none, s)
  | x :: xs, s =>
    match x.refusal s with
    | some e => (some e, s)
    | none => run xs (x.next s)

def cut (source : Text) (n : Nat) : Step Strip where
  Ready s := s.Valid source ∧ source.isBoundary n = true
  refusal := Strip.cutRefusal n
  next := Strip.cut n

def paint (source : Text) (k : Stroke) : Step Strip where
  Ready s := s.HasEdge k.footprint.start ∧ s.HasEdge k.footprint.stop
  refusal _ := none
  next := Strip.paint source.size k

/-- The steps of a stroke: cuts at the ends of its range, and the stroke. -/
def ofStroke (source : Text) (k : Stroke) : List (Step Strip) :=
  [cut source k.footprint.start, cut source k.footprint.stop, paint source k]

end Step

theorem Strip.HasEdge.run_cut (h : s.HasEdge n) (source : Text) (xs : List (Step Strip)) :
    Step.run (.cut source n :: xs) s = Step.run xs s := by
  obtain ⟨hnone, hcut⟩ := h.cut
  simp only [Step.run, Step.cut, hnone, hcut]

namespace EditBuffer

variable {k : Stroke} {o : Operation} {f : EditBuffer → EditBuffer} {text : Text} {start : Nat}
  {os : List Operation} {kind : EditKind} {keepEdges : Bool}

def strip (b : EditBuffer) : Strip := ⟨b.pieces.map Piece.bare, b.intro, b.outro⟩

def refusal (b : EditBuffer) (o : Operation) : Option EditError :=
  match o.run b with
  | .ok .. => none
  | .error e _ => some e

section
variable {b : EditBuffer} {n : Nat}

theorem Laid.valid_strip (h : b.Laid) : b.strip.Valid b.source := by
  have hmap : b.pieces.map Piece.bare = b.pieces.flatMap fun p => [p.bare] := List.map_eq_flatMap
  obtain ⟨htiles, htext⟩ := h.tiles.flatMap (f := fun p => [p.bare]) fun p _ => by
    simp [Tiles, Piece.bare]
  refine ⟨?_, ?_⟩
  · rw [strip, hmap]
    exact htiles
  · rw [strip, hmap]
    exact htext.trans h.text

theorem InOrder.render_strip (h : b.InOrder) : b.strip.render = b.render := by
  have hbare : (b.pieces.map Piece.bare).flatMap Piece.render = b.pieces.flatMap Piece.render := by
    rw [List.flatMap_map]
    rfl
  rw [Strip.render, render, Visits.output_eq h, strip, hbare]

theorem Laid.hasEdge_strip (h : b.Laid) (hn : b.IsEdge n) : b.strip.HasEdge n := by
  intro q hq hin
  obtain ⟨p, hp, rfl⟩ := List.mem_map.mp hq
  have hin' : p.start < n ∧ n < p.stop := hin
  have := h.edge_outside hn hp
  omega

theorem Laid.strip_cutAt (h : b.Laid) {p : Piece} (hc : b.CanCut p n) :
    (b.cutAt p n).strip = b.strip.cut n := by
  have hpieces : (b.pieces.flatMap (cutting p n)).map Piece.bare =
      (b.pieces.map Piece.bare).flatMap (Piece.sever n) := by
    rw [List.map_flatMap, List.flatMap_map]
    refine List.flatMap_congr fun q hq => ?_
    have hbare (r : Piece) : (afterCut p n r).bare = r.bare := by
      unfold afterCut
      split <;> rfl
    unfold cutting
    split
    next hqp =>
      obtain rfl := h.eq_of_start hq hc.mem hqp
      have hin : q.bare.Holds n := ⟨hc.lo, hc.hi⟩
      rw [List.map_cons, List.map_singleton, hbare, hbare, Piece.sever, if_pos hin]
      rfl
    next hqp =>
      have hout : ¬ q.bare.Holds n := by
        intro hin
        have hin' : q.start < n ∧ n < q.stop := hin
        have hlo := hc.lo
        have hhi := hc.hi
        obtain ⟨hor, -⟩ := h.apart hq hc.mem fun heq => hqp (by rw [heq])
        omega
      rw [List.map_singleton, hbare, Piece.sever_of_not_holds hout]
  rw [cutAt_eq, strip, Strip.cut, strip]
  simp only [hpieces]

theorem Laid.split_strip (h : b.Laid) (hn : b.source.isBoundary n = true) :
    match b.strip.cutRefusal n with
    | some e => split n b = .error e b
    | none => ∃ b', split n b = .ok () b' ∧ Cuts b b' ∧ b'.Laid ∧ b'.IsEdge n ∧
        b'.strip = b.strip.cut n := by
  cases h.splits n with
  | refused e plain out run => simp [hn] at out
  | edge edge run =>
    obtain ⟨hnone, hcut⟩ := (h.hasEdge_strip edge).cut
    rw [hnone, hcut]
    exact ⟨b, run, .refl, h, edge, rfl⟩
  | edited p mem lo hi shown run =>
    have hrefused : b.strip.cutRefusal n = some (.splitEdited n) := by
      refine if_pos (List.any_eq_true.mpr ⟨p.bare, List.mem_map_of_mem mem, ?_⟩)
      simpa using ⟨⟨lo, hi⟩, shown⟩
    rw [hrefused]
    exact run
  | cut p can run =>
    have haccepted : b.strip.cutRefusal n = none := by
      refine Strip.cutRefusal_eq_none.mpr fun q hq hin => ?_
      obtain ⟨r, hr, rfl⟩ := List.mem_map.mp hq
      obtain ⟨hlo, hhi⟩ : r.start < n ∧ n < r.stop := hin
      obtain rfl : r = p := by
        by_contra hne
        obtain ⟨hor, -⟩ := h.apart hr can.mem hne
        have := can.lo
        have := can.hi
        omega
      exact Bool.eq_false_iff.mpr (Piece.not_edited_iff.mpr can.plain)
    rw [haccepted]
    exact ⟨_, run, .single ⟨can⟩, h.cutAt can, h.isEdge_cutAt can, h.strip_cutAt can⟩

end

theorem bare_showing (text : Text) (keepEdges : Bool) (p : Piece) :
    (showing text keepEdges p).bare = showing text keepEdges p.bare := by
  cases keepEdges <;> rfl

theorem strip_stroke (b : EditBuffer) (k : Stroke) :
    (b.stroke k).strip = b.strip.paint b.source.size k := by
  have hbare (p : Piece) : (k.paint p).bare = k.paint p.bare := by
    have htouch : k.Touches p.bare ↔ k.Touches p := by cases k <;> rfl
    simp only [Stroke.paint, htouch]
    split
    · cases k with
      | left n f => rfl
      | right n f => rfl
      | range start stop text keepEdges =>
        rw [Stroke.change, Stroke.change, ← bare_showing]
        exact apply_ite Piece.bare _ _ _
    · rfl
  simp only [strip, Strip.paint, stroke, List.map_map]
  congr 1
  exact List.map_congr_left fun p _ => hbare p

/-- A computation answers as steps on the strip of the buffer do, and leaves the strip that they
lead to. -/
def Runs (x : Editing Unit) (b : EditBuffer) (r : Option EditError × Strip) : Prop :=
  (match x b with
    | .ok .. => none
    | .error e _ => some e) = r.1 ∧ (x.leave b).strip = r.2

section
variable {b : EditBuffer} {x : Editing Unit} {xs : List (Step Strip)} {n : Nat}

theorem Laid.runs_split (h : b.Laid) (hn : b.source.isBoundary n = true)
    (hx : ∀ b', Cuts b b' → b'.Laid → b'.IsEdge n → Runs x b' (Step.run xs b'.strip)) :
    Runs (do split n; x) b (Step.run (.cut b.source n :: xs) b.strip) := by
  have hsplit := h.split_strip hn
  unfold Runs Editing.leave
  rw [Editing.bind_apply]
  cases hr : b.strip.cutRefusal n with
  | some e =>
    rw [hr] at hsplit
    simp [hsplit, Step.run, Step.cut, hr]
  | none =>
    rw [hr] at hsplit
    obtain ⟨b', hb, hc, hl, hedge, hstrip⟩ := hsplit
    have hrest := hx b' hc hl hedge
    rw [hstrip] at hrest
    simp only [hb, Step.run, Step.cut, hr]
    exact hrest

theorem runs_paint (hf : f b = b.stroke k) :
    Runs (modify f) b (Step.run [.paint b.source k] b.strip) :=
  ⟨rfl, (congrArg strip hf).trans (strip_stroke b k)⟩

theorem Runs.record {r : Option EditError × Strip} (h : Runs x b r) (kind : EditKind) (range : Span)
    (payload : Option Text) : Runs (do x; record kind range payload) b r := by
  obtain ⟨hresult, hstrip⟩ := h
  unfold Runs Editing.leave at *
  rw [Editing.bind_apply]
  cases hx : x b with
  | ok _ b' =>
    rw [hx] at hresult hstrip
    exact ⟨hresult, hstrip⟩
  | error e b' =>
    rw [hx] at hresult hstrip
    exact ⟨hresult, hstrip⟩

end

section
variable {b : EditBuffer} (h : b.Laid)
include h

theorem Laid.runs_insertion (kind : EditKind) (text : Text) (hk : k.footprint = ⟨n, n⟩)
    (hn : b.source.isBoundary n = true)
    (hf : ∀ b', b'.Laid → b'.source = b.source → b'.IsEdge n → f b' = b'.stroke k) :
    Runs (do split n; modify f; record kind (.empty n) text) b
      (Step.run (Step.ofStroke b.source k) b.strip) := by
  rw [Step.ofStroke, hk]
  refine h.runs_split hn fun b' hc hl hedge => ?_
  have hsource : b'.source = b.source := hc.frame.1
  have hpaint := runs_paint (hf b' hl hsource hedge)
  rw [hsource] at hpaint
  rw [(hl.hasEdge_strip hedge).run_cut]
  exact hpaint.record kind (.empty n) text

theorem Laid.runs_range {x : Editing Unit} {stop : Nat} (hk : k.footprint = ⟨start, stop⟩)
    (hs : b.source.isBoundary start = true) (ht : b.source.isBoundary stop = true)
    (hx : ∀ b', Cuts b b' → b'.Laid → b'.IsEdge start → b'.IsEdge stop →
      Runs x b' (Step.run [.paint b'.source k] b'.strip)) :
    Runs (do split start; split stop; x) b (Step.run (Step.ofStroke b.source k) b.strip) := by
  rw [Step.ofStroke, hk]
  refine h.runs_split hs fun b₁ hc₁ hl₁ hedge₁ => ?_
  have hsource₁ : b₁.source = b.source := hc₁.frame.1
  rw [← hsource₁] at ht ⊢
  refine hl₁.runs_split ht fun b₂ hc₂ hl₂ hedge₂ => ?_
  have hrun := hx b₂ (hc₁.trans hc₂) hl₂ (hc₂.isEdge hl₁ hedge₁) hedge₂
  rwa [show b₂.source = b₁.source from hc₂.frame.1] at hrun

theorem Laid.runs_replacing {stop : Nat} (ho : b.InOrder) (hs : b.IsEdge start) (ht : b.IsEdge stop)
    (hlt : start < stop) (text : Text) (keepEdges : Bool) :
    Runs (do
      let b ← get
      match b.pieces.filter fun p => start ≤ p.start && p.start < stop with
      | [] => throw (.outOfBounds stop b.source.size)
      | p :: ps =>
        blankRun (.overwriteAcrossSplit start stop) p ps
        modify (·.modifyPiece p.start fun p =>
          if keepEdges then { p with replacement := some text }
          else { p.blank with replacement := some text })) b
      (Step.run [.paint b.source (.range start stop text keepEdges)] b.strip) := by
  have hle := h.edge_le ht
  obtain ⟨q, hq, hlo, hhi⟩ := h.exists_piece (n := start) (by omega)
  have hstart : q.start = start := by
    have := h.edge_outside hs hq
    omega
  cases hw : b.pieces.filter fun p => start ≤ p.start && p.start < stop with
  | nil =>
    have hnone := List.filter_eq_nil_iff.mp hw q hq
    simp only [Bool.and_eq_true, decide_eq_true_eq] at hnone
    omega
  | cons p ps =>
    have hrun := blankRun_apply (.overwriteAcrossSplit start stop) p ps b
    rw [if_pos (ho.unbroken_filter h.sorted start stop p ps hw)] at hrun
    have hstroke := h.showing_eq hs ht hlt hw text keepEdges
    unfold Runs Editing.leave
    simp only [Editing.bind_apply, Editing.get_apply, hw, hrun, Editing.modify_apply]
    exact ⟨rfl, (congrArg strip hstroke).trans (strip_stroke b _)⟩

end

theorem InOrder.cuts {b' : EditBuffer} (ho : b.InOrder) (h : b.Laid) (hc : Cuts b b') :
    b'.InOrder :=
  (hc.keep (fun _ _ _ hl hcut hin => InOrder.cutAt hl hcut hin) h ho).2

theorem InOrder.after (ho : b.InOrder) (h : b.Laid) (hmove : o.isMove = false) :
    (b.after o).InOrder := by
  obtain ⟨b₁, f, hc, hp⟩ | ⟨start, stop, destination, rfl, -⟩ := h.after_cases o
  · exact (ho.cuts h hc).painted hp
  · cases hmove

theorem InOrder.afterAll (ho : b.InOrder) (h : b.Sound)
    (hmoves : ∀ o ∈ os, o.isMove = false) : (b.afterAll os).InOrder := by
  induction os generalizing b with
  | nil => exact ho
  | cons o os ih =>
    obtain ⟨hmove, hmoves⟩ := List.forall_mem_cons.mp hmoves
    exact ih (ho.after h.laid hmove) (h.after o) hmoves

/-- A buffer over a source in which nothing was moved. -/
structure Resting (source : Text) (b : EditBuffer) : Prop where
  laid : b.Laid
  source_eq : b.source = source
  order : b.InOrder
  linked : b.Linked

theorem resting_afterAll (source : Text) (hmoves : ∀ o ∈ os, o.isMove = false) :
    Resting source ((ofText source).afterAll os) := by
  have hsound := ofText_sound source
  refine ⟨(hsound.afterAll os).laid, hsound.source_afterAll os,
    (mirrors_ofText source).order.afterAll hsound hmoves, ?_⟩
  refine ((ofText_linked source).afterAll_iff hsound os).mpr ?_ os (List.prefix_refl os)
  generalize ofText source = b
  induction os generalizing b with
  | nil => rfl
  | cons o os ih =>
    obtain ⟨hmove, hmoves⟩ := List.forall_mem_cons.mp hmoves
    have hone : b.clears o = true := by cases o <;> first | rfl | cases hmove
    rw [clearsAll, hone, ih hmoves]
    rfl

/-- How a call with a stroke goes on the buffers of a source: the source alone settles the answer and
the buffer is left as it is, or the call makes the steps of its stroke. -/
inductive Course (source : Text) (o : Operation) (k : Stroke) : Prop where
  | settled (r : Option EditError)
      (h : ∀ b : EditBuffer, b.source = source → b.refusal o = r ∧ b.after o = b)
  | steps (le : k.footprint.start ≤ k.footprint.stop)
      (start : source.isBoundary k.footprint.start = true)
      (stop : source.isBoundary k.footprint.stop = true)
      (h : ∀ b : EditBuffer, b.source = source → source ≠ [] → b.Laid → b.InOrder →
        Runs o.run b (Step.run (Step.ofStroke source k) b.strip))

theorem Course.of_error {source : Text} {e : EditError}
    (h : ∀ b : EditBuffer, b.source = source → o.run b = .error e b) : Course source o k := by
  refine .settled (some e) fun b hb => ?_
  simp [refusal, after, Editing.leave, h b hb]

theorem course_insertion
    (hrun : o.run = do split n; modify f; record kind (.empty n) text) (hk : k.footprint = ⟨n, n⟩)
    (hf : ∀ b : EditBuffer, b.Laid → b.source ≠ [] → b.IsEdge n → f b = b.stroke k)
    (source : Text) : Course source o k := by
  obtain ⟨-, e, -, he⟩ | ⟨hn, -⟩ := checkOffset_settled source n
  · refine .of_error (e := e) fun b hb => ?_
    rw [hrun]
    simp [split, he b hb]
  · refine .steps (by simp [hk]) (by rw [hk]; exact hn) (by rw [hk]; exact hn) ?_
    rintro b rfl hne hl -
    rw [hrun]
    exact hl.runs_insertion kind text hk hn fun b' hl' hsource hedge => hf b' hl' (hsource ▸ hne) hedge

theorem course_range {stop : Nat} {early x : Editing Unit} (hrun : ∀ b, o.run b = (do
        checkRange start stop
        if start = stop then early
        else
          split start
          split stop
          x : Editing Unit) b) (hearly : early = pure () ∨ ∃ e, early = throw e)
    (hx : ∀ b : EditBuffer, b.Laid → b.InOrder → b.IsEdge start → b.IsEdge stop → start < stop →
      Runs x b (Step.run [.paint b.source (.range start stop text keepEdges)] b.strip))
    (source : Text) : Course source o (.range start stop text keepEdges) := by
  obtain ⟨-, e, -, he⟩ | ⟨hle, hs, ht, hok⟩ := checkRange_settled source start stop
  · refine .of_error (e := e) fun b hb => ?_
    simp [hrun, he b hb]
  by_cases heq : start = stop
  · have hsettled (b : EditBuffer) (hb : b.source = source) : o.run b = early b := by
      simp [hrun, hok b hb, if_pos heq]
    obtain rfl | ⟨e, rfl⟩ := hearly
    · refine .settled none fun b hb => ?_
      simp [refusal, after, Editing.leave, hsettled b hb]
    · exact .of_error hsettled
  · refine .steps hle hs ht ?_
    rintro b rfl - hl ho
    have hcuts : o.run b = (do split start; split stop; x : Editing Unit) b := by
      simp [hrun, hok b rfl, if_neg heq]
    unfold Runs Editing.leave
    rw [hcuts]
    exact hl.runs_range rfl hs ht fun b' hc hl' hstart hstop =>
      hx b' hl' (ho.cuts hl hc) hstart hstop (by omega)

theorem course_replace {stop : Nat}
    (hrun : o.run = do replace start stop text keepEdges; record kind ⟨start, stop⟩ text)
    (source : Text) : Course source o (.range start stop text keepEdges) := by
  refine course_range (fun b => ?_) (.inr ⟨.emptyOverwrite start, rfl⟩)
    (fun b hl ho hs ht hlt => (hl.runs_replacing ho hs ht hlt text keepEdges).record kind
      ⟨start, stop⟩ text) source
  rw [hrun]
  simp only [replace, Editing.bind_apply]
  cases checkRange start stop b with
  | error e b' => rfl
  | ok u b' =>
    by_cases heq : start = stop
    · simp only [if_pos heq]
      rfl
    · simp only [if_neg heq, Editing.bind_apply]
      cases split start b' with
      | error e b' => rfl
      | ok u b' =>
        dsimp only
        cases split stop b' with
        | error e b' => rfl
        | ok u b' => rfl

theorem course_of_stroke? (hk : o.stroke? = some k) (source : Text) : Course source o k := by
  cases o with
  | insertLeft n text | prependLeft n text =>
    obtain rfl := Option.some.inj hk
    exact course_insertion rfl rfl (fun b hl hne hn => hl.editLeft_eq hn hne _) source
  | insertRight n text | prependRight n text =>
    obtain rfl := Option.some.inj hk
    exact course_insertion rfl rfl (fun b hl hne hn => hl.editRight_eq hn hne _) source
  | remove start stop =>
    obtain rfl := Option.some.inj hk
    exact course_range (fun b => rfl) (.inl rfl)
      (fun b _ _ _ _ _ => (runs_paint (blankRange_eq b start stop)).record _ _ _) source
  | overwrite start stop text | update start stop text =>
    obtain rfl := Option.some.inj hk
    exact course_replace rfl source
  | append | prepend | moveRange | slice => cases hk

end EditBuffer
end SfcTsx
