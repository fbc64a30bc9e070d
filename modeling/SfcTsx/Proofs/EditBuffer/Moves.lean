import SfcTsx.Proofs.EditBuffer.Ring

namespace SfcTsx.EditBuffer

theorem chain_append_iff {α : Type} {R : α → α → Prop} {A B C : List α} {f z w l r o : α}
    (hA : A.head? = some f) (hA' : A.getLast? = some z) (hB : B.head? = some w)
    (hB' : B.getLast? = some l) (hC : C.head? = some r) (hC' : C.getLast? = some o) :
    Cycle.Chain R (A ++ B ++ C : List α) ↔
      A.IsChain R ∧ B.IsChain R ∧ C.IsChain R ∧ R z w ∧ R l r ∧ R o f := by
  rw [chain_iff]
  simp only [List.isChain_append, List.getLast?_append, List.head?_append, hA, hA', hB, hB', hC, hC',
    Option.some_or, Option.mem_some_iff, forall_eq']
  tauto

section
variable {b : EditBuffer} {first last : Nat} {right : Option Nat} {us A B C : List (Option Nat)}

theorem place_relink {u : Option Nat} : (b.relink first last right).Place u ↔ b.Place u := by
  cases u with
  | none => simp [place_none]
  | some s => rw [place_some, place_some, (rewired_relink b first last right).has_iff]

section
variable (hp : b.Paired) (hf : b.Has first) (hl : b.Has last) (hr : b.Place right)
  (hrf : right ≠ some first) (hz : b.pred right ≠ some last)
  (hgap : b.pred (some first) = none → b.succ (some last) ≠ none)
include hp hf hl hr hrf hz hgap

theorem Paired.link_relink {x y : Option Nat} (hx : b.Place x) (hxy : b.Link x y)
    (h1 : x ≠ some last) (h2 : x ≠ b.pred right) (h3 : x ≠ b.pred (some first)) :
    (b.relink first last right).Link x y := by
  have hy : b.Place y := hxy.1 ▸ hp.place_succ x hx
  refine ⟨?_, ?_⟩
  · rw [succ_relink hp hf hl hr hrf hz hx fun _ => hgap, if_neg h1, if_neg h2, if_neg h3, hxy.1]
  · rw [pred_relink hf hl hrf hz hy fun _ hw ho => hgap ho hw, if_neg, if_neg, if_neg, hxy.2]
    · rintro rfl
      exact h1 (hxy.2.symm.trans (hp.pred_succ _ (place_some.mpr hl)))
    · rintro rfl
      exact h2 hxy.2.symm
    · rintro rfl
      exact h3 hxy.2.symm

theorem Paired.link_relink_last : (b.relink first last right).Link (some last) right := by
  refine ⟨?_, ?_⟩
  · rw [succ_relink hp hf hl hr hrf hz (place_some.mpr hl) fun _ => hgap, if_pos rfl]
  · rw [pred_relink hf hl hrf hz hr fun _ hw ho => hgap ho hw, if_neg hrf, if_pos rfl]

theorem Paired.link_relink_first :
    (b.relink first last right).Link (b.pred right) (some first) := by
  refine ⟨?_, ?_⟩
  · rw [succ_relink hp hf hl hr hrf hz (hp.place_pred right hr) fun _ => hgap, if_neg hz, if_pos rfl]
  · rw [pred_relink hf hl hrf hz (place_some.mpr hf) fun _ hw ho => hgap ho hw, if_pos rfl]

theorem Paired.link_relink_gap (ho : b.pred (some first) ≠ some last) :
    (b.relink first last right).Link (b.pred (some first)) (b.succ (some last)) := by
  have hback := hp.pred_succ (some last) (place_some.mpr hl)
  refine ⟨?_, ?_⟩
  · rw [succ_relink hp hf hl hr hrf hz (hp.place_pred _ (place_some.mpr hf)) fun _ => hgap,
      if_neg ho, if_neg (hp.pred_ne hf hr hrf).symm, if_pos rfl]
  · rw [pred_relink hf hl hrf hz (hp.place_succ _ (place_some.mpr hl)) fun _ hw ho => hgap ho hw,
      if_neg, if_neg, if_pos rfl]
    · intro he
      exact hz (he ▸ hback)
    · intro he
      exact ho (he ▸ hback)

end

/-- A run that comes before the landing place trades places with what stands between them. -/
theorem Ring.splice (h : b.Ring (A ++ B ++ C)) (hA : A.head? = some (some first))
    (hA' : A.getLast? = some (some last)) (hB : B ≠ []) (hC : C.head? = some right) :
    (b.relink first last right).Ring (A ++ C ++ B) := by
  have hp := h.paired
  obtain ⟨w, hw⟩ := Option.ne_none_iff_exists'.mp (mt List.head?_eq_none_iff.mp hB)
  obtain ⟨l, hl⟩ := Option.ne_none_iff_exists'.mp (mt List.getLast?_eq_none_iff.mp hB)
  obtain ⟨o, ho⟩ : ∃ o, C.getLast? = some o := by
    refine Option.ne_none_iff_exists'.mp fun hn => ?_
    rw [List.getLast?_eq_none_iff.mp hn] at hC
    cases hC
  obtain ⟨cA, cB, cC, ⟨rfl, -⟩, ⟨-, rfl⟩, ⟨-, rfl⟩⟩ :=
    (chain_append_iff hA hA' hw hl hC ho).mp h.chain
  have fA := List.mem_of_head? hA
  have zA := List.mem_of_getLast? hA'
  have wB := List.mem_of_head? hw
  have lB := List.mem_of_getLast? hl
  have rC := List.mem_of_head? hC
  have oC := List.mem_of_getLast? ho
  -- the three parts share no place
  obtain ⟨hnAB, hnC, hABC⟩ := List.nodup_append.mp h.nodup
  obtain ⟨hnA, hnB, hAB⟩ := List.nodup_append.mp hnAB
  have hAC {x y : Option Nat} (hx : x ∈ A) (hy : y ∈ C) : x ≠ y :=
    hABC x (List.mem_append_left _ hx) y hy
  have hBC {x y : Option Nat} (hx : x ∈ B) (hy : y ∈ C) : x ≠ y :=
    hABC x (List.mem_append_right _ hx) y hy
  have hmem (x : Option Nat) (hx : x ∈ A ∨ x ∈ B ∨ x ∈ C) : b.Place x :=
    (h.mem x).mp (by simpa [or_assoc] using hx)
  have hf : b.Has first := place_some.mp (hmem _ (.inl fA))
  have hz : b.Has last := place_some.mp (hmem _ (.inl zA))
  have hr : b.Place right := hmem _ (.inr (.inr rC))
  have hrf : right ≠ some first := (hAC fA rC).symm
  have hzl : b.pred right ≠ some last := (hAB _ zA _ lB).symm
  have hgap : b.pred (some first) = none → b.succ (some last) ≠ none := fun hpn hsn =>
    hBC wB oC (hsn.trans hpn.symm)
  have hkeep {x y : Option Nat} := hp.link_relink hf hz hr hrf hzl hgap (x := x) (y := y)
  have hperm : (A ++ C ++ B).Perm (A ++ B ++ C) := by
    rw [List.append_assoc, List.append_assoc]
    exact List.perm_append_comm.append_left A
  refine ⟨(chain_append_iff hA hA' hC ho hw hl).mpr ⟨?_, ?_, ?_,
    hp.link_relink_last hf hz hr hrf hzl hgap,
    hp.link_relink_gap hf hz hr hrf hzl hgap (hAC zA oC).symm,
    hp.link_relink_first hf hz hr hrf hzl hgap⟩,
    hperm.nodup_iff.mpr h.nodup, fun u => by rw [hperm.mem_iff, h.mem, place_relink]⟩
  · refine isChain_of_imp hnA cA fun x hx hlast y _ hxy => ?_
    refine hkeep (hmem x (.inl hx)) hxy ?_ (hAB x hx _ lB) (hAC hx oC)
    rintro rfl
    exact hlast hA'
  · refine isChain_of_imp hnC cC fun x hx hlast y _ hxy => ?_
    refine hkeep (hmem x (.inr (.inr hx))) hxy (hAC zA hx).symm (hBC lB hx).symm ?_
    rintro rfl
    exact hlast ho
  · refine isChain_of_imp hnB cB fun x hx hlast y _ hxy => ?_
    refine hkeep (hmem x (.inr (.inl hx))) hxy (hAB _ zA x hx).symm ?_ (hBC hx oC)
    rintro rfl
    exact hlast hl

theorem Paired.not_paired_relink (h : b.Paired) (hf : b.Has first) (hl : b.Has last)
    (hr : b.Place right) (hrf : right ≠ some first) (hmove : right = none → last ≠ b.last)
    (hleft : b.pred right = some last) : ¬(b.relink first last right).Paired := by
  intro hp
  have hnext := nextOf_relinkNeighbours_last first right hl
  have hprev := prevOf_relinkNeighbours_first last hf hrf
  have hout : b.succ (some last) = right := by rw [← hleft, h.succ_pred right hr]
  rw [if_pos hleft] at hnext
  cases ho : b.pred (some first) with
  | none =>
    have hfirst := (relink_links first hmove hf).2.2.1
    have hback := (relink_links first hmove hf).2.1
    rw [if_pos rfl, hleft] at hback
    rw [hprev, hnext, ho, hleft, if_neg (by simp), if_pos rfl, Option.getD_some] at hfirst
    have hround := hp.pred_succ none place_none
    rw [succ, hfirst, pred, hback] at hround
    cases hround
  | some m =>
    -- the piece in front of the run and the last piece of the run both lead to the destination
    have hm : b.Has m := place_some.mp (ho ▸ h.place_pred _ (place_some.mpr hf))
    have hne := h.pred_ne hf hr hrf
    rw [ho, hleft] at hne
    have hsm : (b.relink first last right).succ (some m) = right := by
      have hlinks := (relink_links first hmove hm).1
      rw [hnext, nextOf_relinkNeighbours hm, hleft, if_neg (fun he => hne (by rw [he])),
        if_neg (by simp), if_neg hne] at hlinks
      exact hlinks.trans ((if_pos ho).trans hout)
    have hsl : (b.relink first last right).succ (some last) = right :=
      (relink_links first hmove hl).1.trans (if_pos rfl)
    have hpm := hp.pred_succ (some m) (place_relink.mpr (place_some.mpr hm))
    have hpl := hp.pred_succ (some last) (place_relink.mpr (place_some.mpr hl))
    rw [hsm] at hpm
    rw [hsl] at hpl
    exact hne (hpl.symm.trans hpm)

theorem Ring.not_ring_relink {T D vs : List (Option Nat)} (h : b.Ring (T ++ b.pred right :: D))
    (hT : (T ++ [b.pred right]).head? = some (some first)) (hl : b.Has last)
    (hlast : some last ∉ T) (hleft : b.pred right ≠ some last) (hr : b.Place right)
    (hrf : right ≠ some first) : ¬(b.relink first last right).Ring vs := by
  intro hv
  have hp := h.paired
  obtain ⟨hchain, hseam⟩ := chain_iff.mp h.chain
  have hmem : ∀ u ∈ T ++ [b.pred right], b.Place u := by
    intro u hu
    refine (h.mem u).mp ?_
    rw [List.append_cons]
    exact List.mem_append_left _ hu
  have hfirst := List.mem_of_head? hT
  have hf : b.Has first := place_some.mp (hmem _ hfirst)
  have hdisj := (List.nodup_append.mp h.nodup).2.2
  have hfront : b.pred (some first) ∉ T := by
    intro ho
    have hz := List.getLast?_eq_some_getLast (List.cons_ne_nil (b.pred right) D)
    have hhead : (T ++ b.pred right :: D).head? = some (some first) := by
      rw [List.append_cons, List.head?_append, hT, Option.some_or]
    have hlink := hseam _ (by rwa [List.getLast?_append_cons]) _ hhead
    exact hdisj _ ho _ (List.mem_of_getLast? hz) hlink.2
  have hstep : ∀ u ∈ T, b.succ u ∈ T ++ [b.pred right] := by
    intro u hu
    obtain ⟨v, hv, hlink⟩ := exists_rel_of_mem hchain hu
    rwa [hlink.1]
  have hclosed : ∀ u, u ∈ T ++ [b.pred right] →
      (b.relink first last right).succ u ∈ T ++ [b.pred right] := by
    intro u hu
    rcases List.mem_append.mp hu with hT' | hu'
    · have hne : u ≠ b.pred (some first) := by
        rintro rfl
        exact hfront hT'
      have hne' : u ≠ some last := by
        rintro rfl
        exact hlast hT'
      rw [succ_relink hp hf hl hr hrf hleft (hmem u hu) (fun hu ho => absurd (hu.trans ho.symm) hne),
        if_neg hne', if_neg (hdisj u hT' _ List.mem_cons_self), if_neg hne]
      exact hstep u hT'
    · obtain rfl := List.mem_singleton.mp hu'
      rw [succ_relink hp hf hl hr hrf hleft (hmem _ hu) (fun hu ho =>
        absurd (hu.trans ho.symm) (hp.pred_ne hf hr hrf)), if_neg hleft, if_pos rfl]
      exact hfirst
  have hall := hv.forall_of_succ (P := (· ∈ T ++ [b.pred right]))
    (place_relink.mpr (place_some.mpr hf)) hfirst hclosed (place_relink.mpr (place_some.mpr hl))
  rcases List.mem_append.mp hall with hin | hin
  · exact hlast hin
  · exact hleft (List.mem_singleton.mp hin).symm

theorem exists_dropWhile {α : Type} [BEq α] [LawfulBEq α] {x : α} {l : List α} (hx : x ∈ l) :
    ∃ m, l.dropWhile (· != x) = x :: m := by
  induction l with
  | nil => cases hx
  | cons y l ih =>
    by_cases hy : y = x
    · exact ⟨l, by simp [hy]⟩
    · obtain ⟨m, hm⟩ := ih ((List.mem_cons.mp hx).resolve_left (Ne.symm hy))
      exact ⟨m, by simpa [hy] using hm⟩

theorem Ring.linked_relink_iff (h : b.Ring us) (hlaid : b.Laid) (hus : us.head? = some (some first))
    (hl : b.Has last) (hr : b.Place right) (hrf : right ≠ some first)
    (hmove : right = none → last ≠ b.last) :
    (b.relink first last right).Linked ↔ some last ∈ us.takeWhile (· != b.pred right) := by
  have hlaid' := (rewired_relink b first last right).laid hlaid
  have hp := h.paired
  obtain ⟨D, hD⟩ := exists_dropWhile ((h.mem _).mpr (hp.place_pred right hr))
  have hsplit := List.takeWhile_append_dropWhile (p := (· != b.pred right)) (l := us)
  generalize us.takeWhile (· != b.pred right) = T at hsplit ⊢
  rw [hD] at hsplit
  subst hsplit
  have hT : (T ++ [b.pred right]).head? = some (some first) := by
    cases T <;> simpa using hus
  constructor
  · intro hlink
    by_contra hlast
    by_cases hleft : b.pred right = some last
    · exact hp.not_paired_relink (place_some.mp ((h.mem _).mp (List.mem_of_head? hus))) hl hr hrf
        hmove hleft (hlink.ring hlaid').paired
    · exact h.not_ring_relink hT hl hlast hleft hr hrf (hlink.ring hlaid')
  · intro hlast
    have hC : D.head? = some right := by
      obtain ⟨hchain, hseam⟩ := chain_iff.mp h.chain
      have hsucc := hp.succ_pred right hr
      cases D with
      | nil => exact absurd (hsucc.symm.trans (hseam _ (by simp) _ hus).1) hrf
      | cons d D =>
        rw [List.isChain_append_cons_cons] at hchain
        rw [List.head?_cons, ← hchain.2.1.1, hsucc]
    obtain ⟨A, B, rfl⟩ := List.append_of_mem hlast
    have hring : b.Ring ((A ++ [some last]) ++ (B ++ [b.pred right]) ++ D) := by
      simpa using h
    refine (hring.splice ?_ (by simp) (by simp) hC).linked hlaid'
    cases A <;> simpa using hus

end

/-- The places of the ring, going round from a piece. -/
def round (b : EditBuffer) (first : Nat) : List (Option Nat) :=
  b.places.dropWhile (· != some first) ++ b.places.takeWhile (· != some first)

/-- A run can be put in front of a piece: it is at the end already and shall go there, or going
round from its first piece its last one is passed before the landing place. -/
def passes (b : EditBuffer) (first last : Nat) (right : Option Nat) : Bool :=
  (right = none && last = b.last) || some last ∈ (b.round first).takeWhile (· != b.pred right)

/-- The pieces between two edges can be put in front of the piece that starts at `destination`. -/
def canRelocate (b : EditBuffer) (start stop destination : Nat) : Bool :=
  match b.startingAt? start, b.endingAt? stop with
  | some first, some last =>
    b.passes first.start last.start ((b.startingAt? destination).map Piece.start)
  | _, _ => true

/-- An operation keeps the pieces in one ring: a move that is carried out has to, all others do. -/
def clears (b : EditBuffer) : Operation → Bool
  | .moveRange start stop destination =>
    match moveRange start stop destination b with
    | .ok _ _ => (b.withEdges start stop destination).canRelocate start stop destination
    | .error _ _ => true
  | _ => true

def clearsAll (b : EditBuffer) : List Operation → Bool
  | [] => true
  | o :: os => b.clears o && (b.after o).clearsAll os

section
variable {b : EditBuffer}

theorem Linked.ring_round (h : b.Linked) (hl : b.Laid) (first : Nat) : b.Ring (b.round first) := by
  refine Ring.rotate ?_
  rw [List.takeWhile_append_dropWhile]
  exact h.ring hl

theorem head?_round (h : b.Linked) (hl : b.Laid) {first : Nat} (hf : b.Has first) :
    (b.round first).head? = some (some first) := by
  obtain ⟨m, hm⟩ := exists_dropWhile (((h.ring hl).mem _).mpr (place_some.mpr hf))
  rw [round, hm]
  rfl

theorem Linked.relink_iff (h : b.Linked) (hl : b.Laid) {first last : Nat} {right : Option Nat}
    (hf : b.Has first) (hz : b.Has last) (hr : b.Place right) (hrf : right ≠ some first) :
    (b.relink first last right).Linked ↔ b.passes first last right = true := by
  by_cases hstay : right = none ∧ last = b.last
  · have hsame : b.relink first last right = b := by simp [relink, hstay]
    rw [hsame]
    exact iff_of_true h (by simp [passes, hstay])
  · rw [(h.ring_round hl first).linked_relink_iff hl (head?_round h hl hf) hz hr hrf
      fun hr hz => hstay ⟨hr, hz⟩]
    simp [passes, hstay]

theorem Linked.relocate_iff (h : b.Linked) (hl : b.Laid) {start stop destination : Nat}
    (hle : start ≤ stop) (hout : ¬(start ≤ destination ∧ destination ≤ stop)) :
    (b.relocate start stop destination).Linked ↔ b.canRelocate start stop destination = true := by
  unfold relocate canRelocate
  cases hf : b.startingAt? start with
  | none => exact iff_of_true h rfl
  | some first =>
    cases hz : b.endingAt? stop with
    | none => exact iff_of_true h rfl
    | some last =>
      obtain ⟨hfm, hfs⟩ := hl.startingAt?_eq_some.mp hf
      obtain ⟨hzm, -⟩ := hl.endingAt?_eq_some.mp hz
      refine h.relink_iff hl ⟨first, hfm, rfl⟩ ⟨last, hzm, rfl⟩ ?_ ?_
      · intro s hs
        obtain ⟨p, hp, rfl⟩ := Option.map_eq_some_iff.mp hs
        exact ⟨p, List.mem_of_find?_eq_some hp, rfl⟩
      · intro hs
        obtain ⟨p, hp, hps⟩ := Option.map_eq_some_iff.mp hs
        rw [start_of_startingAt? hp, hfs] at hps
        omega

theorem canRelocate_logged (r : EditRecord) (start stop destination : Nat) :
    (b.logged r).canRelocate start stop destination =
      b.canRelocate start stop destination := by
  have hplaces : (b.logged r).places = b.places := by
    rw [places, (painted_logged b r).output, List.map_id, places]
  have hpass (first last : Nat) (right : Option Nat) :
      (b.logged r).passes first last right = b.passes first last right := by
    have hpred : (b.logged r).pred right = b.pred right := by
      cases right <;> rfl
    rw [passes, round, hplaces, hpred]
    rfl
  simp only [canRelocate, hpass]
  rfl

theorem Linked.after_iff (h : b.Linked) (hl : b.Laid) (o : Operation) :
    (b.after o).Linked ↔ b.clears o = true := by
  have htouched (ht : Touched b (b.after o)) : (b.after o).Linked := by
    obtain ⟨b₁, f, hc, hp⟩ := ht
    exact (h.cuts hl hc).painted hp
  cases o with
  | moveRange start stop destination =>
    obtain ⟨e, b', hb, hc⟩ | ⟨hle, hout, hc, hl', hs, ht, hd, hb⟩ :=
      hl.moveRange_cases start stop destination
    · refine iff_of_true (htouched ?_) (by simp [clears, hb])
      simp only [after, Operation.run, Editing.leave, hb]
      exact hc.touched
    · have hlogged := painted_logged (b.withEdges start stop destination)
        ⟨.move destination, ⟨start, stop⟩, none⟩
      have hlink := (h.cuts hl hc).painted hlogged
      simp only [after, Operation.run, Editing.leave, clears, hb]
      rw [hlink.relocate_iff (hlogged.laid hl') hle hout, canRelocate_logged]
  | _ =>
    refine iff_of_true ?_ rfl
    obtain ht | ⟨_, _, _, ho, -⟩ := hl.after_cases _
    · exact htouched ht
    · cases ho

/-- A whole run: the pieces are in one ring all along exactly if every operation clears them. -/
theorem Linked.afterAll_iff (h : b.Linked) (hs : b.Sound) (os : List Operation) :
    (∀ pre, pre <+: os → (b.afterAll pre).Linked) ↔ b.clearsAll os = true := by
  induction os generalizing b with
  | nil => exact iff_of_true (fun pre hpre => by rwa [List.prefix_nil.mp hpre]) rfl
  | cons o os ih =>
    rw [clearsAll, Bool.and_eq_true, ← h.after_iff hs.laid o]
    constructor
    · intro hall
      have hone := hall [o] ⟨os, rfl⟩
      exact ⟨hone, (ih hone (hs.after o)).mp fun pre hpre =>
        hall (o :: pre) ((List.prefix_cons_inj o).mpr hpre)⟩
    · rintro ⟨hone, hall⟩ pre hpre
      cases pre with
      | nil => exact h
      | cons o' pre =>
        obtain ⟨rfl, hpre'⟩ := List.cons_prefix_cons.mp hpre
        exact (ih hone (hs.after o')).mpr hall pre hpre'

theorem Linked.ends (h : b.Linked) : b.Ends := ⟨_, h.walk⟩

theorem Linked.render_infix (h : b.Linked) {p : Piece} (hp : p ∈ b.pieces) :
    p.render <:+: b.render := by
  obtain ⟨l, r, hlr⟩ := List.append_of_mem (h.every.mem_iff.mpr hp)
  refine ⟨b.intro ++ l.flatMap Piece.render, r.flatMap Piece.render ++ b.outro, ?_⟩
  rw [render, hlr]
  simp

end

/-- The walk through the output visits every piece once, ends at the last one and is undone by `prev`
after every operation exactly if each move, going round from the first piece of its run, passes the
last one before the landing place. Then the pieces make up the source and the text of every one of
them is shown. -/
theorem linked_iff_clearsAll (source : Text) (os : List Operation) :
    ((∀ pre, pre <+: os → ((ofText source).afterAll pre).Linked) ↔
        (ofText source).clearsAll os = true) ∧
      ((ofText source).clearsAll os = true → ∀ pre, pre <+: os →
        let b := (ofText source).afterAll pre
        b.Ends ∧ b.pieces.flatMap Piece.source = source ∧ ∀ p ∈ b.pieces, p.render <:+: b.render) := by
  have hiff := (ofText_linked source).afterAll_iff (ofText_sound source) os
  refine ⟨hiff, ?_⟩
  intro hclear pre hpre b
  have hlink := hiff.mpr hclear pre hpre
  have hlaid := ((ofText_sound source).afterAll pre).laid
  refine ⟨hlink.ends, hlaid.text.trans ?_, fun p hp => hlink.render_infix hp⟩
  exact (ofText_sound source).source_afterAll pre

/-- Moves to both ends and one of a piece between two moved ones. -/
theorem linked_iff_clearsAll_reordered :
    let source : Text := ['a', 'b', 'c', 'd', 'e', 'f']
    let os : List Operation := [.moveRange 2 4 0, .moveRange 0 1 6, .remove 2 3, .moveRange 4 5 2]
    (ofText source).clearsAll os = true ∧
      ((ofText source).afterAll os).render = ['e', 'd', 'b', 'f', 'a'] ∧
      (∀ pre, pre <+: os → ((ofText source).afterAll pre).Linked) ∧
      ((ofText source).afterAll os).Ends :=
  have hclear : (ofText ['a', 'b', 'c', 'd', 'e', 'f']).clearsAll [.moveRange 2 4 0,
    .moveRange 0 1 6, .remove 2 3, .moveRange 4 5 2] = true := by decide +kernel
  ⟨hclear, by decide +kernel, (linked_iff_clearsAll _ _).1.mpr hclear,
    ((linked_iff_clearsAll _ _).2 hclear _ (List.prefix_refl _)).1⟩

/-- A run that is moved again to where it stands drops out of the output: its piece still shows its
source, but the walk does not come to it. -/
theorem repeated_move_drops_run :
    let b := (ofText ['a', 'b', 'c', 'd']).afterAll [.moveRange 1 2 3]
    let b' := b.after (.moveRange 1 2 3)
    b.clears (.moveRange 1 2 3) = false ∧ b.render = ['a', 'c', 'b', 'd'] ∧
      b'.render = ['a', 'c', 'd'] ∧
      (∃ p ∈ b'.pieces, p.source = ['b'] ∧ p.replacement = none ∧ p ∉ b'.output) ∧ ¬b'.Linked := by
  refine ⟨by decide +kernel, by decide +kernel, by decide +kernel, by decide +kernel, ?_⟩
  intro h
  exact absurd h.every.length_eq (by decide +kernel)

end SfcTsx.EditBuffer
