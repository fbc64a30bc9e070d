import SfcTsx.Proofs.EditBuffer.Operation
import Mathlib.Data.List.Nodup
import Mathlib.Data.List.Perm.Subperm

namespace SfcTsx.EditBuffer

variable {p : Piece} {b : EditBuffer} {c : Option Nat} {ps qs : List Piece} {q : Piece}

/-- Following `next` from a cursor visits these pieces and comes to an end. -/
inductive Visits (b : EditBuffer) : Option Nat → List Piece → Prop
  | done : Visits b none []
  | visit {s : Nat} {p : Piece} {ps : List Piece} (here : b.startingAt? s = some p)
      (rest : Visits b p.next ps) : Visits b (some s) (p :: ps)

def Ends (b : EditBuffer) : Prop := ∃ ps, b.Visits (some b.first) ps

theorem start_of_startingAt? {s : Nat} (h : b.startingAt? s = some p) : p.start = s := by
  simpa using List.find?_some h

section
variable {b : EditBuffer}

theorem Visits.unique (h : b.Visits c ps) (h' : b.Visits c qs) : ps = qs := by
  induction h generalizing qs with
  | done => cases h'; rfl
  | visit here _ ih =>
    cases h' with
    | visit here' rest' =>
      obtain rfl : _ = _ := Option.some.inj (here.symm.trans here')
      rw [ih rest']

theorem Visits.suffix (h : b.Visits c (ps ++ p :: qs)) : b.Visits (some p.start) (p :: qs) := by
  induction ps generalizing c with
  | nil =>
    cases h with
    | visit here rest => exact .visit (start_of_startingAt? here ▸ here) rest
  | cons q ps ih =>
    cases h with
    | visit _ rest => exact ih rest

theorem Visits.mem (h : b.Visits c ps) : ∀ p ∈ ps, p ∈ b.pieces := by
  induction h with
  | done => simp
  | visit here _ ih =>
    intro q hq
    rcases List.mem_cons.mp hq with rfl | hq
    · exact List.mem_of_find?_eq_some here
    · exact ih q hq

theorem Visits.next_eq (h : b.Visits c (ps ++ p :: q :: qs)) : p.next = some q.start := by
  cases h.suffix with
  | visit _ rest =>
    cases hn : p.next with
    | none => rw [hn] at rest; cases rest
    | some n =>
      rw [hn] at rest
      cases rest with
      | visit here _ => rw [start_of_startingAt? here]

theorem Visits.nodup (h : b.Visits c ps) : (ps.map Piece.start).Nodup := by
  induction h with
  | done => simp
  | @visit s p ps here rest ih =>
    rw [List.map_cons, List.nodup_cons]
    refine ⟨?_, ih⟩
    intro hm
    obtain ⟨q, hq, hqp⟩ := List.mem_map.mp hm
    obtain ⟨l, r, rfl⟩ := List.append_of_mem hq
    have hagain := rest.suffix
    rw [hqp, start_of_startingAt? here] at hagain
    have hlen := congrArg List.length (hagain.unique (.visit here rest))
    simp only [List.length_cons, List.length_append] at hlen
    omega

theorem Visits.length_le (h : b.Visits c ps) : ps.length ≤ b.pieces.length :=
  (List.subperm_of_subset h.nodup.of_map h.mem).length_le

theorem Visits.chain_eq {n : Nat} (h : b.Visits c ps) (hn : ps.length ≤ n) : b.chain n c = ps := by
  induction h generalizing n with
  | done => cases n <;> rfl
  | visit here _ ih =>
    cases n with
    | zero => simp at hn
    | succ n =>
      simp only [List.length_cons, Nat.add_le_add_iff_right] at hn
      simp only [chain, here, ih hn]

theorem Visits.output_eq (h : b.Visits (some b.first) ps) : b.output = ps :=
  h.chain_eq h.length_le

theorem Ends.visits (h : b.Ends) : b.Visits (some b.first) b.output := by
  obtain ⟨ps, hps⟩ := h
  rwa [hps.output_eq]

end

theorem mem_of_mem_chain {n : Nat} (hp : p ∈ b.chain n c) : p ∈ b.pieces := by
  induction n generalizing c with
  | zero => simp [chain] at hp
  | succ n ih =>
    cases c with
    | none => simp [chain] at hp
    | some s =>
      unfold chain at hp
      split at hp
      next q hq =>
        rcases List.mem_cons.mp hp with rfl | hp
        · exact List.mem_of_find?_eq_some hq
        · exact ih hp
      next => cases hp

theorem mem_of_mem_output (hp : p ∈ b.output) : p ∈ b.pieces :=
  mem_of_mem_chain hp

/-- What the links point to is there. -/
structure Closed (b : EditBuffer) : Prop where
  first : ∃ p ∈ b.pieces, p.start = b.first
  next : ∀ p ∈ b.pieces, ∀ n, p.next = some n → ∃ q ∈ b.pieces, q.start = n

theorem ofText_closed (source : Text) : (ofText source).Closed := by
  refine ⟨⟨_, List.mem_singleton_self _, rfl⟩, ?_⟩
  intro p hp n hn
  simp only [ofText, List.mem_singleton] at hp
  simp [hp] at hn

section
variable {b : EditBuffer} {p : Piece} {offset : Nat} (h : b.Laid) (hc : b.CanCut p offset)
include h hc

theorem Laid.not_start (hq : q ∈ b.pieces) : q.start ≠ offset := by
  intro he
  have hlo := hc.lo
  have hhi := hc.hi
  by_cases hqp : q = p
  · subst hqp
    omega
  · obtain ⟨ho, hwq, -⟩ := h.apart hq hc.mem hqp
    omega

theorem Laid.visits_cutAt (hv : b.Visits c ps) :
    (b.cutAt p offset).Visits c (ps.flatMap (cutting p offset)) := by
  induction hv with
  | done => exact .done
  | @visit s q ps here _ ih =>
    obtain ⟨hq, rfl⟩ := h.startingAt?_eq_some.mp here
    have hat := h.startingAt?_cutAt hc
    have hne := h.not_start hc hq
    by_cases hs : q.start = p.start
    · obtain rfl := h.eq_of_start hq hc.mem hs
      have htail := hat offset
      rw [if_neg (Ne.symm hne), if_pos rfl] at htail
      have hhead := hat q.start
      rw [if_pos rfl] at hhead
      have hcut : cutting q offset q =
          [afterCut q offset (cutPiece q offset).1, afterCut q offset (cutPiece q offset).2] :=
        if_pos rfl
      rw [List.flatMap_cons, hcut]
      exact .visit hhead (by simpa [cutPiece] using .visit htail (by simpa [cutPiece] using ih))
    · have hother := hat q.start
      rw [if_neg hs, if_neg hne, here] at hother
      have hcut : cutting p offset q = [afterCut p offset q] := if_neg hs
      rw [List.flatMap_cons, hcut]
      exact .visit hother (by simpa using ih)

theorem Laid.exists_visits_of_cutAt (hcl : b.Closed) (n : Nat) :
    ∀ (c : Option Nat) (ps : List Piece), (∀ s, c = some s → ∃ q ∈ b.pieces, q.start = s) →
      ps.length ≤ n → (b.cutAt p offset).Visits c ps → ∃ qs, b.Visits c qs := by
  induction n with
  | zero =>
    intro c ps _ hn hv
    obtain rfl := List.length_eq_zero_iff.mp (Nat.le_zero.mp hn)
    cases hv
    exact ⟨[], .done⟩
  | succ n ih =>
    intro c ps hcur hn hv
    cases hv with
    | done => exact ⟨[], .done⟩
    | @visit s r ps here rest =>
      obtain ⟨q, hq, rfl⟩ := hcur s rfl
      have hqat := h.startingAt?_eq_some.mpr ⟨hq, rfl⟩
      have hne := h.not_start hc hq
      rw [h.startingAt?_cutAt hc] at here
      simp only [List.length_cons, Nat.add_le_add_iff_right] at hn
      by_cases hs : q.start = p.start
      · obtain rfl := h.eq_of_start hq hc.mem hs
        rw [if_pos rfl, Option.some.injEq] at here
        subst here
        -- the tail comes next, and then what came after the whole piece
        rw [show (afterCut q offset (cutPiece q offset).1).next = some offset by simp [cutPiece]]
          at rest
        cases rest with
        | @visit _ _ ps' here' rest' =>
          rw [h.startingAt?_cutAt hc] at here'
          rw [if_neg (Ne.symm hne), if_pos rfl, Option.some.injEq] at here'
          subst here'
          simp only [List.length_cons] at hn
          obtain ⟨qs, hqs⟩ := ih q.next ps' (fun s hs => hcl.next q hq s hs) (by omega)
            (by simpa [cutPiece] using rest')
          exact ⟨q :: qs, .visit hqat hqs⟩
      · rw [if_neg hs, if_neg hne, hqat, Option.map_some, Option.some.injEq] at here
        subst here
        obtain ⟨qs, hqs⟩ := ih q.next _ (fun s hs => hcl.next q hq s hs) hn (by simpa using rest)
        exact ⟨q :: qs, .visit hqat hqs⟩

theorem Laid.closed_cutAt (hcl : b.Closed) : (b.cutAt p offset).Closed := by
  have hkeep {q : Piece} (hq : q ∈ b.pieces) :
      ∃ r ∈ (b.cutAt p offset).pieces, r.start = q.start := by
    by_cases hqp : q = p
    · subst hqp
      exact ⟨_, (h.mem_cutAt hc).mpr (.inl rfl), by simp [cutPiece]⟩
    · exact ⟨_, (h.mem_cutAt hc).mpr (.inr (.inr ⟨q, hq, hqp, rfl⟩)), by simp⟩
  refine ⟨?_, ?_⟩
  · obtain ⟨q, hq, hf⟩ := hcl.first
    obtain ⟨r, hr, hrs⟩ := hkeep hq
    exact ⟨r, hr, by rw [hrs, hf, cutAt_eq]⟩
  · intro r hr n hn
    rcases (h.mem_cutAt hc).mp hr with rfl | rfl | ⟨q, hq, -, rfl⟩
    · have hoff : offset = n := by simpa [cutPiece] using hn
      exact ⟨_, (h.mem_cutAt hc).mpr (.inr (.inl rfl)), by simp [cutPiece, hoff]⟩
    · obtain ⟨q, hq, hqn⟩ := hcl.next p hc.mem n (by simpa [cutPiece] using hn)
      obtain ⟨r, hr, hrs⟩ := hkeep hq
      exact ⟨r, hr, hrs.trans hqn⟩
    · obtain ⟨q', hq', hqn⟩ := hcl.next q hq n (by simpa using hn)
      obtain ⟨r, hr, hrs⟩ := hkeep hq'
      exact ⟨r, hr, hrs.trans hqn⟩

theorem Laid.render_cutting (hq : q ∈ b.pieces) :
    (cutting p offset q).flatMap Piece.render = q.render := by
  unfold cutting
  split
  next hs =>
    obtain rfl := h.eq_of_start hq hc.mem hs
    obtain ⟨s, u, hp, -, -, -, hcut⟩ := h.cutPiece_eq hc
    have hplain := hc.plain
    simp only [hcut, List.flatMap_cons, List.flatMap_nil, afterCut_render, List.append_nil]
    cases hr : q.replacement with
    | none => simp [Piece.render, Piece.shown, hr, hp]
    | some t =>
      obtain rfl : t = [] := by simpa [hr] using hplain
      simp [Piece.render, Piece.shown, hr]
  next => simp

end

theorem Laid.ends_cutAt_iff {offset : Nat} (h : b.Laid)
    (hc : b.CanCut p offset) (hcl : b.Closed) : (b.cutAt p offset).Ends ↔ b.Ends := by
  have hfirst : (b.cutAt p offset).first = b.first := by rw [cutAt_eq]
  constructor
  · rintro ⟨ps, hps⟩
    rw [hfirst] at hps
    refine h.exists_visits_of_cutAt hc hcl ps.length _ ps ?_ (Nat.le_refl _) hps
    rintro s hs
    obtain rfl := Option.some.inj hs
    exact hcl.first
  · rintro ⟨ps, hps⟩
    exact ⟨_, hfirst ▸ h.visits_cutAt hc hps⟩

theorem Laid.render_cutAt {offset : Nat} (h : b.Laid)
    (hc : b.CanCut p offset) (he : b.Ends) : (b.cutAt p offset).render = b.render := by
  have hv := he.visits
  have hout : (b.cutAt p offset).output = b.output.flatMap (cutting p offset) := by
    apply Visits.output_eq
    rw [show (b.cutAt p offset).first = b.first by rw [cutAt_eq]]
    exact h.visits_cutAt hc hv
  have hsame : (b.output.flatMap (cutting p offset)).flatMap Piece.render =
      b.output.flatMap Piece.render := by
    rw [List.flatMap_assoc]
    exact List.flatMap_congr fun q hq => h.render_cutting hc (hv.mem q hq)
  rw [render, hout, hsame, cutAt_eq]
  rfl

theorem Cuts.text {b' : EditBuffer} (hc : Cuts b b') (h : b.Laid) (hcl : b.Closed) :
    b'.Closed ∧ (b'.Ends ↔ b.Ends) ∧ (b.Ends → b'.render = b.render) := by
  refine (hc.keep (P := fun b' => b'.Closed ∧ (b'.Ends ↔ b.Ends) ∧
    (b.Ends → b'.render = b.render)) ?_ h ⟨hcl, Iff.rfl, fun _ => rfl⟩).2
  rintro b₁ p offset h₁ hc₁ ⟨hcl₁, he₁, hr₁⟩
  refine ⟨h₁.closed_cutAt hc₁ hcl₁, (h₁.ends_cutAt_iff hc₁ hcl₁).trans he₁, ?_⟩
  intro he
  rw [h₁.render_cutAt hc₁ (he₁.mpr he), hr₁ he]

section
variable {f : Piece → Piece} {b b' : EditBuffer} (hp : Painted f b b')
include hp

theorem Painted.laid (h : b.Laid) : b'.Laid :=
  h.map hp.source hp.pieces fun p => ⟨(hp.keeps p).1, (hp.keeps p).2.1⟩

theorem Painted.startingAt? (s : Nat) : b'.startingAt? s = (b.startingAt? s).map f := by
  have hkey : ((·.start == s) ∘ f : Piece → Bool) = (·.start == s) := by
    funext p
    simp [(hp.keeps p).1]
  rw [EditBuffer.startingAt?, hp.pieces, List.find?_map, hkey, EditBuffer.startingAt?]

theorem Painted.chain (n : Nat) (c : Option Nat) : b'.chain n c = (b.chain n c).map f := by
  induction n generalizing c with
  | zero => cases c <;> rfl
  | succ n ih =>
    cases c with
    | none => rfl
    | some s =>
      simp only [EditBuffer.chain, hp.startingAt?]
      cases b.startingAt? s with
      | none => rfl
      | some p => simp [ih, (hp.keeps p).2.2.2]

theorem Painted.output : b'.output = b.output.map f := by
  rw [EditBuffer.output, hp.chain, hp.first, hp.pieces, List.length_map, EditBuffer.output]

theorem Painted.visits (hv : b.Visits c ps) : b'.Visits c (ps.map f) := by
  induction hv with
  | done => exact .done
  | @visit s p ps here _ ih =>
    refine .visit (p := f p) ?_ ?_
    · rw [hp.startingAt?, here, Option.map_some]
    · rw [(hp.keeps p).2.2.2]
      exact ih

theorem Painted.exists_visits (hv : b'.Visits c ps) : ∃ qs, b.Visits c qs := by
  induction hv with
  | done => exact ⟨[], .done⟩
  | @visit s q ps here _ ih =>
    rw [hp.startingAt?, Option.map_eq_some_iff] at here
    obtain ⟨p, hat, rfl⟩ := here
    obtain ⟨qs, hqs⟩ := ih
    rw [(hp.keeps p).2.2.2] at hqs
    exact ⟨p :: qs, .visit hat hqs⟩

theorem Painted.ends_iff : b'.Ends ↔ b.Ends := by
  constructor
  · rintro ⟨ps, hv⟩
    rw [hp.first] at hv
    exact hp.exists_visits hv
  · rintro ⟨ps, hv⟩
    exact ⟨ps.map f, hp.first ▸ hp.visits hv⟩

theorem Painted.closed (hcl : b.Closed) : b'.Closed := by
  have hkeep {q : Piece} (hq : q ∈ b.pieces) : ∃ r ∈ b'.pieces, r.start = q.start :=
    ⟨f q, by rw [hp.pieces]; exact List.mem_map_of_mem hq, (hp.keeps q).1⟩
  refine ⟨?_, ?_⟩
  · obtain ⟨q, hq, hqf⟩ := hcl.first
    obtain ⟨r, hr, hrs⟩ := hkeep hq
    exact ⟨r, hr, by rw [hrs, hqf, hp.first]⟩
  · intro r hr n hn
    rw [hp.pieces] at hr
    obtain ⟨q, hq, rfl⟩ := List.mem_map.mp hr
    obtain ⟨q', hq', hqn⟩ := hcl.next q hq n ((hp.keeps q).2.2.2 ▸ hn)
    obtain ⟨r, hr, hrs⟩ := hkeep hq'
    exact ⟨r, hr, hrs.trans hqn⟩

end

end SfcTsx.EditBuffer
