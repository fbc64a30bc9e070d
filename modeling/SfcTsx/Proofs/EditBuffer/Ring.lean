import SfcTsx.Proofs.EditBuffer.Relink
import Mathlib.Data.List.Cycle

namespace SfcTsx.EditBuffer

variable {p : Piece} {u : Option Nat}

/-- The output goes once through every piece and stops at the last one, and `prev` leads back. -/
structure Linked (b : EditBuffer) : Prop where
  walk : b.Visits (some b.first) b.output
  every : b.output.Perm b.pieces
  stops : b.output.getLast?.map Piece.start = some b.last
  back : ∀ p ∈ b.pieces, ∀ q ∈ b.pieces, p.next = some q.start ↔ q.prev = some p.start
  front : ∀ p ∈ b.pieces, p.prev = none ↔ p.start = b.first

def Link (b : EditBuffer) (u v : Option Nat) : Prop := b.succ u = v ∧ b.pred v = u

/-- The places in the order of the links, which lead from the last of them back to the first. -/
structure Ring (b : EditBuffer) (us : List (Option Nat)) : Prop where
  chain : Cycle.Chain b.Link us
  nodup : us.Nodup
  mem : ∀ u, u ∈ us ↔ b.Place u

section
variable {b : EditBuffer} {us vs : List (Option Nat)} {u v : Option Nat}

theorem place_none : b.Place none := by
  rintro s ⟨⟩

theorem place_some {s : Nat} : b.Place (some s) ↔ b.Has s :=
  ⟨fun h => h s rfl, fun h _ hs => Option.some.inj hs ▸ h⟩

theorem Ring.rotate (h : b.Ring (us ++ vs)) : b.Ring (vs ++ us) := by
  have heq : ((us ++ vs : List (Option Nat)) : Cycle (Option Nat)) = (vs ++ us : List _) :=
    Cycle.coe_eq_coe.mpr List.isRotated_append
  refine ⟨heq ▸ h.chain, (List.perm_append_comm.nodup_iff).mp h.nodup, ?_⟩
  intro u
  rw [← h.mem u, List.mem_append, List.mem_append, or_comm]

theorem Ring.from (h : b.Ring us) (hu : b.Place u) : ∃ vs, b.Ring (u :: vs) := by
  obtain ⟨l, m, rfl⟩ := List.append_of_mem ((h.mem u).mpr hu)
  exact ⟨m ++ l, h.rotate⟩

theorem Ring.link_succ (h : b.Ring us) (hu : b.Place u) : ∃ v, b.Place v ∧ b.Link u v := by
  obtain ⟨vs, h⟩ := h.from hu
  have hc := (Cycle.chain_coe_cons _ _ _).mp h.chain
  cases vs with
  | nil => exact ⟨u, hu, (List.isChain_cons_cons.mp hc).1⟩
  | cons v vs => exact ⟨v, (h.mem v).mp (by simp), (List.isChain_cons_cons.mp hc).1⟩

theorem Ring.link_pred (h : b.Ring us) (hv : b.Place v) : ∃ u, b.Place u ∧ b.Link u v := by
  obtain ⟨vs, h⟩ := h.from hv
  have hc := (Cycle.chain_coe_cons _ _ _).mp h.chain
  rw [← List.cons_append, List.isChain_append] at hc
  have hlast := List.getLast?_eq_some_getLast (List.cons_ne_nil v vs)
  exact ⟨_, (h.mem _).mp (List.getLast_mem _), hc.2.2 _ hlast v rfl⟩

theorem Ring.paired (h : b.Ring us) : b.Paired := by
  refine ⟨?_, ?_, ?_, ?_⟩
  · intro u hu
    obtain ⟨v, hv, hl⟩ := h.link_succ hu
    rwa [hl.1]
  · intro v hv
    obtain ⟨u, hu, hl⟩ := h.link_pred hv
    rwa [hl.2]
  · intro u hu
    obtain ⟨v, -, hl⟩ := h.link_succ hu
    rw [hl.1, hl.2]
  · intro v hv
    obtain ⟨u, -, hl⟩ := h.link_pred hv
    rw [hl.2, hl.1]

theorem Ring.forall_of_succ (h : b.Ring us) {P : Option Nat → Prop} (hu : b.Place u) (h0 : P u)
    (hs : ∀ v, P v → P (b.succ v)) (hv : b.Place v) : P v := by
  obtain ⟨vs, h⟩ := h.from hu
  have hc := (Cycle.chain_coe_cons _ _ _).mp h.chain
  have hmem : v ∈ u :: (vs ++ [u]) := by
    rw [← List.cons_append]
    exact List.mem_append_left _ ((h.mem v).mpr hv)
  exact hc.induction P _ (fun x y hxy hx => hxy.1 ▸ hs x hx) (fun _ => h0) v hmem

end

def places (b : EditBuffer) : List (Option Nat) := none :: b.output.map fun p => some p.start

section
variable {b : EditBuffer}

theorem Laid.nextOf_start (h : b.Laid) (hp : p ∈ b.pieces) : b.nextOf p.start = p.next := by
  rw [nextOf, h.startingAt?_eq_some.mpr ⟨hp, rfl⟩, Option.bind_some]

theorem Laid.prevOf_start (h : b.Laid) (hp : p ∈ b.pieces) : b.prevOf p.start = p.prev := by
  rw [prevOf, h.startingAt?_eq_some.mpr ⟨hp, rfl⟩, Option.bind_some]

theorem Visits.isChain_succ {c : Option Nat} {ps : List Piece} (h : b.Visits c ps)
    (hu : b.succ u = c) :
    List.IsChain (fun x y => b.succ x = y) (u :: (ps.map (fun p => some p.start) ++ [none])) := by
  induction h generalizing u with
  | done => simpa using hu
  | @visit s p ps here rest ih =>
    rw [List.map_cons, List.cons_append, List.isChain_cons_cons]
    obtain rfl := start_of_startingAt? here
    exact ⟨hu, ih (by rw [succ, nextOf, here, Option.bind_some])⟩

theorem exists_visits_of_isChain {ss : List Nat} (hs : ∀ s ∈ ss, b.Has s)
    (h : List.IsChain (fun x y => b.succ x = y) (u :: (ss.map some ++ [none]))) :
    ∃ ps, b.Visits (b.succ u) ps ∧ ps.map Piece.start = ss := by
  induction ss generalizing u with
  | nil =>
    have hn : b.succ u = none := by simpa using h
    exact ⟨[], hn ▸ .done, rfl⟩
  | cons s ss ih =>
    rw [List.map_cons, List.cons_append, List.isChain_cons_cons] at h
    obtain ⟨ps, hps, hmap⟩ := ih (fun t ht => hs t (List.mem_cons_of_mem s ht)) h.2
    obtain ⟨p, hp, hstart⟩ := (hs s List.mem_cons_self).startingAt?
    rw [succ, nextOf, hp, Option.bind_some] at hps
    exact ⟨p :: ps, h.1 ▸ .visit hp hps, by rw [List.map_cons, hmap, hstart]⟩

theorem Linked.pred_eq (h : b.Linked) (hl : b.Laid) {x y : Option Nat} (hx : b.Place x)
    (hy : b.Place y) (hxy : b.succ x = y) (hlast : y = none → x = some b.last) : b.pred y = x := by
  cases y with
  | none => rw [hlast rfl, pred]
  | some t =>
    obtain ⟨q, hq, rfl⟩ := place_some.mp hy
    rw [pred, hl.prevOf_start hq]
    cases x with
    | none => exact (h.front q hq).mpr (Option.some.inj hxy).symm
    | some s =>
      obtain ⟨p, hp, rfl⟩ := place_some.mp hx
      rw [succ, hl.nextOf_start hp] at hxy
      exact (h.back p hp q hq).mp hxy

theorem Linked.ring (h : b.Linked) (hl : b.Laid) : b.Ring b.places := by
  have hmem (p : Piece) : p ∈ b.output ↔ p ∈ b.pieces := h.every.mem_iff
  have hchain := h.walk.isChain_succ (u := none) rfl
  have hplace (u : Option Nat) : u ∈ b.places ↔ b.Place u := by
    simp only [places, List.mem_cons, List.mem_map, hmem]
    cases u with
    | none => simp [place_none]
    | some s => simp [place_some, Has]
  refine ⟨?_, ?_, hplace⟩
  · rw [places, Cycle.chain_coe_cons, ← List.cons_append, List.isChain_append]
    rw [← List.cons_append, List.isChain_append] at hchain
    refine ⟨?_, List.isChain_singleton _, ?_⟩
    · rw [List.isChain_iff_forall_rel_of_append_cons_cons] at hchain ⊢
      intro x y l₁ l₂ he
      have hx : x ∈ b.places := by simp [places, he]
      have hy : y ∈ b.output.map fun p => some p.start := by
        cases l₁ with
        | nil => simp [(List.cons.inj he).2]
        | cons _ l₁ => simp [(List.cons.inj he).2]
      have hs := hchain.1 he
      refine ⟨hs, h.pred_eq hl ((hplace x).mp hx) ((hplace y).mp (.tail _ hy)) hs ?_⟩
      rintro rfl
      simp at hy
    · intro x hx y hy
      obtain rfl : none = y := by simpa using hy
      obtain ⟨p, hp, hlast⟩ := Option.map_eq_some_iff.mp h.stops
      obtain rfl : some b.last = x := by
        simpa [List.getLast?_cons, List.getLast?_map, hp, hlast] using hx
      exact ⟨hchain.2.2 _ hx none rfl, rfl⟩
  · rw [places, List.nodup_cons]
    refine ⟨by simp, ?_⟩
    have := h.walk.nodup.map (Option.some_injective Nat)
    rwa [List.map_map] at this

theorem Paired.next_eq_iff (hpair : b.Paired) (h : b.Laid) {q : Piece} (hp : p ∈ b.pieces)
    (hq : q ∈ b.pieces) : p.next = some q.start ↔ q.prev = some p.start := by
  have hpq := hpair.pred_succ (some p.start) (place_some.mpr ⟨p, hp, rfl⟩)
  have hqp := hpair.succ_pred (some q.start) (place_some.mpr ⟨q, hq, rfl⟩)
  rw [succ, h.nextOf_start hp] at hpq
  rw [pred, h.prevOf_start hq] at hqp
  constructor
  · intro hn
    rwa [hn, pred, h.prevOf_start hq] at hpq
  · intro hn
    rwa [hn, succ, h.nextOf_start hp] at hqp

theorem Paired.prev_eq_none_iff (hpair : b.Paired) (h : b.Laid) (hp : p ∈ b.pieces) :
    p.prev = none ↔ p.start = b.first := by
  have hpq := hpair.succ_pred (some p.start) (place_some.mpr ⟨p, hp, rfl⟩)
  have hqp := hpair.pred_succ none place_none
  rw [pred, h.prevOf_start hp] at hpq
  constructor
  · intro hn
    rw [hn] at hpq
    exact (Option.some.inj hpq).symm
  · intro hn
    rwa [succ, ← hn, pred, h.prevOf_start hp] at hqp

theorem Ring.linked {us : List (Option Nat)} (hr : b.Ring us) (h : b.Laid) : b.Linked := by
  obtain ⟨vs, hr⟩ := hr.from place_none
  have hsome : ∀ v ∈ vs, v.isSome := by
    intro v hv
    rw [Option.isSome_iff_ne_none]
    rintro rfl
    exact (List.nodup_cons.mp hr.nodup).1 hv
  obtain ⟨ss, rfl⟩ : ∃ ss : List Nat, vs = ss.map some :=
    ⟨vs.pmap Option.get hsome, by simp [List.map_pmap]⟩
  have hc := (Cycle.chain_coe_cons _ _ _).mp hr.chain
  have hhas : ∀ s ∈ ss, b.Has s := fun s hs =>
    place_some.mp ((hr.mem _).mp (.tail _ (List.mem_map_of_mem hs)))
  obtain ⟨ps, hps, rfl⟩ := exists_visits_of_isChain hhas (hc.imp fun _ _ hl => hl.1)
  have hout : b.output = ps := hps.output_eq
  have hpair := hr.paired
  refine ⟨by rw [hout]; exact hps, ?_, ?_, ?_, ?_⟩
  · have hnodup : b.pieces.Nodup := h.sorted.imp fun hlt he => by
      subst he
      exact Nat.lt_irrefl _ hlt
    rw [hout]
    refine (List.perm_ext_iff_of_nodup hps.nodup.of_map hnodup).mpr fun p => ⟨hps.mem p, ?_⟩
    intro hp
    have hin := (hr.mem (some p.start)).mpr (place_some.mpr ⟨p, hp, rfl⟩)
    obtain ⟨q, hq, hqp⟩ : ∃ q ∈ ps, q.start = p.start := by simpa using hin
    rwa [← h.eq_of_start (hps.mem q hq) hp hqp]
  · rw [hout]
    obtain rfl | ⟨qs, q, rfl⟩ := ps.eq_nil_or_concat
    · have hfirst : b.succ none = none := by simpa using (List.isChain_cons_cons.mp hc).1.1
      cases hfirst
    · have hq : b.Link (some q.start) none := by
        simp only [List.concat_eq_append, List.map_append, List.map_cons, List.map_nil,
          List.append_assoc, List.singleton_append, List.isChain_cons_append_cons_cons] at hc
        exact hc.2.1
      simpa [pred, eq_comm] using hq.2
  · intro p hp q hq
    exact hpair.next_eq_iff h hp hq
  · intro p hp
    exact hpair.prev_eq_none_iff h hp

end

section
variable {α : Type} {R R' : α → α → Prop} {l : List α}

theorem chain_iff : Cycle.Chain R (l : Cycle α) ↔
    l.IsChain R ∧ ∀ x ∈ l.getLast?, ∀ y ∈ l.head?, R x y := by
  cases l with
  | nil => simp
  | cons a l =>
    rw [Cycle.chain_coe_cons, ← List.cons_append, List.isChain_append]
    simp

theorem exists_rel_of_mem {x : α} {m : List α} (h : (l ++ x :: m).IsChain R) {u : α} (hu : u ∈ l) :
    ∃ v ∈ l ++ [x], R u v := by
  obtain ⟨l₁, l₂, rfl⟩ := List.append_of_mem hu
  cases l₂ with
  | nil =>
    simp only [List.append_assoc, List.singleton_append, List.isChain_append_cons_cons] at h
    exact ⟨x, by simp, h.2.1⟩
  | cons v l₂ =>
    simp only [List.append_assoc, List.cons_append, List.isChain_append_cons_cons] at h
    exact ⟨v, by simp, h.2.1⟩

theorem isChain_of_imp (hn : l.Nodup) (h : l.IsChain R)
    (hi : ∀ x ∈ l, x ∉ l.getLast? → ∀ y ∈ l, R x y → R' x y) : l.IsChain R' := by
  rw [List.isChain_iff_forall_rel_of_append_cons_cons] at h ⊢
  rintro x y l₁ l₂ rfl
  refine hi x (by simp) ?_ y (by simp) (h rfl)
  intro hx
  have hlast : x ∈ y :: l₂ := by
    refine List.mem_of_getLast? ?_
    rw [List.getLast?_append_cons, List.getLast?_cons_cons] at hx
    exact hx
  exact (List.nodup_cons.mp (List.nodup_append.mp hn).2.1).1 hlast

end

section
variable {b : EditBuffer} {p : Piece} {offset : Nat} (h : b.Laid) (hc : b.CanCut p offset)
include h hc

theorem Laid.has_cutAt {s : Nat} : (b.cutAt p offset).Has s ↔ b.Has s ∨ s = offset := by
  simp only [Has, h.mem_cutAt hc]
  constructor
  · rintro ⟨r, rfl | rfl | ⟨q, hq, -, rfl⟩, rfl⟩
    · exact .inl ⟨p, hc.mem, by simp [cutPiece]⟩
    · exact .inr (by simp [cutPiece])
    · exact .inl ⟨q, hq, by simp⟩
  · rintro (⟨q, hq, rfl⟩ | rfl)
    · by_cases hqp : q = p
      · exact ⟨_, .inl rfl, by simp [cutPiece, hqp]⟩
      · exact ⟨_, .inr (.inr ⟨q, hq, hqp, rfl⟩), by simp⟩
    · exact ⟨_, .inr (.inl rfl), by simp [cutPiece]⟩

theorem Laid.not_has : ¬b.Has offset := by
  rintro ⟨q, hq, hs⟩
  exact h.not_start hc hq hs

theorem Laid.succ_cutAt (hu : b.Place u) : (b.cutAt p offset).succ u =
    if u = some p.start then some offset else b.succ u := by
  cases u with
  | none => simp [succ, cutAt_eq]
  | some n =>
    obtain ⟨q, hq, rfl⟩ := place_some.mp hu
    have hoff := h.not_start hc hq
    rw [succ, nextOf, h.startingAt?_cutAt hc, if_neg hoff]
    by_cases hqp : q.start = p.start
    · simp [hqp, cutPiece]
    · simp [hqp, succ, h.nextOf_start hq, h.startingAt?_eq_some.mpr ⟨hq, rfl⟩]

theorem Laid.pred_cutAt (hp : b.Paired) (hu : b.Place u) :
    (b.cutAt p offset).pred u = if u = b.succ (some p.start) then some offset else b.pred u := by
  have hnext : b.succ (some p.start) = p.next := h.nextOf_start hc.mem
  cases u with
  | none =>
    have hlast : b.last = p.start ↔ none = b.succ (some p.start) := by
      have hsucc := hp.succ_pred none place_none
      have hpred := hp.pred_succ (some p.start) (place_some.mpr ⟨p, hc.mem, rfl⟩)
      constructor
      · intro he
        rw [← hsucc, pred, he]
      · intro he
        rw [← he] at hpred
        exact Option.some.inj hpred
    rw [pred, cutAt_eq, pred]
    by_cases he : b.last = p.start
    · simp [he, hlast.mp he]
    · simp only [he, if_false, if_neg (hlast.not.mp he)]
  | some n =>
    obtain ⟨q, hq, rfl⟩ := place_some.mp hu
    have hoff := h.not_start hc hq
    rw [pred, prevOf, h.startingAt?_cutAt hc, if_neg hoff, hnext]
    by_cases hqp : q.start = p.start
    · obtain rfl := h.eq_of_start hq hc.mem hqp
      by_cases hself : q.next = some q.start
      · simp [afterCut, cutPiece, hself]
      · simp [afterCut, cutPiece, hself, Ne.symm hself, pred, h.prevOf_start hq]
    · by_cases hself : p.next = some q.start
      · simp [hqp, afterCut, hself, h.startingAt?_eq_some.mpr ⟨hq, rfl⟩]
      · simp [hqp, afterCut, hself, Ne.symm hself, pred, h.prevOf_start hq,
          h.startingAt?_eq_some.mpr ⟨hq, rfl⟩]

theorem Ring.cutAt {vs : List (Option Nat)} (hr : b.Ring (vs ++ [some p.start])) :
    (b.cutAt p offset).Ring (vs ++ [some p.start, some offset]) := by
  have hp := hr.paired
  have hstart : b.Place (some p.start) := place_some.mpr ⟨p, hc.mem, rfl⟩
  have hcut := h.startingAt?_cutAt hc offset
  rw [if_neg (Nat.ne_of_gt hc.lo), if_pos rfl] at hcut
  have hnext : b.succ (some p.start) = p.next := h.nextOf_start hc.mem
  have hin : (b.cutAt p offset).Link (some p.start) (some offset) := by
    have hne : p.next ≠ some offset := by
      intro he
      have hplace := hp.place_succ _ hstart
      rw [hnext, he, place_some] at hplace
      exact h.not_has hc hplace
    refine ⟨by rw [h.succ_cutAt hc hstart, if_pos rfl], ?_⟩
    rw [pred, prevOf, hcut]
    simp [afterCut, cutPiece, hne]
  have hout : (b.cutAt p offset).Link (some offset) (b.succ (some p.start)) := by
    refine ⟨?_, by rw [h.pred_cutAt hc hp (hp.place_succ _ hstart), if_pos rfl]⟩
    rw [succ, nextOf, hcut, hnext]
    simp [cutPiece]
  have hkeep (x y : Option Nat) (hx : b.Place x) (hy : b.Place y) (hne : x ≠ some p.start)
      (hxy : b.Link x y) : (b.cutAt p offset).Link x y := by
    have hne' : y ≠ b.succ (some p.start) := by
      rintro rfl
      exact hne (hxy.2.symm.trans (hp.pred_succ _ hstart))
    exact ⟨by rw [h.succ_cutAt hc hx, if_neg hne, hxy.1],
      by rw [h.pred_cutAt hc hp hy, if_neg hne', hxy.2]⟩
  obtain ⟨hchain, hseam⟩ := chain_iff.mp hr.chain
  refine ⟨chain_iff.mpr ⟨?_, ?_⟩, ?_, ?_⟩
  · refine List.isChain_append_cons_cons.mpr ⟨?_, hin, List.isChain_singleton _⟩
    refine isChain_of_imp hr.nodup hchain fun x hx hlast y hy hxy => ?_
    refine hkeep x y ((hr.mem x).mp hx) ((hr.mem y).mp hy) ?_ hxy
    rintro rfl
    simp at hlast
  · intro x hx y hy
    obtain rfl : some offset = x := by simpa using hx
    have hy' : y ∈ (vs ++ [some p.start]).head? := by
      cases vs <;> simpa using hy
    rw [← (hseam (some p.start) (by simp) y hy').1]
    exact hout
  · have hoff : some offset ∉ vs ++ [some p.start] := fun hm =>
      h.not_has hc (place_some.mp ((hr.mem _).mp hm))
    simpa using hr.nodup.concat hoff
  · intro u
    have hmem : u ∈ vs ++ [some p.start, some offset] ↔ b.Place u ∨ u = some offset := by
      rw [← hr.mem u]
      simp [or_assoc]
    rw [hmem]
    cases u with
    | none => simp [place_none]
    | some s => rw [place_some, place_some, h.has_cutAt hc, Option.some.injEq]

theorem Linked.cutAt (hlink : b.Linked) : (b.cutAt p offset).Linked := by
  obtain ⟨vs, hr⟩ := (hlink.ring h).from (place_some.mpr ⟨p, hc.mem, rfl⟩)
  have hr' : b.Ring ([some p.start] ++ vs) := hr
  exact (Ring.cutAt h hc hr'.rotate).linked (h.cutAt hc)

end

theorem ofText_linked (source : Text) : (ofText source).Linked := by
  refine ⟨.visit rfl .done, .refl _, rfl, ?_, ?_⟩
  · intro p hp q hq
    rw [List.mem_singleton.mp hp, List.mem_singleton.mp hq]
  · intro p hp
    rw [List.mem_singleton.mp hp]
    simp [ofText]

theorem Linked.cuts {b b' : EditBuffer} (h : b.Linked) (hl : b.Laid) (hc : Cuts b b') : b'.Linked :=
  (hc.keep (P := Linked) (fun _ _ _ hl hc h => h.cutAt hl hc) hl h).2

theorem Linked.painted {f : Piece → Piece} {b b' : EditBuffer} (h : b.Linked)
    (hp : Painted f b b') : b'.Linked := by
  refine ⟨?_, ?_, ?_, ?_, ?_⟩
  · rw [hp.output, hp.first]
    exact hp.visits h.walk
  · rw [hp.output, hp.pieces]
    exact h.every.map f
  · have hstart : Piece.start ∘ f = Piece.start := funext fun p => (hp.keeps p).1
    rw [hp.output, hp.last, List.getLast?_map, Option.map_map, hstart, h.stops]
  · intro p' hp' q' hq'
    rw [hp.pieces] at hp' hq'
    obtain ⟨p, hpm, rfl⟩ := List.mem_map.mp hp'
    obtain ⟨q, hqm, rfl⟩ := List.mem_map.mp hq'
    obtain ⟨hps, -, -, hpn⟩ := hp.keeps p
    obtain ⟨hqs, -, hqp, -⟩ := hp.keeps q
    rw [hps, hpn, hqs, hqp]
    exact h.back p hpm q hqm
  · intro p' hp'
    rw [hp.pieces] at hp'
    obtain ⟨p, hpm, rfl⟩ := List.mem_map.mp hp'
    obtain ⟨hps, -, hpp, -⟩ := hp.keeps p
    rw [hps, hpp, hp.first]
    exact h.front p hpm

end SfcTsx.EditBuffer
