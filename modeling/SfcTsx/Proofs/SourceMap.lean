import SfcTsx.SourceMap
import SfcTsx.Proofs.Order
import Mathlib.Data.List.Pairwise

namespace SfcTsx.SourceMap

/-- No generated range is empty, and each one ends before the next starts. -/
structure Ordered (ms : Array Mapping) : Prop where
  solid : ∀ m ∈ ms, m.generated.start < m.generated.stop
  apart : ms.toList.Pairwise fun m n => m.generated.stop ≤ n.generated.start

section
variable {ms : Array Mapping} {m n : Mapping} {i j : Nat}

theorem Ordered.stop_le (h : Ordered ms) (hi : ms[i]? = some m) (hj : ms[j]? = some n)
    (hij : i < j) : m.generated.stop ≤ n.generated.start := by
  obtain ⟨hi', rfl⟩ := Array.getElem?_eq_some_iff.mp hi
  obtain ⟨hj', rfl⟩ := Array.getElem?_eq_some_iff.mp hj
  exact List.pairwise_iff_getElem.mp h.apart i j (by simpa using hi') (by simpa using hj') hij

theorem Ordered.of_last (h : Ordered ms) {g k : Nat} (hk : ms[k]? = some m)
    (hlast : ∀ j n, ms[j]? = some n → n.generated.start ≤ g → j ≤ k) (hn : n ∈ ms)
    (hstart : n.generated.start ≤ g) : n = m ∨ n.generated.stop ≤ m.generated.start := by
  obtain ⟨i, hi⟩ := Array.getElem?_of_mem hn
  obtain hlt | rfl := Nat.lt_or_eq_of_le (hlast i n hi hstart)
  · exact .inr (h.stop_le hi hk hlt)
  · exact .inl (Option.some.inj (hi.symm.trans hk))

theorem Ordered.ascending (h : Ordered ms) (g : Nat) :
    Ascending (fun m => compare m.generated.start g) ms := by
  refine h.apart.imp_of_mem fun hm hn hstop => ?_
  have hsolid := h.solid _ (Array.mem_toList_iff.mp hm)
  simp only [Nat.compare_eq_lt, Nat.compare_eq_gt]
  omega

end

section
variable {map : SourceMap} (h : Ordered map.mappings) {g o : Nat}
include h

theorem Ordered.startedAt?_cases :
    (∃ m ∈ map.mappings, map.startedAt? g = some m ∧ m.generated.start ≤ g ∧ ∀ n ∈ map.mappings,
      n.generated.start ≤ g → n = m ∨ n.generated.stop ≤ m.generated.start) ∨
    (∀ n ∈ map.mappings, g < n.generated.start) ∧
      ∀ m, map.startedAt? g = some m → g < m.generated.start := by
  have hfound := searchBy_found (h.ascending g)
  unfold startedAt?
  cases hsearch : searchBy (fun m : Mapping => compare m.generated.start g) map.mappings with
  | ok i =>
    rw [hsearch] at hfound
    obtain ⟨m, hm, heq⟩ := hfound
    have hstart := Nat.compare_eq_eq.mp heq
    refine .inl ⟨m, Array.mem_of_getElem? hm, hm, Nat.le_of_eq hstart, fun n => h.of_last hm ?_⟩
    intro j n hn hle
    by_contra hlt
    have hstop := h.stop_le hm hn (by omega)
    have hsolid := h.solid m (Array.mem_of_getElem? hm)
    omega
  | error i =>
    rw [hsearch] at hfound
    obtain ⟨hsize, hside⟩ := hfound
    cases i with
    | zero =>
      have hafter (j : Nat) (n : Mapping) (hn : map.mappings[j]? = some n) : g < n.generated.start :=
        Nat.compare_eq_gt.mp (hside j n hn)
      refine .inr ⟨fun n hn => ?_, hafter 0⟩
      obtain ⟨j, hj⟩ := Array.getElem?_of_mem hn
      exact hafter j n hj
    | succ k =>
      have hm := Array.getElem?_eq_getElem hsize
      have hlt := hside k _ hm
      rw [if_pos (Nat.lt_succ_self k), Nat.compare_eq_lt] at hlt
      refine .inl ⟨_, Array.getElem_mem hsize, hm, Nat.le_of_lt hlt, fun n => h.of_last hm ?_⟩
      intro j n hn hle
      by_contra hgt
      have hafter := hside j n hn
      rw [if_neg (by omega), Nat.compare_eq_gt] at hafter
      omega

theorem sourcePosition?_eq_some_iff : map.sourcePosition? g = some o ↔
    ∃ m ∈ map.mappings, m.generated.contains g = true ∧ m.sourceOf g = o := by
  have hiff (m : Mapping) : m.generated.contains g = true ↔
      m.generated.start ≤ g ∧ g < m.generated.stop := by simp [Span.contains]
  unfold sourcePosition?
  obtain ⟨m, hm, hfound, hstart, hlast⟩ | ⟨hnone, hafter⟩ := h.startedAt?_cases (g := g)
  · rw [hfound]
    constructor
    · intro hs
      obtain ⟨hin, hs⟩ := Option.ite_none_right_eq_some.mp hs
      exact ⟨m, hm, hin, Option.some.inj hs⟩
    · rintro ⟨n, hn, hin, rfl⟩
      -- a mapping before the last one started would end before that one starts
      have hbounds := (hiff n).mp hin
      obtain rfl | hstop := hlast n hn hbounds.1
      · exact if_pos hin
      · omega
  · refine iff_of_false (fun hs => ?_) ?_
    · split at hs
      next m hm =>
        have hin := (hiff m).mp (Option.ite_none_right_eq_some.mp hs).1
        have := hafter m hm
        omega
      next => cases hs
    · rintro ⟨n, hn, hin, -⟩
      have hbounds := (hiff n).mp hin
      have := hnone n hn
      omega

theorem sourcePosition?_eq_none_iff : map.sourcePosition? g = none ↔
    ∀ m ∈ map.mappings, m.generated.contains g = false := by
  rw [Option.eq_none_iff_forall_ne_some]
  simp only [ne_eq, sourcePosition?_eq_some_iff h]
  constructor
  · intro hnone m hm
    by_contra hin
    exact hnone _ ⟨m, hm, by simpa using hin, rfl⟩
  · rintro hall o ⟨m, hm, hin, -⟩
    rw [hall m hm] at hin
    cases hin

end

namespace Builder

/-- The mappings are in order and lie within the text so far. -/
structure Valid (b : Builder) : Prop where
  ordered : Ordered b.mappings
  within : ∀ m ∈ b.mappings, m.generated.stop ≤ b.offset

theorem valid_empty : Valid {} := ⟨⟨by simp, by simp⟩, by simp⟩

section
variable {b : Builder} (h : b.Valid)
include h

theorem Valid.build_mappings : b.build.mappings = b.mappings := by
  refine congrArg List.toArray (sortOn_of_pairwise (h.ordered.apart.imp_of_mem fun hm _ hstop => ?_))
  have hsolid := h.ordered.solid _ (Array.mem_toList_iff.mp hm)
  omega

theorem Valid.build_ordered : Ordered b.build.mappings := h.build_mappings ▸ h.ordered

theorem Valid.sourcePosition?_of_le {g : Nat} (hg : b.offset ≤ g) :
    b.build.sourcePosition? g = none := by
  refine (sourcePosition?_eq_none_iff h.build_ordered).mpr fun m hm => ?_
  have hw := h.within m (h.build_mappings ▸ hm)
  simp only [Span.contains, Bool.and_eq_false_iff, decide_eq_false_iff_not]
  omega

theorem Valid.addGenerated (text : Text) : (b.addGenerated text).Valid :=
  ⟨h.ordered, fun m hm => Nat.le_trans (h.within m hm) (Nat.le_add_right _ _)⟩

theorem Valid.addMapping (source : Span) (size : Nat) : (b.addMapping source size).Valid := by
  unfold Builder.addMapping
  split
  next hz => exact ⟨h.ordered, fun m hm => Nat.le_trans (h.within m hm) (Nat.le_add_right _ _)⟩
  next hz =>
    refine ⟨⟨?_, ?_⟩, ?_⟩
    · intro m hm
      rcases Array.mem_push.mp hm with hm | rfl
      · exact h.ordered.solid m hm
      · simp only
        omega
    · rw [Array.toList_push, List.pairwise_append]
      refine ⟨h.ordered.apart, List.pairwise_singleton _ _, ?_⟩
      intro m hm n hn
      rw [List.mem_singleton.mp hn]
      exact h.within m (Array.mem_toList_iff.mp hm)
    · intro m hm
      rcases Array.mem_push.mp hm with hm | rfl
      · exact Nat.le_trans (h.within m hm) (Nat.le_add_right _ _)
      · exact Nat.le_refl _

theorem Valid.sourcePosition?_addMapping (source : Span) {size g : Nat}
    (hg : g < b.offset + size) :
    (b.addMapping source size).build.sourcePosition? g =
      if g < b.offset then b.build.sourcePosition? g
      else some (source.start + min (g - b.offset) source.len) := by
  have hv := (h.addMapping source size).build_ordered
  by_cases hz : size = 0
  · have hsame : (b.addMapping source size).build = b.build := by
      simp [Builder.addMapping, Builder.build, hz]
    rw [hsame, if_pos (by omega)]
  · have hms : (b.addMapping source size).build.mappings =
        b.mappings.push ⟨⟨b.offset, b.offset + size⟩, source⟩ :=
      (h.addMapping source size).build_mappings.trans (if_neg hz)
    by_cases hlt : g < b.offset
    · rw [if_pos hlt]
      ext o
      rw [sourcePosition?_eq_some_iff hv, sourcePosition?_eq_some_iff h.build_ordered, hms,
        h.build_mappings]
      constructor
      · rintro ⟨m, hm, hin, ho⟩
        rcases Array.mem_push.mp hm with hm | rfl
        · exact ⟨m, hm, hin, ho⟩
        · simp only [Span.contains, Bool.and_eq_true, decide_eq_true_eq] at hin
          omega
      · rintro ⟨m, hm, hin, ho⟩
        exact ⟨m, Array.mem_push_of_mem _ hm, hin, ho⟩
    · rw [if_neg hlt, sourcePosition?_eq_some_iff hv, hms]
      refine ⟨_, Array.mem_push_self, ?_, rfl⟩
      simp only [Span.contains, Bool.and_eq_true, decide_eq_true_eq]
      omega

end

end Builder
end SfcTsx.SourceMap
