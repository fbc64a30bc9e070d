import SfcTsx.Proofs.SourceMap
import Mathlib.Data.List.MinMax

namespace SfcTsx.SourceMap

variable {b : Builder} {calls : List Call}

/-- The source offset that the first mapping to hold an offset gives. -/
def scanned? (ms : List Mapping) (g : Nat) : Option Nat :=
  (ms.find? (·.generated.contains g)).map (·.sourceOf g)

/-- Of the mappings that end at or before an offset, the one that ends last. -/
def lastEnded? (ms : List Mapping) (g : Nat) : Option Mapping :=
  (ms.filter (·.generated.stop ≤ g)).argmax (·.generated.stop)

/-- The source offset of the mapping that holds an offset, else the end of the last mapping in front of
it, else the start of the first mapping. -/
def nearestScanned? (ms : List Mapping) (g : Nat) : Option Nat :=
  ((scanned? ms g).or ((lastEnded? ms g).map (·.source.stop))).or (ms.head?.map (·.source.start))

theorem of_nearestScanned? {ms : List Mapping} {g o : Nat} (h : nearestScanned? ms g = some o) :
    ∃ m ∈ ms, o = m.sourceOf g ∨ o = m.source.stop ∨ o = m.source.start := by
  simp only [nearestScanned?, scanned?, lastEnded?, Option.or_eq_some_iff, Option.map_eq_some_iff]
    at h
  obtain (⟨m, hm, rfl⟩ | ⟨-, m, hm, rfl⟩) | ⟨-, m, hm, rfl⟩ := h
  · exact ⟨m, List.mem_of_find?_eq_some hm, .inl rfl⟩
  · exact ⟨m, List.mem_of_mem_filter (List.argmax_mem hm), .inr (.inl rfl)⟩
  · exact ⟨m, List.mem_of_mem_head? hm, .inr (.inr rfl)⟩

section
variable {map : SourceMap} (h : Ordered map.mappings) {g : Nat}
include h

theorem Ordered.sourcePosition?_eq : map.sourcePosition? g = scanned? map.mappings.toList g := by
  unfold scanned?
  cases hf : map.mappings.toList.find? (·.generated.contains g) with
  | none =>
    refine (sourcePosition?_eq_none_iff h).mpr fun m hm => ?_
    simpa using List.find?_eq_none.mp hf m (Array.mem_toList_iff.mpr hm)
  | some m =>
    have hm := Array.mem_toList_iff.mp (List.mem_of_find?_eq_some hf)
    have hin := List.find?_some hf
    exact (sourcePosition?_eq_some_iff h).mpr ⟨m, hm, hin, rfl⟩

theorem Ordered.length_filter_le_one :
    (map.mappings.toList.filter (·.generated.contains g)).length ≤ 1 := by
  have hin : ∀ m ∈ map.mappings.toList.filter (·.generated.contains g),
      m.generated.start ≤ g ∧ g < m.generated.stop := by simp [Span.contains]
  have hapart := h.apart.filter (·.generated.contains g)
  generalize map.mappings.toList.filter (·.generated.contains g) = ms at hin hapart ⊢
  rcases ms with _ | ⟨m, _ | ⟨n, ms⟩⟩
  · exact Nat.zero_le _
  · exact Nat.le_refl _
  · have hstop := List.rel_of_pairwise_cons hapart (List.mem_cons_self (a := n))
    have hm := hin m (by simp)
    have hn := hin n (by simp)
    omega

theorem Ordered.partitionPoint_spec :
    let count := partitionPoint (fun m => decide (m.generated.start ≤ g)) map.mappings
    count ≤ map.mappings.size ∧ ∀ i m, map.mappings[i]? = some m →
      (i < count ↔ m.generated.start ≤ g) := by
  have hspec := SfcTsx.partitionPoint_spec (p := fun m : Mapping => decide (m.generated.start ≤ g))
    (h.apart.imp_of_mem fun {m n} hm _ hstop => by
      have hsolid := h.solid m (Array.mem_toList_iff.mp hm)
      simp only [decide_eq_true_eq]
      omega)
  simpa only [decide_eq_true_eq] using hspec

theorem Ordered.of_lastStarted? {m : Mapping} (hm : map.lastStarted? g = some m) :
    m ∈ map.mappings ∧ m.generated.start ≤ g ∧ ∀ n ∈ map.mappings, n.generated.start ≤ g →
      n = m ∨ n.generated.stop ≤ m.generated.start := by
  obtain ⟨-, hstarted⟩ := h.partitionPoint_spec (g := g)
  unfold lastStarted? at hm
  split at hm
  next => cases hm
  next k hk =>
    refine ⟨Array.mem_of_getElem? hm, (hstarted k m hm).mp (by omega), fun n => h.of_last hm ?_⟩
    intro j n hn hs
    have := (hstarted j n hn).mpr hs
    omega

theorem Ordered.of_lastStarted?_none (hnone : map.lastStarted? g = none) {n : Mapping}
    (hn : n ∈ map.mappings) : g < n.generated.start := by
  obtain ⟨hle, hstarted⟩ := h.partitionPoint_spec (g := g)
  obtain ⟨i, hi⟩ := Array.getElem?_of_mem hn
  unfold lastStarted? at hnone
  split at hnone
  next hk =>
    have := hstarted i n hi
    omega
  next k hk =>
    have := Array.getElem?_eq_none_iff.mp hnone
    omega

theorem Ordered.nearestSourcePosition?_eq :
    map.nearestSourcePosition? g = nearestScanned? map.mappings.toList g := by
  unfold nearestSourcePosition? nearestScanned?
  rw [h.sourcePosition?_eq]
  cases hs : scanned? map.mappings.toList g with
  | some o => rfl
  | none =>
    have hout {n : Mapping} (hn : n ∈ map.mappings) (hstart : n.generated.start ≤ g) :
        n.generated.stop ≤ g := by
      rw [← h.sourcePosition?_eq, sourcePosition?_eq_none_iff h] at hs
      simpa [Span.contains, hstart] using hs n hn
    cases hl : map.lastStarted? g with
    | none =>
      have hended : lastEnded? map.mappings.toList g = none := by
        rw [lastEnded?, List.argmax_eq_none, List.filter_eq_nil_iff]
        intro n hn
        have hn := Array.mem_toList_iff.mp hn
        have hsolid := h.solid n hn
        have hafter := h.of_lastStarted?_none hl hn
        simp only [decide_eq_true_eq]
        omega
      simp [hended, List.head?_eq_getElem?]
    | some m =>
      obtain ⟨hm, hstart, hlast⟩ := h.of_lastStarted? hl
      have hended : lastEnded? map.mappings.toList g = some m := by
        -- whatever ends by the offset has started, so it is this mapping or ends before it starts
        have hsolid := h.solid m hm
        have hle : ∀ n ∈ map.mappings.toList.filter (·.generated.stop ≤ g),
            n = m ∨ n.generated.stop < m.generated.stop := by
          intro n hn
          simp only [List.mem_filter, Array.mem_toList_iff, decide_eq_true_eq] at hn
          have hsolid' := h.solid n hn.1
          exact (hlast n hn.1 (by omega)).imp_right fun hstop => by omega
        refine List.argmax_eq_some_iff.mpr ⟨?_, fun n hn => ?_, fun n hn hge => ?_⟩
        · simpa using ⟨hm, hout hm hstart⟩
        · obtain rfl | hlt := hle n hn
          · exact Nat.le_refl _
          · exact Nat.le_of_lt hlt
        · obtain rfl | hlt := hle n hn
          · exact Nat.le_refl _
          · omega
      simp [hended]

end

namespace Builder

/-- The mappings of calls, from an offset of the output on: one for every range with some output. -/
def placed (offset : Nat) : List Call → List Mapping
  | [] => []
  | call :: calls =>
    let generated := ⟨offset, offset + call.size⟩
    (call.range?.toList.filter fun _ => call.size ≠ 0).map (Mapping.mk generated) ++
      placed (offset + call.size) calls

/-- The calls are carried out one after the other, from an offset of the output on. -/
def AllFit (offset : Nat) : List Call → Prop
  | [] => True
  | call :: calls => call.Fits offset ∧ AllFit (offset + call.size) calls

theorem run?_eq_some {b' : Builder} {call : Call} (h : b.run? call = some b') :
    call.Fits b.offset ∧ b'.offset = b.offset + call.size ∧
      b'.mappings.toList = b.mappings.toList ++ placed b.offset [call] ∧ (b.Valid → b'.Valid) := by
  obtain ⟨hfits, h⟩ := Option.ite_none_right_eq_some.mp h
  cases hrange : call.range? with
  | none =>
    obtain rfl : _ = b' := by simpa [hrange] using h
    refine ⟨hfits, rfl, by simp [placed, hrange], fun hb => ⟨hb.ordered, fun m hm => ?_⟩⟩
    exact Nat.le_trans (hb.within m hm) (Nat.le_add_right _ _)
  | some range =>
    obtain rfl : _ = b' := by simpa [hrange] using h
    refine ⟨hfits, rfl, ?_, fun hb => hb.addMapping range call.size⟩
    by_cases hz : call.size = 0
    · simp [addMapping, placed, hz]
    · simp [addMapping, placed, hrange, hz]

theorem run?_eq_none {call : Call} : b.run? call = none ↔ ¬ call.Fits b.offset := by
  unfold run?
  split
  next hfits => cases call.range? <;> simp [hfits]
  next hfits => simp [hfits]

theorem foldlM_run?_eq_some {b' : Builder} (h : calls.foldlM run? b = some b') :
    AllFit b.offset calls ∧
      b'.mappings.toList = b.mappings.toList ++ placed b.offset calls ∧ (b.Valid → b'.Valid) := by
  induction calls generalizing b with
  | nil =>
    obtain rfl : b = b' := Option.some.inj h
    exact ⟨trivial, by simp [placed], id⟩
  | cons call calls ih =>
    obtain ⟨b₁, hrun, hrest⟩ := Option.bind_eq_some_iff.mp h
    obtain ⟨hfits, hoffset, hmappings, hvalid⟩ := run?_eq_some hrun
    obtain ⟨hall, hms, hvalid'⟩ := ih hrest
    rw [hoffset] at hall hms
    exact ⟨⟨hfits, hall⟩, by simp [hms, hmappings, placed], hvalid' ∘ hvalid⟩

theorem foldlM_run?_eq_none (h : calls.foldlM run? b = none) : ¬ AllFit b.offset calls := by
  induction calls generalizing b with
  | nil => cases h
  | cons call calls ih =>
    rintro ⟨hfits, hall⟩
    cases hrun : b.run? call with
    | none => exact run?_eq_none.mp hrun hfits
    | some b₁ =>
      rw [List.foldlM_cons, hrun] at h
      exact ih h ((run?_eq_some hrun).2.1 ▸ hall)

def Call.Proper (call : Call) : Prop := ∀ range ∈ call.range?, range.start ≤ range.stop

theorem exists_of_mem_placed {offset : Nat} {m : Mapping}
    (h : m ∈ placed offset calls) : ∃ call ∈ calls, call.range? = some m.source := by
  induction calls generalizing offset with
  | nil => cases h
  | cons call calls ih =>
    rcases List.mem_append.mp h with h | h
    · obtain ⟨range, hrange, rfl⟩ := List.mem_map.mp h
      exact ⟨call, .head _, Option.mem_toList.mp (List.mem_of_mem_filter hrange)⟩
    · obtain ⟨found, hfound, hrange⟩ := ih h
      exact ⟨found, .tail _ hfound, hrange⟩

/-- Calls are carried out unless a sum of offsets and sizes takes more than 32 bits. In the map that they
build, at most one of their mappings holds an offset, and the lookups answer what trying all of them
gives, within the range of the mapping; the nearest one has an answer as soon as there is a mapping. -/
theorem lookups_eq_scanned (calls : List Call) (hproper : ∀ call ∈ calls, call.Proper) :
    (calls.foldlM run? {} = none ↔ ¬ AllFit 0 calls) ∧
    ∀ b, calls.foldlM run? {} = some b → ∀ g,
      let map := b.build
      let ms := placed 0 calls
      map.mappings.toList = ms ∧ (ms.filter (·.generated.contains g)).length ≤ 1 ∧
        map.sourcePosition? g = scanned? ms g ∧ map.nearestSourcePosition? g = nearestScanned? ms g ∧
        (∀ m ∈ ms, m.source.start ≤ m.sourceOf g ∧ m.sourceOf g ≤ m.source.stop) ∧
        (map.nearestSourcePosition? g = none ↔ ms = []) := by
  refine ⟨⟨foldlM_run?_eq_none, fun hnot => ?_⟩, fun b hb g => ?_⟩
  · cases hrun : calls.foldlM run? {} with
    | none => rfl
    | some b => exact absurd (foldlM_run?_eq_some hrun).1 hnot
  · intro map ms
    obtain ⟨-, hms, hvalid⟩ := foldlM_run?_eq_some hb
    have h : Ordered map.mappings := (hvalid valid_empty).build_ordered
    have hms : map.mappings.toList = ms :=
      (congrArg Array.toList (hvalid valid_empty).build_mappings).trans hms
    have hnearest : map.nearestSourcePosition? g = nearestScanned? ms g :=
      hms ▸ h.nearestSourcePosition?_eq
    refine ⟨hms, hms ▸ h.length_filter_le_one, hms ▸ h.sourcePosition?_eq, hnearest, fun m hm => ?_, ?_⟩
    · obtain ⟨call, hcall, hrange⟩ := exists_of_mem_placed hm
      have hle := hproper call hcall m.source hrange
      simp only [Mapping.sourceOf, Span.len]
      omega
    · rw [hnearest]
      constructor
      · simp +contextual [nearestScanned?]
      · intro hnil
        rw [hnil]
        rfl

/-- In front of the first mapping, behind the end of its source, and behind all its text. -/
theorem lookups_eq_scanned_clamped :
    let calls : List Call := [.addGenerated ['a', 'b'], .addMapping 3 5 4, .addGenerated ['c']]
    ∃ b, calls.foldlM run? {} = some b ∧ b.build.sourcePosition? 0 = none ∧
      b.build.nearestSourcePosition? 0 = some 3 ∧ b.build.sourcePosition? 5 = some 5 ∧
      b.build.nearestSourcePosition? 6 = some 5 := by
  intro calls
  have hproper : ∀ call ∈ calls, call.Proper := by simp [calls, Call.Proper, Call.range?]
  obtain ⟨-, hlookups⟩ := lookups_eq_scanned calls hproper
  refine ⟨_, rfl, ?_⟩
  obtain ⟨-, -, hnone, hfirst, -⟩ := hlookups _ rfl 0
  obtain ⟨-, -, hclamped, -⟩ := hlookups _ rfl 5
  obtain ⟨-, -, -, hbehind, -⟩ := hlookups _ rfl 6
  exact ⟨hnone, hfirst, hclamped, hbehind⟩

/-- A size that the offsets have no bits left for: there is no map to look anything up in. -/
theorem run?_overflow :
    let calls : List Call := [.addMapping 0 1 4000000000, .addMapping 0 1 500000000]
    calls.foldlM run? {} = none ∧ scanned? (placed 0 calls) 0 = some 0 := by
  decide

end Builder
end SfcTsx.SourceMap
