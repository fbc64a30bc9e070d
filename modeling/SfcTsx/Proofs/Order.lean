import SfcTsx.Order
import Mathlib.Data.List.Sort

namespace SfcTsx

section
variable {α : Type} (key : α → Nat) (l : List α)

theorem sortOn_eq : sortOn key l = l.insertionSort (Order.Preimage key (· ≤ ·)) := by
  have hinsert (a : α) (l : List α) : insertBy (fun a b => key a ≤ key b) a l =
      l.orderedInsert (Order.Preimage key (· ≤ ·)) a := by
    induction l with
    | nil => rfl
    | cons b l ih =>
      rw [insertBy, ih]
      simp [Order.Preimage]
  induction l with
  | nil => rfl
  | cons a l ih => exact (hinsert a _).trans (congrArg _ ih)

theorem pairwise_sortOn : (sortOn key l).Pairwise fun a b => key a ≤ key b := by
  rw [sortOn_eq]
  exact List.pairwise_insertionSort _ l

theorem sortOn_of_pairwise {key : α → Nat} {l : List α} (h : l.Pairwise fun a b => key a ≤ key b) :
    sortOn key l = l := by
  rw [sortOn_eq]
  exact List.Pairwise.insertionSort_eq h

theorem mem_sortOn {key : α → Nat} {x : α} {l : List α} : x ∈ sortOn key l ↔ x ∈ l := by
  rw [sortOn_eq]
  exact List.mem_insertionSort _

end

section
variable {α : Type} {xs : Array α}

/-- What is too small stands in front of what is not, and what is too large behind. -/
def Ascending (order : α → Ordering) (xs : Array α) : Prop :=
  xs.toList.Pairwise fun x y => (order y = .lt → order x = .lt) ∧ (order x = .gt → order y = .gt)

theorem Ascending.of_lt {order : α → Ordering} (h : Ascending order xs) {i j : Nat} {x y : α}
    (hi : xs[i]? = some x) (hj : xs[j]? = some y) (hij : i < j) :
    (order y = .lt → order x = .lt) ∧ (order x = .gt → order y = .gt) := by
  obtain ⟨hi', rfl⟩ := Array.getElem?_eq_some_iff.mp hi
  obtain ⟨hj', rfl⟩ := Array.getElem?_eq_some_iff.mp hj
  exact List.pairwise_iff_getElem.mp h i j (by simpa using hi') (by simpa using hj') hij

/-- The index of an item that is neither too small nor too large, or, if there is none, the one where
the items that are too large begin. -/
def Found (order : α → Ordering) (xs : Array α) : Except Nat Nat → Prop
  | .ok i => ∃ x, xs[i]? = some x ∧ order x = .eq
  | .error i => i ≤ xs.size ∧ ∀ j x, xs[j]? = some x → order x = if j < i then .lt else .gt

theorem searchBetween_found {order : α → Ordering} (h : Ascending order xs) (lo hi : Nat) (hle : lo ≤ hi)
    (hsize : hi ≤ xs.size) (hlo : ∀ i x, i < lo → xs[i]? = some x → order x = .lt)
    (hhi : ∀ i x, hi ≤ i → xs[i]? = some x → order x = .gt) :
    Found order xs (searchBetween order xs lo hi) := by
  fun_induction searchBetween order xs lo hi with
  | case1 lo hi hlt mid x hmid hx ih =>
    refine ih (by omega) hsize (fun i y hi' hy => ?_) hhi
    obtain hlt' | rfl : i < mid ∨ i = mid := by omega
    · exact (h.of_lt hy hmid hlt').1 hx
    · exact Option.some.inj (hy.symm.trans hmid) ▸ hx
  | case2 lo hi hlt mid x hmid hx ih =>
    refine ih (by omega) (by omega) hlo (fun i y hi' hy => ?_)
    obtain hlt' | rfl : mid < i ∨ mid = i := by omega
    · exact (h.of_lt hmid hy hlt').2 hx
    · exact Option.some.inj (hy.symm.trans hmid) ▸ hx
  | case3 lo hi hlt mid x hmid hx => exact ⟨x, hmid, hx⟩
  | case4 lo hi hlt mid hmid =>
    have hin : mid < xs.size := by omega
    simp [hin] at hmid
  | case5 lo hi hge =>
    obtain rfl : lo = hi := by omega
    refine ⟨hsize, fun j x hx => ?_⟩
    split
    · exact hlo j x ‹_› hx
    · exact hhi j x (by omega) hx

theorem searchBy_found {order : α → Ordering} (h : Ascending order xs) :
    Found order xs (searchBy order xs) := by
  refine searchBetween_found h 0 xs.size (Nat.zero_le _) (Nat.le_refl _) ?_ ?_
  · intro i x hi
    omega
  · intro i x hi hx
    simp [Array.getElem?_eq_none hi] at hx

theorem partitionPoint_spec {p : α → Bool} (h : xs.toList.Pairwise fun x y => p y = true → p x = true) :
    partitionPoint p xs ≤ xs.size ∧
      ∀ i x, xs[i]? = some x → (i < partitionPoint p xs ↔ p x = true) := by
  have hascending : Ascending (fun x => if p x then .lt else .gt) xs := by
    refine h.imp fun hxy => ⟨fun hy => ?_, fun hx => ?_⟩ <;> grind
  have hfound := searchBy_found hascending
  unfold partitionPoint
  cases hsearch : searchBy (fun x => if p x then Ordering.lt else .gt) xs with
  | ok i =>
    rw [hsearch] at hfound
    obtain ⟨x, -, hx⟩ := hfound
    grind
  | error i =>
    rw [hsearch] at hfound
    refine ⟨hfound.1, fun j x hx => ?_⟩
    have hside := hfound.2 j x hx
    grind

end

end SfcTsx
