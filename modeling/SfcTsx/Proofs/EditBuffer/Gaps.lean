import SfcTsx.Proofs.EditBuffer.Links
import Mathlib.Logic.Function.Basic

namespace SfcTsx

/-- What was put at the offsets of a source, and which of its bytes are hidden. -/
structure Gaps where
  left : Nat → Text
  right : Nat → Text
  content : Nat → Option Text
  hidden : Nat → Bool

namespace Gaps

def untouched : Gaps := ⟨fun _ => [], fun _ => [], fun _ => none, fun _ => false⟩

def editLeft (g : Gaps) (offset : Nat) (f : Text → Text) : Gaps :=
  { g with left := fun n => if n = offset then f (g.left n) else g.left n }

def editRight (g : Gaps) (offset : Nat) (f : Text → Text) : Gaps :=
  { g with right := fun n => if n = offset then f (g.right n) else g.right n }

/-- Hides a range and drops what was put inside it. -/
def clear (g : Gaps) (start stop : Nat) : Gaps where
  left n := if start < n ∧ n ≤ stop then [] else g.left n
  right n := if start ≤ n ∧ n < stop then [] else g.right n
  content n := if start ≤ n ∧ n < stop then none else g.content n
  hidden n := if start ≤ n ∧ n < stop then true else g.hidden n

def setContent (g : Gaps) (offset : Nat) (text : Text) : Gaps :=
  { g with content := fun n => if n = offset then some text else g.content n }

/-- What a call that is carried out does to the gaps of a source of a given size. -/
def apply (size : Nat) (g : Gaps) : Operation → Gaps
  | .insertLeft offset text => g.editLeft offset (· ++ text)
  | .prependLeft offset text => g.editLeft offset (text ++ ·)
  | .insertRight offset text => g.editRight offset (· ++ text)
  | .prependRight offset text => g.editRight offset (text ++ ·)
  | .append text => g.editRight size (· ++ text)
  | .prepend text => g.editLeft 0 (text ++ ·)
  | .remove start stop => if start < stop then g.clear start stop else g
  | .overwrite start stop text => (g.clear start stop).setContent start text
  | .update .. | .moveRange .. | .slice .. => g

def byteAt (source : Text) (g : Gaps) (n : Nat) : List UInt8 :=
  if g.hidden n then [] else source.bytes[n]?.toList

def render (source : Text) (g : Gaps) : List UInt8 :=
  (List.range (source.size + 1)).flatMap fun n =>
    (g.left n).bytes ++ (g.right n).bytes ++ Text.bytes ((g.content n).getD []) ++ g.byteAt source n

end Gaps

/-- The calls that leave every piece of the source in its place and whole ranges in one state. -/
def Operation.InPlace : Operation → Prop
  | .update .. | .moveRange .. | .slice .. => False
  | _ => True

namespace EditBuffer

def accepts (b : EditBuffer) (o : Operation) : Bool :=
  match o.run b with
  | .ok .. => true
  | .error .. => false

def replay (b : EditBuffer) (g : Gaps) : List Operation → Gaps
  | [] => g
  | o :: os =>
    (b.after o).replay (if b.accepts o then g.apply b.source.size o else g) os

end EditBuffer

namespace Gaps

variable (source : Text) (g : Gaps)

/-- From what is after an offset to what is before the next one. -/
def cell (n : Nat) : List UInt8 :=
  (g.right n).bytes ++ Text.bytes ((g.content n).getD []) ++ g.byteAt source n ++
    (g.left (n + 1)).bytes

theorem flatMap_shift {α : Type} (l r : Nat → List α) (s k : Nat) :
    (List.range' s (k + 1)).flatMap (fun n => l n ++ r n) =
      l s ++ (List.range' s k).flatMap (fun n => r n ++ l (n + 1)) ++ r (s + k) := by
  induction k generalizing s with
  | zero => simp
  | succ k ih =>
    rw [List.range'_succ, List.flatMap_cons, ih, List.range'_succ, List.flatMap_cons]
    simp [Nat.add_comm k 1, ← Nat.add_assoc]

theorem flatMap_getElem? {α : Type} (l : List α) (s k : Nat) :
    (List.range' s k).flatMap (fun n => l[n]?.toList) = (l.drop s).take k := by
  induction k generalizing s with
  | zero => simp
  | succ k ih =>
    rw [List.range'_succ, List.flatMap_cons, ih]
    by_cases hs : s < l.length
    · rw [List.drop_eq_getElem_cons hs, List.take_succ_cons, List.getElem?_eq_getElem hs]
      rfl
    · rw [List.getElem?_eq_none (by omega), List.drop_eq_nil_of_le (by omega),
        List.drop_eq_nil_of_le (by omega)]
      simp

theorem render_eq : g.render source =
    (g.left 0).bytes ++ (List.range' 0 source.size).flatMap (g.cell source) ++
      ((g.right source.size).bytes ++ Text.bytes ((g.content source.size).getD [])) := by
  have hend : g.byteAt source source.size = [] := by
    have hlen : source.bytes[source.size]? = none := by simp
    unfold byteAt
    split
    · rfl
    · rw [hlen]; rfl
  have hshift := flatMap_shift (fun n => (g.left n).bytes) (fun n => (g.right n).bytes ++
    Text.bytes ((g.content n).getD []) ++ g.byteAt source n) 0 source.size
  simp only [render, List.range_eq_range', ← List.append_assoc] at hshift ⊢
  rw [hshift, Nat.zero_add, hend, List.append_nil]
  rfl

theorem flatMap_cell (s k : Nat)
    (h : ∀ n, s < n → n < s + k + 1 → g.left n = [] ∧ g.right n = [] ∧ (g.content n).getD [] = []) :
    (List.range' s (k + 1)).flatMap (g.cell source) =
      (g.right s).bytes ++ Text.bytes ((g.content s).getD []) ++
        (List.range' s (k + 1)).flatMap (g.byteAt source) ++ (g.left (s + k + 1)).bytes := by
  induction k generalizing s with
  | zero => simp [cell]
  | succ k ih =>
    obtain ⟨hl, hr, hc⟩ := h (s + 1) (by omega) (by omega)
    have hrest := ih (s + 1) fun n h1 h2 => h n (by omega) (by omega)
    rw [List.range'_succ, List.flatMap_cons, hrest, List.flatMap_cons, hr, hc, cell, hl]
    simp only [Text.bytes_nil, List.nil_append, List.append_nil, List.append_assoc]
    rw [show s + 1 + k + 1 = s + (k + 1) + 1 by omega]

end Gaps
end SfcTsx
