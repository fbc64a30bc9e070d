import SfcTsx.Vlq
import Mathlib.Algebra.GroupWithZero.Nat
import Mathlib.Algebra.Ring.Int.Defs
import Mathlib.Data.List.Basic

namespace SfcTsx.Vlq

def digit? (c : Char) : Option Nat := alphabet.idxOf? c

def unzigzag (n : Nat) : Int := if n % 2 = 0 then (n / 2 : Nat) else -(n / 2 : Nat)

/-- The quantities of a text. Digits of the first one that were read before make up `part`, and the
next one has the given weight. -/
def readFrom (part weight : Nat) : Text → Option (List Int)
  | [] => if weight = 1 then some [] else none
  | c :: cs => (digit? c).bind fun digit =>
    if digit < 32 then (readFrom 0 1 cs).map (unzigzag (part + weight * digit) :: ·)
    else readFrom (part + weight * (digit - 32)) (weight * 32) cs

def read? (t : Text) : Option (List Int) := readFrom 0 1 t

theorem digit?_digitChar {digit : Nat} (h : digit < 64) : digit? (digitChar digit) = some digit :=
  (by decide +kernel : ∀ d : Fin 64, digit? (digitChar d) = some d.val) ⟨digit, h⟩

theorem unzigzag_zigzag (value : Int) : unzigzag (zigzag value) = value := by
  unfold unzigzag zigzag
  split <;> split <;> omega

theorem mem_groups_lt {n digit : Nat} (h : digit ∈ groups n) : digit < 64 := by
  fun_induction groups n with
  | case1 n hn =>
    rw [List.mem_singleton.mp h]
    omega
  | case2 n hn ih =>
    rcases List.mem_cons.mp h with rfl | h
    · omega
    · exact ih h

theorem readFrom_groups (part weight n : Nat) (rest : Text) :
    readFrom part weight ((groups n).map digitChar ++ rest) =
      (read? rest).map (unzigzag (part + weight * n) :: ·) := by
  fun_induction groups n generalizing part weight with
  | case1 n hn =>
    rw [List.map_singleton, List.singleton_append, readFrom, digit?_digitChar (by omega)]
    exact if_pos hn
  | case2 n hn ih =>
    have hlow : n % 32 + 32 < 64 := by omega
    rw [List.map_cons, List.cons_append, readFrom, digit?_digitChar hlow, Option.bind_some,
      if_neg (by omega), Nat.add_sub_cancel, ih]
    -- the lowest five bits and the rest, moved up by five bits
    have hvalue : part + weight * (n % 32) + weight * 32 * (n / 32) = part + weight * n := by
      rw [Nat.mul_assoc, Nat.add_assoc, ← Nat.mul_add, Nat.mod_add_div]
    rw [hvalue]

/-- A quantity that was written is read back, whatever follows. -/
theorem read?_encode (value : Int) (rest : Text) :
    read? (encode value ++ rest) = (read? rest).map (value :: ·) := by
  have h := readFrom_groups 0 1 (zigzag value) rest
  rw [Nat.zero_add, Nat.one_mul, unzigzag_zigzag] at h
  exact h

theorem encode_ne_nil (value : Int) : encode value ≠ [] := by
  rw [encode, groups]
  split <;> simp

theorem mem_encode {value : Int} {c : Char} (h : c ∈ encode value) : c ∈ alphabet := by
  obtain ⟨digit, hdigit, rfl⟩ := List.mem_map.mp h
  have hread := digit?_digitChar (mem_groups_lt hdigit)
  by_contra hnot
  have hnone : digit? (digitChar digit) = none := List.idxOf?_eq_none_iff.mpr hnot
  rw [hnone] at hread
  cases hread

/-- The sign moved into the lowest bit of a word. -/
def wordZigzag (value : Int64) : Int64 :=
  if value < 0 then (-value) <<< 1 ||| 1 else value <<< 1

/-- The digits of a word, if the loop ends after so many rounds. A negative word never becomes zero. -/
def wordDigits : Nat → Int64 → Option (List Nat)
  | 0, _ => none
  | rounds + 1, word =>
    let digit := (word &&& 31).toBitVec.toNat
    let rest := word >>> 5
    if rest = 0 then some [digit]
    else (wordDigits rounds rest).map ((if 0 < rest then digit ||| 32 else digit) :: ·)

def wordEncode? (rounds : Nat) (value : Int64) : Option Text :=
  (wordDigits rounds (wordZigzag value)).map (·.map digitChar)

section
variable {w : Int64} {n : Nat}

theorem toInt_eq_toNat (w : Int64) : w.toInt =
    if 2 * w.toBitVec.toNat < 2 ^ 64 then (w.toBitVec.toNat : Int) else w.toBitVec.toNat - 2 ^ 64 :=
  BitVec.toInt_eq_toNat_cond w.toBitVec

theorem toInt_shiftRight_five (h : w.toInt = n) : (w >>> 5).toInt = (n / 32 : Nat) := by
  have hbits : (w >>> 5).toBitVec = w.toBitVec.sshiftRight 5 := rfl
  rw [← Int64.toInt_toBitVec, hbits, BitVec.toInt_sshiftRight, Int64.toInt_toBitVec, h,
    Int.shiftRight_eq_div_pow]
  rfl

theorem toNat_low_bits (h : w.toInt = n) : (w &&& 31).toBitVec.toNat = n % 32 := by
  have hmask : (31 : Int64).toBitVec.toNat = 2 ^ 5 - 1 := rfl
  have hw := toInt_eq_toNat w
  rw [Int64.toBitVec_and, BitVec.toNat_and, hmask, Nat.and_two_pow_sub_one_eq_mod]
  split at hw <;> omega

theorem toInt_shiftLeft_one (h : w.toInt.natAbs < 2 ^ 62) : (w <<< 1).toInt = 2 * w.toInt := by
  have hbits : (w <<< 1).toBitVec = w.toBitVec <<< 1 := rfl
  have hw := toInt_eq_toNat w
  rw [toInt_eq_toNat (w <<< 1), hbits, BitVec.toNat_shiftLeft, Nat.shiftLeft_eq]
  split at hw <;> split <;> omega

theorem toInt_or_one (h : w.toInt = 2 * n) : (w ||| 1).toInt = 2 * n + 1 := by
  have hw := toInt_eq_toNat w
  have hn : w.toBitVec.toNat = 2 * n := by split at hw <;> omega
  have hodd : 2 * n + 1 = 2 * n ||| 1 := Nat.two_pow_add_eq_or_of_lt (i := 1) (by decide) n
  have hbits : (w ||| 1).toBitVec.toNat = 2 * n + 1 := by
    rw [Int64.toBitVec_or, BitVec.toNat_or, hn, hodd]
    rfl
  rw [toInt_eq_toNat, hbits]
  split <;> omega

theorem toInt_wordZigzag (h : w.toInt.natAbs < 2 ^ 62) :
    (wordZigzag w).toInt = zigzag w.toInt := by
  have hneg : w < 0 ↔ w.toInt < 0 := Int64.lt_iff_toInt_lt
  unfold wordZigzag zigzag
  by_cases hlt : w.toInt < 0
  · have hopp : (-w).toInt = w.toInt.natAbs := by
      rw [Int64.toInt_neg, Int.bmod_def]
      split <;> omega
    have hdouble := toInt_shiftLeft_one (w := -w) (by omega)
    rw [hopp] at hdouble
    rw [if_pos (hneg.mpr hlt), if_pos hlt]
    exact toInt_or_one hdouble
  · rw [if_neg (hneg.not.mpr hlt), if_neg hlt, toInt_shiftLeft_one h]
    omega

theorem wordDigits_succ (h : w.toInt = n) (rounds : Nat) :
    wordDigits (rounds + 1) w = if n < 32 then some [n]
      else (wordDigits rounds (w >>> 5)).map ((n % 32 + 32) :: ·) := by
  have hrest := toInt_shiftRight_five h
  have hzero : w >>> 5 = 0 ↔ n < 32 := by
    rw [← Int64.toInt_inj, hrest, Int64.toInt_zero]
    omega
  rw [wordDigits, toNat_low_bits h]
  by_cases hn : n < 32
  · rw [if_pos hn, if_pos (hzero.mpr hn), Nat.mod_eq_of_lt hn]
  · have hpos : (0 : Int64) < w >>> 5 := by
      rw [Int64.lt_iff_toInt_lt, hrest, Int64.toInt_zero]
      omega
    have hmarked : n % 32 ||| 32 = n % 32 + 32 := by
      rw [Nat.or_comm, Nat.add_comm]
      exact (Nat.two_pow_add_eq_or_of_lt (i := 5) (Nat.mod_lt n (by decide)) 1).symm
    rw [if_neg hn, if_neg (hzero.not.mpr hn), if_pos hpos, hmarked]

theorem wordDigits_eq (hw : w.toInt = n) {rounds : Nat} (h : n < 32 ^ (rounds + 1)) :
    wordDigits (rounds + 1) w = some (groups n) := by
  fun_induction groups n generalizing w rounds with
  | case1 n hn => rw [wordDigits_succ hw, if_pos hn]
  | case2 n hn ih =>
    cases rounds with
    | zero => omega
    | succ rounds =>
      rw [wordDigits_succ hw, if_neg hn, ih (toInt_shiftRight_five hw) (by omega)]
      rfl

end

/-- Quantities written side by side are read back, and none of them overflows a word of 64 bits or
takes more than thirteen rounds to write. -/
theorem read?_flatMap_encode (values : List Int) (h : ∀ v ∈ values, v.natAbs < 2 ^ 62) :
    read? (values.flatMap encode) = some values ∧
      ∀ v ∈ values, (wordZigzag (.ofInt v)).toInt = zigzag v ∧
        wordEncode? 13 (.ofInt v) = some (encode v) := by
  refine ⟨?_, fun v hv => ?_⟩
  · clear h
    induction values with
    | nil => rfl
    | cons v values ih => rw [List.flatMap_cons, read?_encode, ih, Option.map_some]
  · have hv := h v hv
    have hword : (Int64.ofInt v).toInt = v := Int64.toInt_ofInt_of_le (by omega) (by omega)
    have hzigzag := toInt_wordZigzag (w := .ofInt v) (by rw [hword]; exact hv)
    rw [hword] at hzigzag
    refine ⟨hzigzag, ?_⟩
    rw [wordEncode?, wordDigits_eq hzigzag (by unfold zigzag; split <;> omega)]
    rfl

theorem read?_flatMap_encode_extremes :
    (∀ v ∈ [-1, 2 ^ 62 - 1, 1 - 2 ^ 62], Int.natAbs v < 2 ^ 62) ∧
      read? (List.flatMap encode [-1, 2 ^ 62 - 1, 1 - 2 ^ 62]) = some [-1, 2 ^ 62 - 1, 1 - 2 ^ 62] ∧
      wordEncode? 13 (.ofInt (1 - 2 ^ 62)) = some (encode (1 - 2 ^ 62)) := by
  have h : ∀ v ∈ [-1, 2 ^ 62 - 1, 1 - 2 ^ 62], Int.natAbs v < 2 ^ 62 := by decide
  obtain ⟨hread, hwords⟩ := read?_flatMap_encode _ h
  exact ⟨h, hread, (hwords _ (by decide)).2⟩

end SfcTsx.Vlq
