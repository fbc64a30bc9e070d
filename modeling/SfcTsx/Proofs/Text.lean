import SfcTsx.Span

namespace SfcTsx.Text

variable {t u w source : Text} {a : Nat} {needle : Text} {n : Nat} {c : Char}

theorem size_eq_zero : size t = 0 ↔ t = [] := by
  cases t with
  | nil => simp
  | cons c cs =>
    have hc := c.utf8Size_pos
    simp only [size_cons, reduceCtorEq, iff_false]
    omega

theorem size_pos (h : t ≠ []) : 0 < size t :=
  Nat.pos_of_ne_zero fun h0 => h (size_eq_zero.mp h0)

theorem size_reverse (t : Text) : size t.reverse = size t := by
  induction t with
  | nil => rfl
  | cons c t ih => simp [ih, Nat.add_comm]

theorem exists_size_cons (c : Char) (cs : Text) :
    ∃ n, size (c :: cs) = n + 1 ∧ c.utf8Size ≤ n + 1 ∧ n + 1 - c.utf8Size = size cs := by
  have hc := c.utf8Size_pos
  rw [size_cons]
  exact ⟨c.utf8Size + size cs - 1, by omega, by omega, by omega⟩

theorem drop?_size_append (s u : Text) : drop? (size s) (s ++ u) = some u := by
  induction s with
  | nil => cases u <;> rfl
  | cons c cs ih =>
    obtain ⟨n, hn, hle, hsub⟩ := exists_size_cons c cs
    rw [hn, List.cons_append, drop?, if_pos hle, hsub, ih]

theorem take?_size_append (s u : Text) : take? (size s) (s ++ u) = some s := by
  induction s with
  | nil => cases u <;> rfl
  | cons c cs ih =>
    obtain ⟨n, hn, hle, hsub⟩ := exists_size_cons c cs
    rw [hn, List.cons_append, take?, if_pos hle, hsub, ih]
    rfl

theorem append_inj_of_size {a b v : Text} (h : a ++ u = b ++ v) (hsize : size u = size v) :
    a = b ∧ u = v := by
  have hnil : ∀ {d w : Text}, size w = size (d ++ w) → d = [] := by
    intro d w hd
    rw [size_append] at hd
    exact size_eq_zero.mp (by omega)
  obtain ⟨d, rfl, rfl⟩ | ⟨d, rfl, rfl⟩ := List.append_eq_append_iff.mp h
  · rw [hnil hsize.symm]
    simp
  · rw [hnil hsize]
    simp

theorem exists_append_of_drop? (h : drop? n t = some u) : ∃ s, t = s ++ u ∧ size s = n := by
  induction t generalizing n with
  | nil =>
    cases n with
    | zero => exact ⟨[], by simpa [drop?] using h, rfl⟩
    | succ n => simp [drop?] at h
  | cons c cs ih =>
    cases n with
    | zero => exact ⟨[], by simpa [drop?] using h, rfl⟩
    | succ n =>
      rw [drop?] at h
      split at h
      next hle =>
        obtain ⟨s, rfl, hs⟩ := ih h
        exact ⟨c :: s, rfl, by simp only [size_cons]; omega⟩
      next => simp at h

theorem isBoundary_iff : isBoundary n t = true ↔ ∃ s u, t = s ++ u ∧ size s = n := by
  constructor
  · intro h
    obtain ⟨u, hu⟩ := Option.isSome_iff_exists.mp h
    obtain ⟨s, hs⟩ := exists_append_of_drop? hu
    exact ⟨s, u, hs⟩
  · rintro ⟨s, u, rfl, rfl⟩
    simp [isBoundary, drop?_size_append]

theorem slice_head (s u : Text) : slice 0 (size s) (s ++ u) = s := by
  have h : drop? 0 (s ++ u) = some (s ++ u) := by cases s ++ u <;> rfl
  simp [slice, slice?, h, take?_size_append]

theorem slice_tail (s u : Text) : slice (size s) (size (s ++ u)) (s ++ u) = u := by
  have h := take?_size_append u []
  rw [List.append_nil] at h
  simp [slice, slice?, drop?_size_append, h]

theorem exists_cut_of_isBoundary {pre mid post : Text}
    (h : isBoundary n (pre ++ mid ++ post) = true) (lo : size pre ≤ n)
    (hi : n ≤ size pre + size mid) : ∃ s u, mid = s ++ u ∧ size pre + size s = n := by
  obtain ⟨x, y, hxy, hx⟩ := isBoundary_iff.mp h
  rw [List.append_assoc] at hxy
  obtain ⟨s, rfl, hy⟩ | ⟨s, rfl, -⟩ := List.append_eq_append_iff.mp hxy
  · obtain ⟨u, rfl, -⟩ | ⟨u, rfl, -⟩ := List.append_eq_append_iff.mp hy
    · exact ⟨mid, [], by simp, by simp only [size_append] at hx; have := size_append mid u; omega⟩
    · exact ⟨s, u, rfl, by simpa using hx⟩
  · have hs : size s = 0 := by simp only [size_append] at lo; omega
    exact ⟨[], mid, rfl, by simp only [size_append] at lo ⊢; simp; omega⟩

theorem slice_self (n : Nat) (t : Text) : slice n n t = [] := by
  rw [slice, slice?, if_pos (Nat.le_refl n), Nat.sub_self]
  cases drop? n t with
  | none => rfl
  | some u => simp [take?]

/-- The text is what the source has from an offset on. -/
def At (source : Text) (offset : Nat) (text : Text) : Prop :=
  ∃ front, source = front ++ text ∧ size front = offset

namespace At

variable {source t u s : Text} {a b : Nat}

theorem zero (source : Text) : At source 0 source := ⟨[], rfl, rfl⟩

theorem size (source : Text) : At source (size source) [] := ⟨source, by simp, rfl⟩

theorem skip (h : At source a (s ++ u)) : At source (a + Text.size s) u := by
  obtain ⟨front, rfl, rfl⟩ := h
  exact ⟨front ++ s, by simp, by simp⟩

theorem drop? (h : At source a t) : Text.drop? a source = some t := by
  obtain ⟨front, rfl, rfl⟩ := h
  exact drop?_size_append front t

theorem unique (h : At source a t) (h' : At source a u) : t = u :=
  Option.some.inj (h.drop?.symm.trans h'.drop?)

theorem isBoundary (h : At source a t) : isBoundary a source = true := by
  simp [Text.isBoundary, h.drop?]

theorem of_isBoundary (h : Text.isBoundary a source = true) : ∃ t, At source a t := by
  obtain ⟨s, u, rfl, rfl⟩ := isBoundary_iff.mp h
  exact ⟨u, s, rfl, rfl⟩

theorem le_size (h : At source a t) : a + Text.size t = Text.size source := by
  obtain ⟨front, rfl, rfl⟩ := h
  simp

theorem between (h : At source a t) (h' : At source b u) (hab : a ≤ b) :
    ∃ s, t = s ++ u ∧ b = a + Text.size s := by
  obtain ⟨x, rfl, rfl⟩ := h
  obtain ⟨y, hy, rfl⟩ := h'
  obtain ⟨s, rfl, ht⟩ | ⟨s, rfl, hu⟩ := List.append_eq_append_iff.mp hy
  · exact ⟨s, ht, by simp⟩
  · obtain rfl : s = [] := size_eq_zero.mp (by simp only [size_append] at hab; omega)
    exact ⟨[], by simpa using hu.symm, by simp⟩

theorem exists_source (a : Nat) (t : Text) : ∃ source, At source a t := by
  refine ⟨List.replicate a ' ' ++ t, List.replicate a ' ', rfl, ?_⟩
  induction a with
  | zero => rfl
  | succ a ih =>
    have hone : (' ' : Char).utf8Size = 1 := rfl
    rw [List.replicate_succ, size_cons, ih, hone]
    omega

theorem slice? (h : At source a (s ++ u)) : Text.slice? a (a + Text.size s) source = some s := by
  simp [Text.slice?, h.drop?, take?_size_append]

theorem slice (h : At source a (s ++ u)) :
    Text.slice a (a + Text.size s) source = s := by rw [Text.slice, h.slice?, Option.getD_some]

end At

section
variable {α : Type} {p : α → Bool} {s u : List α}

theorem takeWhile_run (hs : ∀ c ∈ s, p c = true) (hu : ∀ c ∈ u.head?, p c = false) :
    (s ++ u).takeWhile p = s := by
  rw [List.takeWhile_append_of_pos hs]
  cases u with
  | nil => simp
  | cons c u => simp [hu c rfl]

theorem dropWhile_run (hs : ∀ c ∈ s, p c = true) (hu : ∀ c ∈ u.head?, p c = false) :
    (s ++ u).dropWhile p = u := by
  rw [List.dropWhile_append_of_pos hs]
  cases u with
  | nil => rfl
  | cons c u => simp [hu c rfl]

end

theorem le_size_of_isBoundary (h : isBoundary a source = true) : a ≤ size source := by
  obtain ⟨t, ht⟩ := At.of_isBoundary h
  exact Nat.le.intro ht.le_size

theorem slice_append {b c : Nat} (ha : isBoundary a source = true)
    (hb : isBoundary b source = true) (hc : isBoundary c source = true) (hab : a ≤ b)
    (hbc : b ≤ c) : slice a b source ++ slice b c source = slice a c source := by
  obtain ⟨t, ht⟩ := At.of_isBoundary ha
  obtain ⟨u, hu⟩ := At.of_isBoundary hb
  obtain ⟨v, hv⟩ := At.of_isBoundary hc
  obtain ⟨x, rfl, rfl⟩ := ht.between hu hab
  obtain ⟨y, rfl, rfl⟩ := hu.between hv hbc
  rw [ht.slice, hu.slice]
  have hxy : At source a ((x ++ y) ++ v) := by simpa using ht
  have h := hxy.slice
  rw [size_append, ← Nat.add_assoc] at h
  exact h.symm

theorem slice_size (h : isBoundary a source = true) :
    At source a (slice a (size source) source) := by
  obtain ⟨t, ht⟩ := At.of_isBoundary h
  have hs : At source a (t ++ []) := by simpa using ht
  have := hs.slice
  rw [ht.le_size] at this
  rwa [this]

theorem after?_append (p u : Text) : after? p (p ++ u) = some u := by
  induction p with
  | nil => rfl
  | cons c p ih => rw [List.cons_append, after?, if_pos rfl, ih]

theorem after?_eq_some {p : Text} (h : after? p t = some u) : t = p ++ u := by
  induction p generalizing t with
  | nil => simpa [after?] using h
  | cons c p ih =>
    cases t with
    | nil => cases h
    | cons d t =>
      rw [after?] at h
      split at h
      next heq => rw [heq, List.cons_append, ih h]
      next => cases h

theorem before?_eq_some {e : Text} (h : before? e t = some u) : t = u ++ e := by
  obtain ⟨v, hv, rfl⟩ := Option.map_eq_some_iff.mp h
  have ht := after?_eq_some hv
  rw [← List.reverse_reverse t, ht, List.reverse_append, List.reverse_reverse]

theorem cutAt?_eq_some {a b : Text} (h : cutAt? needle t = some (a, b)) :
    t = a ++ b ∧ ∃ rest, b = needle ++ rest := by
  induction t generalizing a with
  | nil =>
    rw [cutAt?] at h
    split at h
    next hn =>
      obtain ⟨rfl, rfl⟩ : [] = a ∧ [] = b := by simpa using h
      exact ⟨rfl, [], by simpa using hn⟩
    next => cases h
  | cons c t ih =>
    rw [cutAt?] at h
    split at h
    next hp =>
      obtain ⟨rfl, rfl⟩ : [] = a ∧ c :: t = b := by simpa using h
      obtain ⟨rest, hrest⟩ := List.isPrefixOf_iff_prefix.mp hp
      exact ⟨rfl, rest, hrest.symm⟩
    next =>
      obtain ⟨⟨x, y⟩, hcut, heq⟩ := Option.map_eq_some_iff.mp h
      obtain ⟨rfl, rfl⟩ : c :: x = a ∧ y = b := by simpa using heq
      obtain ⟨rfl, hrest⟩ := ih hcut
      exact ⟨rfl, hrest⟩

/-- The needle does not occur across the place where two texts meet. -/
def Parted (needle u w : Text) : Prop :=
  ∀ p q, needle = p ++ q → p ≠ [] → q ≠ [] → p <:+ u → ¬ q <+: w

theorem Parted.of_append {s : Text} (h : Parted needle (s ++ u) w) : Parted needle u w :=
  fun p q hpq hp hq hsuffix => h p q hpq hp hq (hsuffix.trans (List.suffix_append s u))

theorem Parted.of_head (h : ∀ c ∈ w.head?, c ∉ needle.tail) : Parted needle u w := by
  rintro p q rfl hp hq - ⟨r, rfl⟩
  cases p with
  | nil => exact hp rfl
  | cons c p =>
    cases q with
    | nil => exact hq rfl
    | cons d q => exact h d rfl (by simp)

theorem Parted.of_last (h : ∀ c ∈ u.getLast?, c ∉ needle.dropLast) : Parted needle u w := by
  rintro p q rfl hp hq ⟨r, rfl⟩ -
  have hlast : (r ++ p).getLast? = some (p.getLast hp) := by
    rw [List.getLast?_append, List.getLast?_eq_some_getLast hp]
    rfl
  refine h _ hlast ?_
  rw [List.dropLast_append_of_ne_nil hq]
  exact List.mem_append_left _ (List.getLast_mem hp)

theorem cutAt?_append (hn : needle ≠ []) (h : Parted needle u w) : cutAt? needle (u ++ w) =
      match cutAt? needle u with
      | some cut => some (cut.1, cut.2 ++ w)
      | none => (cutAt? needle w).map fun cut => (u ++ cut.1, cut.2) := by
  induction u with
  | nil =>
    have hnil : cutAt? needle [] = none := by simp [cutAt?, hn]
    rw [hnil, List.nil_append]
    cases cutAt? needle w <;> rfl
  | cons c u ih =>
    rw [List.cons_append, cutAt?, cutAt?]
    by_cases hprefix : needle.isPrefixOf (c :: u) = true
    · have hlong : needle.isPrefixOf (c :: (u ++ w)) = true := by
        have := (List.isPrefixOf_iff_prefix.mp hprefix).trans (List.prefix_append (c :: u) w)
        exact List.isPrefixOf_iff_prefix.mpr this
      rw [if_pos hprefix, if_pos hlong]
      rfl
    · have hlong : ¬ needle.isPrefixOf (c :: (u ++ w)) = true := by
        intro hp
        obtain ⟨r, hr⟩ := List.isPrefixOf_iff_prefix.mp hp
        obtain ⟨d, hd, hw⟩ | ⟨d, hd, -⟩ :=
          List.append_eq_append_iff.mp (show needle ++ r = (c :: u) ++ w from hr)
        · exact hprefix (List.isPrefixOf_iff_prefix.mpr ⟨d, hd.symm⟩)
        · by_cases hdn : d = []
          · exact hprefix (List.isPrefixOf_iff_prefix.mpr ⟨[], by simp [hd, hdn]⟩)
          · exact h (c :: u) d hd (by simp) hdn (List.suffix_refl _) (by simp_all)
      rw [if_neg hprefix, if_neg hlong, ih (h.of_append (s := [c]))]
      cases cutAt? needle u with
      | some cut => rfl
      | none => cases cutAt? needle w <;> rfl

theorem drop?_add (s t : Text) (n : Nat) : drop? (size s + n) (s ++ t) = drop? n t := by
  induction s with
  | nil => simp
  | cons c s ih =>
    have hc := c.utf8Size_pos
    obtain ⟨m, hm⟩ : ∃ m, size (c :: s) + n = m + 1 := ⟨size (c :: s) + n - 1, by simp; omega⟩
    have hle : c.utf8Size ≤ m + 1 := by simp only [size_cons] at hm; omega
    have hsub : m + 1 - c.utf8Size = size s + n := by simp only [size_cons] at hm; omega
    rw [hm, List.cons_append, drop?, if_pos hle, hsub, ih]

theorem drop?_append_left (u : Text) (h : n ≤ size t) :
    drop? n (t ++ u) = (drop? n t).map (· ++ u) := by
  induction t generalizing n with
  | nil =>
    obtain rfl : n = 0 := by simpa using h
    cases u <;> rfl
  | cons c t ih =>
    cases n with
    | zero => rfl
    | succ n =>
      rw [List.cons_append, drop?, drop?]
      split
      next hle => rw [ih (by simp only [size_cons] at h; omega)]
      next => rfl

theorem splitOn_flatMap {ts : List Text} (ht : c ∉ t) (hts : ∀ u ∈ ts, c ∉ u) :
    splitOn c (t ++ ts.flatMap (c :: ·)) = t :: ts := by
  induction t with
  | nil =>
    induction ts with
    | nil => rfl
    | cons u ts ih =>
      have hu := hts u List.mem_cons_self
      have hrest := ih fun v hv => hts v (List.mem_cons_of_mem _ hv)
      rw [List.nil_append] at hrest ⊢
      rw [List.flatMap_cons, List.cons_append, splitOn, if_pos rfl]
      congr 1
      clear ih hts
      induction u with
      | nil => exact hrest
      | cons d u ih =>
        obtain ⟨hd, hu⟩ : ¬ c = d ∧ c ∉ u := by simpa using hu
        rw [List.cons_append, splitOn, if_neg (Ne.symm hd), ih hu]
  | cons d t ih =>
    obtain ⟨hd, ht⟩ : ¬ c = d ∧ c ∉ t := by simpa using ht
    rw [List.cons_append, splitOn, if_neg (Ne.symm hd), ih ht]

theorem toNat_of_isAlpha (h : c.isAlpha = true) :
    65 ≤ c.toNat ∧ c.toNat ≤ 90 ∨ 97 ≤ c.toNat ∧ c.toNat ≤ 122 := by
  have hcases : (decide (c.val ≥ 65 ∧ c.val ≤ 90) || (c.val ≥ 97 && c.val ≤ 122)) = true := h
  simp only [Bool.or_eq_true, Bool.and_eq_true, decide_eq_true_eq] at hcases
  exact hcases

theorem toNat_of_isDigit (h : c.isDigit = true) : 48 ≤ c.toNat ∧ c.toNat ≤ 57 := by
  have hcases : (decide (c.val ≥ 48) && c.val ≤ 57) = true := h
  simp only [Bool.and_eq_true, decide_eq_true_eq] at hcases
  exact hcases

@[simp] theorem bytes_nil : bytes [] = [] := rfl

@[simp] theorem bytes_append (s t : Text) : bytes (s ++ t) = bytes s ++ bytes t :=
  List.flatMap_append

@[simp] theorem length_bytes (t : Text) : (bytes t).length = size t := by
  induction t with
  | nil => rfl
  | cons c cs ih =>
    have h : bytes (c :: cs) = String.utf8EncodeChar c ++ bytes cs := rfl
    rw [h, List.length_append, String.length_utf8EncodeChar, ih, size_cons]

end SfcTsx.Text

namespace SfcTsx

def Span.Spells (s : Span) (source text : Text) : Prop :=
  s.stop = s.start + text.size ∧ ∃ rest, source.At s.start (text ++ rest)

end SfcTsx
