import Wordloom.Output.NumberFormat

/-!
# Wordloom.Proofs.DigitGroups

Grouping changes how a number looks and nothing else. A finite number is printed as a numeral: a sign, digits,
and perhaps a point and more digits (`exists_numeral`). The digits in front of the point are cut where the
number of digits still to come is a multiple of three, so that only the first group can be a short one
(`splitOn_groupDigits`). Infinities and NaN are words, in which there is nothing to cut.
-/

namespace Wordloom.NumberFormat

/-! ## Groups of digits -/

section

variable {separator : Char} {cs : List Char}

theorem mem_groupDigits {c : Char} (h : c ∈ groupDigits separator cs) : c = separator ∨ c ∈ cs := by
  fun_induction groupDigits separator cs <;> grind

/-- Without separators, the digits are those that there were. -/
theorem filter_groupDigits (h : separator ∉ cs) :
    (groupDigits separator cs).filter (· ≠ separator) = cs := by
  fun_induction groupDigits separator cs <;> grind

/-- Where the separators stand does not depend on the digits. -/
theorem map_groupDigits (f : Char → Char) (separator : Char) (cs : List Char) :
    (groupDigits separator cs).map f = groupDigits (f separator) (cs.map f) := by
  fun_induction groupDigits separator cs <;> grind [groupDigits]

/-- The groups after the first have three digits each, and the first has what is left over. -/
theorem splitOn_groupDigits (hdigits : ∀ c ∈ cs, c.isDigit = true)
    (hseparator : separator.isDigit = false) :
    ∃ first rest, (groupDigits separator cs).splitOn separator = first :: rest ∧
      (first = [] ↔ cs = []) ∧ first.length ≤ 3 ∧ first.length % 3 = cs.length % 3 ∧
      (∀ group ∈ rest, group.length = 3) ∧ ∀ group ∈ first :: rest, ∀ c ∈ group, c.isDigit = true := by
  fun_induction groupDigits separator cs with
  | case1 => exact ⟨[], [], by simp⟩
  | case2 c cs hcut ih =>
    have hc : c.isDigit = true ∧ c ≠ separator := by grind
    obtain ⟨first, rest, hsplit, hnil, hle, hlength, hrest, hall⟩ :=
      ih fun d hd => hdigits d (List.mem_cons_of_mem _ hd)
    -- a cut stands in front of a full group
    have hfull : first.length = 3 := by
      have hpos : first.length ≠ 0 := by simp [hnil, hcut.1]
      omega
    refine ⟨[c], first :: rest, ?_, by simp, by simp, ?_, ?_, ?_⟩
    · simp [List.splitOn_cons_eq_if_modifyHead, hc, hsplit]
    · simp
      omega
    · simpa [hfull] using hrest
    · simpa [hc] using hall
  | case3 c cs hcut ih =>
    have hc : c.isDigit = true ∧ c ≠ separator := by grind
    obtain ⟨first, rest, hsplit, hnil, hle, hlength, hrest, hall⟩ :=
      ih fun d hd => hdigits d (List.mem_cons_of_mem _ hd)
    -- without a cut there is room for one more digit in the first group
    have hroom : first.length ≤ 2 := by
      by_cases hcs : cs = []
      · simp [hnil.2 hcs]
      · have hrem : cs.length % 3 ≠ 0 := fun hzero => hcut ⟨hcs, hzero⟩
        omega
    refine ⟨c :: first, rest, ?_, by simp, ?_, ?_, hrest, ?_⟩
    · simp [List.splitOn_cons_eq_if_modifyHead, hc, hsplit]
    · exact Nat.succ_le_succ hroom
    · simp only [List.length_cons]
      omega
    · grind

/-- One to three digits, and then groups of three. -/
def Grouped (groups : List (List Char)) : Prop :=
  ∃ first rest, groups = first :: rest ∧ 0 < first.length ∧ first.length ≤ 3 ∧
    (∀ group ∈ rest, group.length = 3) ∧ ∀ group ∈ groups, ∀ c ∈ group, c.isDigit = true

/-- Digits are put into groups of three, of which the first may be shorter. -/
theorem grouped_splitOn (hne : cs ≠ []) (hdigits : ∀ c ∈ cs, c.isDigit = true)
    (hseparator : separator.isDigit = false) :
    Grouped ((groupDigits separator cs).splitOn separator) := by
  obtain ⟨first, rest, hsplit, hnil, hle, -, hrest, hall⟩ := splitOn_groupDigits hdigits hseparator
  rw [hsplit]
  exact ⟨first, rest, rfl, List.length_pos_iff.2 (mt hnil.1 hne), hle, hrest, hall⟩

end

/-! ## Numerals -/

/-- The characters in front of the point, without a sign. -/
def wholePart (cs : List Char) : List Char := (cs.dropWhile (· = '-')).takeWhile (· ≠ '.')

/-- Commas for points, and points for commas. -/
def exchange (c : Char) : Char := if c = ',' then '.' else if c = '.' then ',' else c

theorem ne_of_isDigit {c d : Char} (hc : c.isDigit = true) (hd : d.isDigit = false) : c ≠ d := by
  rintro rfl
  rw [hc] at hd
  cases hd

theorem map_exchange {cs : List Char} (h : ∀ c ∈ cs, c.isDigit = true) : cs.map exchange = cs := by
  refine (List.map_congr_left fun c hc => ?_).trans (List.map_id cs)
  have hc := h c hc
  rw [exchange, if_neg (ne_of_isDigit hc rfl), if_neg (ne_of_isDigit hc rfl), id]

/-- Digits, perhaps after a minus, and perhaps with a point and more digits after them. -/
structure Numeral where
  negative : Bool
  whole : List Char
  fraction : Option (List Char)
  whole_ne_nil : whole ≠ []
  isDigit_whole : ∀ c ∈ whole, c.isDigit = true
  isDigit_fraction : ∀ cs ∈ fraction, ∀ c ∈ cs, c.isDigit = true

namespace Numeral

variable (x : Numeral)

def sign : List Char := if x.negative then ['-'] else []

/-- The fraction, after a given point. -/
def tail (point : Char) : List Char :=
  match x.fraction with
  | none => []
  | some cs => point :: cs

def chars : List Char := x.sign ++ (x.whole ++ x.tail '.')

/-- The numeral with the digits in front of its point in groups. -/
def grouped (separator point : Char) : List Char :=
  x.sign ++ (groupDigits separator x.whole ++ x.tail point)

theorem sign_cases : x.sign = [] ∨ x.sign = ['-'] := by
  unfold sign
  cases x.negative <;> simp

theorem tail_cases :
    (∀ point, x.tail point = []) ∨
      ∃ cs, (∀ c ∈ cs, c.isDigit = true) ∧ ∀ point, x.tail point = point :: cs := by
  unfold tail
  cases hcs : x.fraction with
  | none => exact .inl fun _ => rfl
  | some cs => exact .inr ⟨cs, x.isDigit_fraction cs hcs, fun _ => rfl⟩

theorem ne_point : ∀ c ∈ x.whole, c ≠ '.' := fun c hc => ne_of_isDigit (x.isDigit_whole c hc) rfl

theorem takeWhile_append {cs : List Char} (h : ∀ c ∈ cs, c ≠ '.') :
    (cs ++ x.tail '.').takeWhile (· ≠ '.') = cs := by
  rw [List.takeWhile_append_of_pos (by simpa using h)]
  obtain htail | ⟨_, -, htail⟩ := x.tail_cases <;> simp [htail]

theorem groupUnsigned_append (separator point : Char) :
    groupUnsigned separator point (x.whole ++ x.tail '.') =
      groupDigits separator x.whole ++ x.tail point := by
  have hdrop : (x.whole ++ x.tail '.').dropWhile (· ≠ '.') = x.tail '.' := by
    rw [List.dropWhile_append_of_pos (by simpa using x.ne_point)]
    obtain htail | ⟨_, -, htail⟩ := x.tail_cases <;> simp [htail]
  simp only [groupUnsigned, x.takeWhile_append x.ne_point, hdrop]
  obtain htail | ⟨_, -, htail⟩ := x.tail_cases <;> simp [htail]

theorem group_chars (separator point : Char) :
    group separator point x.chars = x.grouped separator point := by
  rw [chars, grouped, ← x.groupUnsigned_append]
  obtain hsign | hsign := x.sign_cases
  · -- what begins with a digit has no sign to set aside
    obtain ⟨c, cs, hcs⟩ := List.exists_cons_of_ne_nil x.whole_ne_nil
    have hc : c ≠ '-' := ne_of_isDigit (x.isDigit_whole c (by simp [hcs])) rfl
    rw [hsign, hcs]
    exact group.eq_2 _ _ _ fun _ heq => hc (List.cons.inj heq).1
  · rw [hsign]
    rfl

theorem filter_grouped : (x.grouped ',' '.').filter (· ≠ ',') = x.chars := by
  have hdigits : ∀ {cs : List Char}, (∀ c ∈ cs, c.isDigit = true) → ',' ∉ cs :=
    fun h hc => absurd (h _ hc) (by decide)
  have hsign : x.sign.filter (· ≠ ',') = x.sign := by
    obtain hsign | hsign := x.sign_cases <;> simp [hsign]
  have htail : (x.tail '.').filter (· ≠ ',') = x.tail '.' := by
    obtain htail | ⟨cs, hcs, htail⟩ := x.tail_cases
    · simp [htail]
    · have hnone := hdigits hcs
      rw [htail, List.filter_eq_self]
      grind
  rw [grouped, List.filter_append, List.filter_append, hsign, htail,
    filter_groupDigits (hdigits x.isDigit_whole), chars]

theorem wholePart_grouped : wholePart (x.grouped ',' '.') = groupDigits ',' x.whole := by
  have hpoint : ∀ c ∈ groupDigits ',' x.whole, c ≠ '.' := by
    intro c hc
    obtain rfl | hc := mem_groupDigits hc
    · decide
    · exact x.ne_point c hc
  have hstop : (groupDigits ',' x.whole ++ x.tail '.').dropWhile (· = '-') =
      groupDigits ',' x.whole ++ x.tail '.' := by
    obtain ⟨c, cs, hcs⟩ := List.exists_cons_of_ne_nil x.whole_ne_nil
    have hc : c ≠ '-' := ne_of_isDigit (x.isDigit_whole c (by simp [hcs])) rfl
    rw [hcs, groupDigits]
    split <;> simp [hc]
  have hdrop : (x.grouped ',' '.').dropWhile (· = '-') = groupDigits ',' x.whole ++ x.tail '.' := by
    rw [grouped]
    obtain hsign | hsign := x.sign_cases <;> simpa [hsign] using hstop
  rw [wholePart, hdrop, x.takeWhile_append hpoint]

/-- Point and comma change places. -/
theorem map_exchange_grouped : (x.grouped ',' '.').map exchange = x.grouped '.' ',' := by
  have hsign : x.sign.map exchange = x.sign := by
    obtain hsign | hsign := x.sign_cases <;> simp [hsign, exchange]
  have htail : (x.tail '.').map exchange = x.tail ',' := by
    obtain htail | ⟨cs, hcs, htail⟩ := x.tail_cases
    · simp [htail]
    · simp [htail, map_exchange hcs, exchange]
  rw [grouped, List.map_append, List.map_append, map_groupDigits, hsign, htail,
    map_exchange x.isDigit_whole]
  rfl

end Numeral

/-! ## Numbers -/

theorem isDigit_toString (n : Nat) : ∀ c ∈ (toString n).toList, c.isDigit = true := by
  rw [Nat.toString_eq_ofList_toDigits, String.toList_ofList]
  exact fun c hc => Nat.isDigit_of_mem_toDigits (by decide) (Nat.le_refl 10) hc

theorem toString_ne_nil (n : Nat) : (toString n).toList ≠ [] := by
  rw [Nat.toString_eq_ofList_toDigits, String.toList_ofList]
  exact Nat.toDigits_ne_nil

theorem isDigit_zeros (n : Nat) : ∀ c ∈ (Decimal.zeros n).toList, c.isDigit = true := by
  intro c hc
  obtain ⟨-, rfl⟩ : n ≠ 0 ∧ c = '0' := by simpa [Decimal.zeros] using hc
  rfl

/-- Digits that are set without an exponent, and with or without a fraction, are a numeral. -/
theorem exists_positional {digits : String} (hne : digits.toList ≠ [])
    (h : ∀ c ∈ digits.toList, c.isDigit = true) (exponent : Int) (negative : Bool) :
    ∃ x : Numeral, x.negative = negative ∧
      (Decimal.positionalText digits exponent false).toList = x.whole ++ x.tail '.' := by
  unfold Decimal.positionalText
  dsimp only
  split
  · refine ⟨⟨negative, digits.toList ++ (Decimal.zeros exponent.toNat).toList, none, by simp [hne], ?_,
      by simp⟩, rfl, by simp [Numeral.tail]⟩
    exact fun c hc => (List.mem_append.1 hc).elim (h c) (isDigit_zeros _ c)
  split
  · refine ⟨⟨negative, digits.toList.take (digits.length + exponent).toNat,
      some (digits.toList.drop (digits.length + exponent).toNat), ?_, ?_, ?_⟩, rfl, by simp [Numeral.tail]⟩
    · simp [hne]
      omega
    · exact fun c hc => h c (List.mem_of_mem_take hc)
    · intro cs hcs c hc
      cases hcs
      exact h c (List.mem_of_mem_drop hc)
  · refine ⟨⟨negative, ['0'], some ((Decimal.zeros (-(digits.length + exponent)).toNat).toList ++
      digits.toList), by simp, by simp, ?_⟩, rfl, by simp [Numeral.tail]⟩
    intro cs hcs c hc
    cases hcs
    exact (List.mem_append.1 hc).elim (isDigit_zeros _ c) (h c)

/-- A finite number is printed as a numeral. -/
theorem exists_numeral {n : Float} (hnan : n.isNaN = false) (hinf : n.isInf = false) :
    ∃ x : Numeral, (plain n).toList = x.chars := by
  have hzero : ∀ negative, ∃ x : Numeral, x.negative = negative ∧ ['0'] = x.whole ++ x.tail '.' :=
    fun negative => ⟨⟨negative, ['0'], none, by simp, by simp, by simp⟩, rfl, rfl⟩
  unfold plain
  dsimp only
  split
  · refine ⟨⟨decide (n < 0), (toString n.abs.toUInt64.toNat).toList, none, toString_ne_nil _,
      isDigit_toString _, by simp⟩, ?_⟩
    by_cases hn : n < 0 <;> simp [Numeral.chars, Numeral.sign, Numeral.tail, hn]
  · generalize hbinary : Decimal.Binary.ofBits n.toBits = b
    have hmagnitude : ∃ x : Numeral, x.negative = b.negative ∧
        (Decimal.Layout.plain.magnitudeText b).toList = x.whole ++ x.tail '.' := by
      unfold Decimal.Layout.magnitudeText
      by_cases hsignificand : b.significand = 0
      · simpa [hsignificand, Decimal.Layout.plain] using hzero b.negative
      · simpa [hsignificand, Decimal.Layout.plain] using
          exists_positional (toString_ne_nil _) (isDigit_toString _) _ b.negative
    obtain ⟨x, hx, hchars⟩ := hmagnitude
    refine ⟨x, ?_⟩
    simp only [Decimal.Layout.text, hnan, hinf, hbinary, Numeral.chars, Numeral.sign, hx, ← hchars]
    cases b.negative <;> simp

theorem isFinite_eq (n : Float) : n.isFinite = (!n.isNaN && !n.isInf) := by
  show n.toModel.unpack.isFinite = (!n.toModel.unpack.isNaN && !n.toModel.unpack.isInf)
  cases n.toModel.unpack <;> rfl

/-- A number is printed as a word, the same in every format, or as a numeral that is grouped. -/
theorem text_cases (n : Float) :
    (n.isFinite = false ∧ ∃ word ∈ ["NaN", "Infinity", "-Infinity"],
      ∀ format : NumberFormat, format.text n = word) ∨
    ∃ x : Numeral, normal.text n = .ofList x.chars ∧ groupCommas.text n = .ofList (x.grouped ',' '.') ∧
      groupDots.text n = .ofList (x.grouped '.' ',') := by
  rw [isFinite_eq]
  by_cases hnan : n.isNaN = true
  · refine .inl ⟨?_, "NaN", by simp, fun format => if_pos hnan⟩
    rw [hnan, Bool.not_true, Bool.false_and]
  by_cases hinf : n.isInf = true
  · refine .inl ⟨?_, if n < 0 then "-Infinity" else "Infinity", ?_, fun format => ?_⟩
    · rw [hinf, Bool.not_true, Bool.and_false]
    · split <;> simp
    · exact (if_neg hnan).trans (if_pos hinf)
  obtain ⟨x, hx⟩ := exists_numeral (Bool.eq_false_iff.2 hnan) (Bool.eq_false_iff.2 hinf)
  refine .inr ⟨x, ?_, ?_, ?_⟩ <;> rw [text, if_neg hnan, if_neg hinf]
  · rw [← hx, String.ofList_toList]
  · rw [hx, x.group_chars]
  · rw [hx, x.group_chars]

/-- Without its commas, a number with commas is the plain one. The commas cut the digits in front of the
point into groups of three, of which only the first can have fewer. With dots, commas and points change
places. -/
theorem text_grouped (n : Float) :
    String.ofList ((groupCommas.text n).toList.filter (· ≠ ',')) = normal.text n ∧
      (n.isFinite = true → Grouped ((wholePart (groupCommas.text n).toList).splitOn ',')) ∧
      groupDots.text n = (groupCommas.text n).map exchange := by
  obtain ⟨hfinite, word, hword, htext⟩ | ⟨x, hnormal, hcommas, hdots⟩ := text_cases n
  · rw [htext, htext, htext, hfinite]
    simp only [List.mem_cons, List.not_mem_nil, or_false] at hword
    obtain rfl | rfl | rfl := hword <;> exact ⟨by decide +kernel, by simp, by decide +kernel⟩
  · have hmap : (String.ofList (x.grouped ',' '.')).map exchange = .ofList (x.grouped '.' ',') := by
      rw [← String.toList_inj, String.toList_map, String.toList_ofList, x.map_exchange_grouped,
        String.toList_ofList]
    rw [hnormal, hcommas, hdots, hmap, String.toList_ofList, x.filter_grouped, x.wholePart_grouped]
    exact ⟨rfl, fun _ => grouped_splitOn x.whole_ne_nil x.isDigit_whole rfl, rfl⟩

theorem text_grouped_negative :
    groupCommas.text (-1234567.25) = "-1,234,567.25" ∧ (-1234567.25 : Float).isFinite = true ∧
      Grouped ((wholePart (groupCommas.text (-1234567.25)).toList).splitOn ',') := by
  have hfinite : (-1234567.25 : Float).isFinite = true := by decide +kernel
  exact ⟨by decide +kernel, hfinite, (text_grouped (-1234567.25)).2.1 hfinite⟩

end Wordloom.NumberFormat
