import Rulebook.Proofs.JsonStrings
import Rulebook.Proofs.Numerals

namespace Rulebook.Source.JsonText

open Decimal (IsDigits)

variable {cs ds y z : List Char}

def pointed : List Char → List Char
  | [] => []
  | ds => '.' :: ds

def Exponent.text (e : Exponent) : List Char :=
  'e' :: (if e.negative then '-' else '+') :: e.digits

def exponentText : Option Exponent → List Char
  | none => []
  | some e => e.text

def Numeral.magnitude (n : Numeral) : List Char :=
  n.whole ++ (pointed n.fraction ++ exponentText n.exponent)

def Numeral.text (n : Numeral) : List Char := (if n.negative then ['-'] else []) ++ n.magnitude

structure Numeral.Proper (n : Numeral) : Prop where
  whole : IsDigits n.whole
  nonempty : n.whole ≠ []
  noZero : n.whole = ['0'] ∨ n.whole.head? ≠ some '0'
  fraction : IsDigits n.fraction
  exponent : ∀ e ∈ n.exponent, e.digits ≠ [] ∧ IsDigits e.digits

def EndsNumeral (z : List Char) : Prop :=
  ∀ c ∈ z.head?, c.isDigit = false ∧ c ≠ '.' ∧ c ≠ 'e' ∧ c ≠ 'E'

theorem endsNumeral_nil : EndsNumeral [] := by simp [EndsNumeral]

theorem endsNumeral_cons {c : Char} (h : c.isDigit = false ∧ c ≠ '.' ∧ c ≠ 'e' ∧ c ≠ 'E') :
    EndsNumeral (c :: z) := by
  intro d hd
  cases hd
  exact h

theorem digitsOf_append (hd : IsDigits ds) (hz : ∀ c ∈ z.head?, c.isDigit = false) :
    digitsOf (ds ++ z) = (ds, z) := by
  have htake : z.takeWhile Char.isDigit = [] := by
    cases z with
    | nil => rfl
    | cons c z => rw [List.takeWhile_cons, hz c rfl, if_neg Bool.false_ne_true]
  have hdrop : z.dropWhile Char.isDigit = z := by
    cases z with
    | nil => rfl
    | cons c z => rw [List.dropWhile_cons, hz c rfl, if_neg Bool.false_ne_true]
  rw [digitsOf, List.takeWhile_append_of_pos hd, List.dropWhile_append_of_pos hd, htake, hdrop,
    List.append_nil]

theorem exponent?_text {e : Option Exponent} (he : ∀ x ∈ e, x.digits ≠ [] ∧ IsDigits x.digits)
    (hz : EndsNumeral z) : exponent? (exponentText e ++ z) = some (e, z) := by
  cases e with
  | none =>
    cases z with
    | nil => rfl
    | cons c z =>
      obtain ⟨-, -, he, hE⟩ := hz c rfl
      simp [exponentText, exponent?, he, hE]
  | some x =>
    obtain ⟨hne, hd⟩ := he x rfl
    obtain ⟨negative, digits⟩ := x
    have hread := digitsOf_append hd fun c hc => (hz c hc).1
    cases negative <;> simp [exponentText, Exponent.text, exponent?, hread, hne]

theorem fraction?_text (hd : IsDigits ds)
    (hy : ∀ c ∈ y.head?, c.isDigit = false ∧ c ≠ '.') :
    fraction? (pointed ds ++ y) = some (ds, y) := by
  cases ds with
  | nil =>
    cases y with
    | nil => rfl
    | cons c y =>
      rw [pointed, List.nil_append, fraction?]
      exact fun r h => (hy c rfl).2 (List.cons.inj h).1
  | cons d ds =>
    have hread := digitsOf_append hd fun c hc => (hy c hc).1
    rw [pointed, List.cons_append, fraction?, hread]
    · rfl
    · exact List.cons_ne_nil d ds

theorem numeral?_text {n : Numeral} (hn : n.Proper) (hz : EndsNumeral z) :
    numeral? (n.text ++ z) = some (n, z) := by
  obtain ⟨negative, whole, fraction, exponent⟩ := n
  have hexponent (c : Char) (hc : c ∈ (exponentText exponent ++ z).head?) :
      c.isDigit = false ∧ c ≠ '.' := by
    cases exponent with
    | none => exact ⟨(hz c hc).1, (hz c hc).2.1⟩
    | some e =>
      cases hc
      decide
  have hfraction (c : Char) (hc : c ∈ (pointed fraction ++ (exponentText exponent ++ z)).head?) :
      c.isDigit = false := by
    cases fraction with
    | nil => exact (hexponent c hc).1
    | cons d ds =>
      cases hc
      rfl
  have hread : fraction? (pointed fraction ++ (exponentText exponent ++ z)) =
      some (fraction, exponentText exponent ++ z) := fraction?_text hn.fraction hexponent
  have hend : exponent? (exponentText exponent ++ z) = some (exponent, z) :=
    exponent?_text hn.exponent hz
  obtain ⟨d, ds, rfl⟩ := List.exists_cons_of_ne_nil hn.nonempty
  have hwhole : digitsOf (d :: (ds ++ (pointed fraction ++ (exponentText exponent ++ z)))) =
      (d :: ds, pointed fraction ++ (exponentText exponent ++ z)) :=
    digitsOf_append hn.whole hfraction
  have hsign : d ≠ '-' := by
    rintro rfl
    exact absurd (hn.whole '-' (.head _)) (by decide)
  by_cases hd : d = '0'
  · obtain rfl := hd
    obtain rfl : ds = [] := by simpa using hn.noZero
    rw [List.nil_append] at hwhole
    cases negative <;> simp [Numeral.text, Numeral.magnitude, numeral?, hwhole, hread, hend]
  · cases negative <;> simp [Numeral.text, Numeral.magnitude, numeral?, hwhole, hread, hend,
      hsign, hd]

variable (negative : Bool)

theorem pointed_of_ne_nil (h : ds ≠ []) : pointed ds = '.' :: ds := by
  cases ds with
  | nil => exact absurd rfl h
  | cons => rfl

theorem exists_positional (hne : ds ≠ []) (hd : IsDigits ds) {leading : Int}
    (hz : ds = ['0'] ∧ leading = 0 ∨ ds.head? ≠ some '0') (mark : Bool) :
    ∃ n : Numeral, n.Proper ∧ n.negative = negative ∧
      (Decimal.positional (String.ofList ds) leading mark).toList = n.magnitude := by
  have hone := Decimal.isDigits_zeros 1
  have key {whole fraction : List Char} (hw : IsDigits whole) (hne : whole ≠ [])
      (hz : whole = ['0'] ∨ whole.head? ≠ some '0') (hf : IsDigits fraction) :
      ∃ n : Numeral, n.Proper ∧ n.negative = negative ∧ whole ++ pointed fraction = n.magnitude :=
    ⟨⟨negative, whole, fraction, none⟩, ⟨hw, hne, hz, hf, by simp⟩, rfl,
      by simp [Numeral.magnitude, exponentText]⟩
  unfold Decimal.positional
  dsimp only
  split
  · have hzeros := (Decimal.isDigits_zeros (-leading - 1).toNat).append hd
    have hne' : List.replicate (-leading - 1).toNat '0' ++ ds ≠ [] := by simp [hne]
    have h := key hone (by simp) (.inl rfl) hzeros
    rw [pointed_of_ne_nil hne'] at h
    simpa using h
  split
  · have hzeros := hd.append (Decimal.isDigits_zeros (leading.toNat + 1 - ds.length))
    have hne' : ds ++ List.replicate (leading.toNat + 1 - ds.length) '0' ≠ [] := by simp [hne]
    have hz' : ds ++ List.replicate (leading.toNat + 1 - ds.length) '0' = ['0'] ∨
        (ds ++ List.replicate (leading.toNat + 1 - ds.length) '0').head? ≠ some '0' := by
      rcases hz with ⟨rfl, rfl⟩ | hz
      · exact .inl rfl
      · rw [List.head?_append_of_ne_nil _ hne]
        exact .inr hz
    cases mark with
    | false => simpa [pointed] using key hzeros hne' hz' (Decimal.isDigits_zeros 0)
    | true => simpa [pointed] using key hzeros hne' hz' hone
  · next hlong =>
    have hlong : leading.toNat + 1 < ds.length := by simpa using hlong
    have hz' : ds.take (leading.toNat + 1) = ['0'] ∨
        (ds.take (leading.toNat + 1)).head? ≠ some '0' := by
      rw [List.head?_take, if_neg (Nat.succ_ne_zero _)]
      rcases hz with ⟨rfl, rfl⟩ | hz
      · exact .inl rfl
      · exact .inr hz
    have hne' : ds.drop (leading.toNat + 1) ≠ [] := by simpa using hlong
    simpa [pointed_of_ne_nil hne'] using
      key (hd.take (leading.toNat + 1)) (by simpa using hne) hz' (hd.drop (leading.toNat + 1))

theorem exists_scientific (hne : ds ≠ []) (hd : IsDigits ds) (leading : Int) {width : Nat} :
    ∃ n : Numeral, n.Proper ∧ n.negative = negative ∧
      (Decimal.scientific (String.ofList ds) leading width).toList = n.magnitude := by
  have hz : ds.take 1 = ['0'] ∨ (ds.take 1).head? ≠ some '0' := by
    obtain ⟨d, ds, rfl⟩ := List.exists_cons_of_ne_nil hne
    by_cases h : d = '0'
    · exact .inl (by simp [h])
    · exact .inr (by simp [h])
  let exponent : Exponent := ⟨leading < 0,
    List.replicate (width - (toString leading.natAbs).length) '0' ++ Nat.toDigits 10 leading.natAbs⟩
  have hexponent : exponent.digits ≠ [] ∧ IsDigits exponent.digits :=
    ⟨by simp [exponent, Nat.toDigits_ne_nil],
      (Decimal.isDigits_zeros _).append (Decimal.isDigits_toDigits _)⟩
  have htail : IsDigits ds.tail := List.drop_one ▸ hd.drop 1
  refine ⟨⟨negative, ds.take 1, ds.tail, some exponent⟩,
    ⟨hd.take 1, by simpa using hne, hz, htail, by simpa using hexponent⟩, rfl, ?_⟩
  have htext : (Decimal.exponentText width leading).toList = exponent.text := by
    unfold Decimal.exponentText Decimal.padLeft Exponent.text
    by_cases h : leading < 0 <;> simp [exponent, h]
  have hrest : ((String.ofList ds).drop 1).toString.toList = ds.tail := by simp
  unfold Decimal.scientific
  dsimp only
  split
  · next h =>
    rw [String.isEmpty_iff, ← String.toList_eq_nil_iff, hrest] at h
    simp [Numeral.magnitude, exponentText, htext, h, pointed]
  · next h =>
    rw [String.isEmpty_iff, ← String.toList_eq_nil_iff, hrest] at h
    simp [Numeral.magnitude, exponentText, htext, pointed_of_ne_nil h]

theorem head?_toDigits {n : Nat} (h : n ≠ 0) : (Nat.toDigits 10 n).head? ≠ some '0' := by
  have hdigit : ∀ d < 10, d ≠ 0 → [Nat.digitChar d].head? ≠ some '0' := by decide
  induction n using Nat.strong_induction_on with
  | h n ih =>
    by_cases hn : n < 10
    · rw [Nat.toDigits_of_lt_base hn]
      exact hdigit n hn h
    · rw [Nat.toDigits_of_base_le (by decide) (Nat.not_lt.1 hn),
        List.head?_append_of_ne_nil _ Nat.toDigits_ne_nil]
      exact ih (n / 10) (by omega) (by omega)

/-- The text of a decimal number is a numeral. -/
theorem exists_write (form : Decimal.Notation) (negative : Bool) (d : Decimal.Digits) :
    ∃ n : Numeral, n.Proper ∧ (form.write negative d).toList = n.text := by
  have hd := Decimal.isDigits_toDigits d.digits
  have hne : Nat.toDigits 10 d.digits ≠ [] := Nat.toDigits_ne_nil
  have hs : toString d.digits = String.ofList (Nat.toDigits 10 d.digits) := rfl
  have hz : Nat.toDigits 10 d.digits = ['0'] ∧ (if d.digits = 0 then 0 else d.leading) = 0 ∨
      (Nat.toDigits 10 d.digits).head? ≠ some '0' := by
    by_cases h : d.digits = 0
    · exact .inl ⟨by rw [h]; rfl, if_pos h⟩
    · exact .inr (head?_toDigits h)
  have hsign : (if negative then "-" else "").toList = if negative then ['-'] else [] := by
    cases negative <;> rfl
  unfold Decimal.Notation.write
  dsimp only
  generalize (if d.digits = 0 then 0 else d.leading) = leading at hz
  rw [hs, String.toList_append, hsign]
  by_cases hform : (form.lowest ≤ leading && leading ≤ form.highest) = true
  · rw [if_pos hform]
    obtain ⟨n, hn, rfl, hm⟩ := exists_positional negative hne hd hz form.wholeMark
    exact ⟨n, hn, by rw [hm, Numeral.text]⟩
  · rw [if_neg hform]
    obtain ⟨n, hn, rfl, hm⟩ := exists_scientific negative hne hd leading
    exact ⟨n, hn, by rw [hm, Numeral.text]⟩

theorem text_head {n : Numeral} (hn : n.Proper) :
    ∃ c t, n.text = c :: t ∧ (c = '-' ∨ c.isDigit = true) := by
  obtain ⟨negative, whole, fraction, exponent⟩ := n
  cases negative with
  | true => exact ⟨'-', _, rfl, .inl rfl⟩
  | false =>
    obtain ⟨d, ds, rfl⟩ := List.exists_cons_of_ne_nil hn.nonempty
    exact ⟨d, _, rfl, .inr (hn.whole d (.head _))⟩

theorem toNat_lt_of_isDigit {c : Char} (h : c.isDigit = true) : c.toNat < 128 := by
  simp only [Char.isDigit, Bool.and_eq_true, decide_eq_true_eq, ge_iff_le, UInt32.le_iff_toNat_le]
    at h
  exact Nat.lt_of_le_of_lt h.2 (by decide)

theorem toNat_lt_of_mem_text {n : Numeral} (hn : n.Proper) {c : Char} (hc : c ∈ n.text) :
    c.toNat < 128 := by
  obtain ⟨negative, whole, fraction, exponent⟩ := n
  simp only [Numeral.text, Numeral.magnitude, List.mem_append] at hc
  rcases hc with hc | hc | hc | hc
  · cases negative
    · cases hc
    · obtain rfl := List.mem_singleton.1 hc
      decide
  · exact toNat_lt_of_isDigit (hn.whole c hc)
  · by_cases hne : fraction = []
    · rw [hne] at hc
      cases hc
    · rw [pointed_of_ne_nil hne] at hc
      rcases List.mem_cons.1 hc with rfl | hc
      · decide
      · exact toNat_lt_of_isDigit (hn.fraction c hc)
  · cases exponent with
    | none => cases hc
    | some e =>
      rcases List.mem_cons.1 hc with rfl | hc
      · decide
      · rcases List.mem_cons.1 hc with rfl | hc
        · cases e.negative <;> decide
        · exact toNat_lt_of_isDigit ((hn.exponent e rfl).2 c hc)

def Numeral.ofInt (n : Int) : Numeral := ⟨n < 0, Nat.toDigits 10 n.natAbs, [], none⟩

theorem ofInt_proper (n : Int) : (Numeral.ofInt n).Proper where
  whole := Decimal.isDigits_toDigits _
  nonempty := Nat.toDigits_ne_nil
  noZero := by
    by_cases h : n.natAbs = 0
    · exact .inl (by rw [Numeral.ofInt, h]; rfl)
    · exact .inr (head?_toDigits h)
  fraction := Decimal.isDigits_zeros 0
  exponent := by simp [Numeral.ofInt]

theorem ofInt_text (n : Int) : (Numeral.ofInt n).text = Json.intText n := by
  have htext : (Numeral.ofInt n).text =
      (if n < 0 then ['-'] else []) ++ Nat.toDigits 10 n.natAbs := by
    simp [Numeral.ofInt, Numeral.text, Numeral.magnitude, pointed, exponentText]
  rw [htext]
  cases n with
  | ofNat n =>
    rw [if_neg (by simp)]
    exact String.toList_ofList.symm
  | negSucc n =>
    rw [if_pos (Int.negSucc_lt_zero n)]
    symm
    exact String.toList_append.trans (congrArg _ String.toList_ofList)

theorem exists_numeral {v : Json} (h : v.IsNumber) :
    ∃ n : Numeral, n.Proper ∧ v.compact = n.text := by
  cases v with
  | int n => exact ⟨.ofInt n, ofInt_proper n, by rw [ofInt_text, Json.compact]⟩
  | float x =>
    obtain ⟨hn, hi⟩ := Json.isNaN_of_isFinite h
    rw [Json.compact, Json.floatText, hn, hi, if_neg (by decide)]
    exact exists_write _ _ _
  | null | bool | str | arr | obj => exact h.elim

/-- Digits that stay below the bound are all significant. -/
theorem significand_eq {n : Nat} (h : Nat.ofDigitChars 10 ds n < Text.nat64Bound) :
    significand n ds = (Nat.ofDigitChars 10 ds n, 0) := by
  have hgrows (ds : List Char) (n : Nat) : n ≤ Nat.ofDigitChars 10 ds n := by
    induction ds generalizing n with
    | nil => exact Nat.le_refl n
    | cons d ds ih => exact Nat.le_trans (by omega) (ih (10 * n + (d.toNat - '0'.toNat)))
  induction ds generalizing n with
  | nil => rfl
  | cons d ds ih =>
    have hfirst : 10 * n + (d.toNat - '0'.toNat) < Text.nat64Bound :=
      Nat.lt_of_le_of_lt (hgrows ds _) h
    rw [significand, if_pos hfirst]
    exact ih h

theorem ofInt_value {n : Int} (hlow : Json.int64Min ≤ n) (hhigh : n ≤ Json.nat64Max) :
    (Numeral.ofInt n).value? = some (.int n) := by
  have hvalue : Nat.ofDigitChars 10 (Nat.toDigits 10 n.natAbs) 0 = n.natAbs :=
    Nat.ofDigitChars_toDigits (by decide) (by decide)
  simp only [Json.int64Min, Json.nat64Max] at hlow hhigh
  have hbound : n.natAbs < Text.nat64Bound := by
    rw [Text.nat64Bound]
    omega
  have hs : significand 0 (Nat.toDigits 10 n.natAbs) = (n.natAbs, 0) := by
    rw [significand_eq (by rwa [hvalue]), hvalue]
  simp only [Numeral.value?, Numeral.ofInt, hs]
  by_cases hn : n < 0
  · have hne : n.natAbs ≠ 0 := by omega
    have hsmall : ¬ Text.int64Bound < n.natAbs := by
      rw [Text.int64Bound]
      omega
    simp [hn, hne, hsmall, abs_of_neg hn]
  · have habs : (n.natAbs : Int) = n := by omega
    simp [hn, habs]

def Numeral.node (n : Numeral) : Node :=
  match n.value? with
  | some v => .ofValue v
  | none => .unreadable

theorem literal?_text {n : Numeral} (hn : n.Proper) (hz : EndsNumeral z) :
    literal? (n.text ++ z) = some (n.node, z) := by
  have hread := numeral?_text hn hz
  obtain ⟨c, t, htext, hc⟩ := text_head hn
  rw [htext, List.cons_append] at hread ⊢
  have hword (d : Char) (hd : d = 'n' ∨ d = 't' ∨ d = 'f') : c ≠ d := by
    rintro rfl
    rcases hd with rfl | rfl | rfl <;> revert hc <;> decide
  rw [literal?, hread]
  · simp only [Option.bind_eq_bind, Option.bind_some, Numeral.node]
    cases n.value? <;> rfl
  · exact fun _ h => hword 'n' (.inl rfl) (List.cons.inj h).1
  · exact fun _ h => hword 't' (.inr (.inl rfl)) (List.cons.inj h).1
  · exact fun _ h => hword 'f' (.inr (.inr rfl)) (List.cons.inj h).1

end Rulebook.Source.JsonText

namespace Rulebook.Json

open Source JsonText

def isLiteral : Json → Bool
  | null | bool _ | int _ | float _ => true
  | _ => false

def literalNode (v : Json) : Node := ((literal? v.compact).map Prod.fst).getD .unreadable

theorem compact_literal {v : Json} (h : v.isLiteral = true) :
    v.compact = ['n', 'u', 'l', 'l'] ∨ v.compact = ['t', 'r', 'u', 'e'] ∨
      v.compact = ['f', 'a', 'l', 's', 'e'] ∨ ∃ n : Numeral, n.Proper ∧ v.compact = n.text := by
  cases v with
  | null => exact .inl rfl
  | bool b =>
    cases b
    · exact .inr (.inr (.inl rfl))
    · exact .inr (.inl rfl)
  | int n => exact .inr (.inr (.inr (exists_numeral trivial)))
  | float x =>
    by_cases hx : x.isFinite = true
    · exact .inr (.inr (.inr (exists_numeral hx)))
    · exact .inl (compact_of_not_isFinite hx)
  | str | arr | obj => cases h

variable {v : Json}

theorem literal?_compact (h : v.isLiteral = true) {z : List Char} (hz : EndsNumeral z) :
    literal? (v.compact ++ z) = some (v.literalNode, z) := by
  rw [literalNode]
  rcases compact_literal h with hc | hc | hc | ⟨n, hn, hc⟩
  · rw [hc]
    rfl
  · rw [hc]
    rfl
  · rw [hc]
    rfl
  · have hwhole := literal?_text hn endsNumeral_nil
    rw [List.append_nil] at hwhole
    rw [hc, literal?_text hn hz, hwhole]
    rfl

theorem literalNode_cases (h : v.isLiteral = true) :
    (∃ w, v.literalNode = .ofValue w) ∨ v.literalNode = .unreadable := by
  rw [literalNode]
  rcases compact_literal h with hc | hc | hc | ⟨n, hn, hc⟩
  · exact .inl ⟨.null, by rw [hc]; rfl⟩
  · exact .inl ⟨.bool true, by rw [hc]; rfl⟩
  · exact .inl ⟨.bool false, by rw [hc]; rfl⟩
  · have hread := literal?_text hn endsNumeral_nil
    rw [List.append_nil] at hread
    rw [hc, hread]
    cases hv : n.value? with
    | some w => exact .inl ⟨w, by simp [Numeral.node, hv]⟩
    | none => exact .inr (by simp [Numeral.node, hv])

theorem literal_ascii (h : v.isLiteral = true) : ∀ c ∈ v.compact, c.toNat < 128 := by
  rcases compact_literal h with hc | hc | hc | ⟨n, hn, hc⟩
  · simp [hc]
  · simp [hc]
  · simp [hc]
  · rw [hc]
    exact fun c => toNat_lt_of_mem_text hn

theorem literal_head (h : v.isLiteral = true) : ∃ c t, v.compact = c :: t ∧
    c ∉ [' ', '\n', '\t', '\r', '[', '\x7b', '"'] := by
  rcases compact_literal h with hc | hc | hc | ⟨n, hn, hc⟩
  · exact ⟨_, _, hc, by decide⟩
  · exact ⟨_, _, hc, by decide⟩
  · exact ⟨_, _, hc, by decide⟩
  · obtain ⟨c, t, htext, hdigit⟩ := text_head hn
    refine ⟨c, t, hc.trans htext, fun hm => ?_⟩
    simp only [List.mem_cons, List.not_mem_nil, or_false] at hm
    rcases hm with rfl | rfl | rfl | rfl | rfl | rfl | rfl <;> revert hdigit <;> decide

theorem literalNode_int {n : Int} (hlow : int64Min ≤ n) (hhigh : n ≤ nat64Max) :
    (int n).literalNode = .ofValue (.int n) := by
  have hread := literal?_text (ofInt_proper n) endsNumeral_nil
  rw [List.append_nil, ofInt_text, Numeral.node, ofInt_value hlow hhigh] at hread
  rw [literalNode, compact, hread]
  rfl

end Rulebook.Json
