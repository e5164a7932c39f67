import Rulebook.Proofs.PathChanges

namespace Rulebook.Json

def InRange (n : Int) : Prop := int64Min ≤ n ∧ n ≤ nat64Max

instance (n : Int) : Decidable (InRange n) := inferInstanceAs (Decidable (_ ∧ _))

end Rulebook.Json

namespace Rulebook.State

open Json (InRange)

variable {m n : Int} {w value root s : Json} {leaf : String} {p parents : List String}

theorem add_of_sum (h : get? (parents ++ [leaf]) root = some w) (hs : sum w value = .ok s) :
    apply .add value (parents ++ [leaf]) root =
      .ok (replace (parents ++ [leaf]) s root, ⟨w, s⟩) :=
  apply_of_put h (by simp only [Operation.onSlot, hs])

theorem sum_int (m n : Int) : sum (.int m) (.int n) =
    if isInt64 m = true ∧ isInt64 n = true then
      if isInt64 (m + n) then .ok (.int (m + n)) else .error .overflow
    else .ok (.float (Float.ofInt m + Float.ofInt n)) := by
  simp only [sum, Json.toFloat?, Bool.and_eq_true]

/-- The exact sum of two integers is in place of the first of them. -/
def StoresSum (m n : Int) (p : List String) (root : Json) : Prop :=
  ∃ root', apply .add (.int n) p root = .ok (root', ⟨.int m, .int (m + n)⟩) ∧
    root' = replace p (.int (m + n)) root ∧ get? p root' = some (.int (m + n))

/-- The addition fails and leaves the root as it was, and so does a batch that holds the root. -/
def Overflows (n : Int) (p : List String) (root : Json) : Prop :=
  edit .add (.int n) p root = (root, .error .overflow) ∧
    ∀ (b : Batch) (name : String), b.view? name = some root → ∀ i es,
      b.stage i (⟨⟨name, p⟩, .add, .int n⟩ :: es) =
        (b, .error (.rejected i .add (Path.text ⟨name, p⟩) .overflow))

theorem add_exact (h : get? (parents ++ [leaf]) root = some (.int m)) (hm : isInt64 m = true)
    (hn : isInt64 n = true) :
    if isInt64 (m + n) then StoresSum m n (parents ++ [leaf]) root
    else Overflows n (parents ++ [leaf]) root := by
  have hsum := sum_int m n
  rw [if_pos ⟨hm, hn⟩] at hsum
  split
  · next hs =>
    rw [if_pos hs] at hsum
    exact ⟨_, add_of_sum h hsum, rfl, get?_replace h _⟩
  · next hs =>
    rw [if_neg hs] at hsum
    have hfails : apply .add (.int n) (parents ++ [leaf]) root = .error .overflow :=
      apply_of_fault h (by simp only [Operation.onSlot, hsum])
    exact ⟨edit_of_error hfails, fun b name hb i es => stage_of_error hfails hb i es⟩

/-- Beyond the signed integers the floating-point sum is stored, whatever its exact value. -/
theorem add_beyond (h : get? (parents ++ [leaf]) root = some (.int m))
    (hbeyond : ¬(isInt64 m = true ∧ isInt64 n = true)) :
    apply .add (.int n) (parents ++ [leaf]) root =
      .ok (replace (parents ++ [leaf]) (.float (Float.ofInt m + Float.ofInt n)) root,
        ⟨.int m, .float (Float.ofInt m + Float.ofInt n)⟩) :=
  add_of_sum h (by rw [sum_int, if_neg hbeyond])

theorem isInt64_iff (h : InRange n) : isInt64 n = true ↔ n ≤ Json.int64Max := by
  have := h.1
  simp [isInt64, this]

/-- An addition of two integers keeps to the integers exactly if both are signed 64-bit integers:
then it stores their sum if that is one, too, and overflows otherwise. In all other cases it stores
a floating-point number. -/
theorem integer_sum_exact_iff (h : get? (parents ++ [leaf]) root = some (.int m)) (hm : InRange m)
    (hn : InRange n) :
    (StoresSum m n (parents ++ [leaf]) root ∨ Overflows n (parents ++ [leaf]) root ↔
      m ≤ Json.int64Max ∧ n ≤ Json.int64Max) ∧
    (m ≤ Json.int64Max → n ≤ Json.int64Max →
      if Json.int64Min ≤ m + n ∧ m + n ≤ Json.int64Max then
        StoresSum m n (parents ++ [leaf]) root
      else Overflows n (parents ++ [leaf]) root) ∧
    (Json.int64Max < m ∨ Json.int64Max < n →
      ∃ root', apply .add (.int n) (parents ++ [leaf]) root =
          .ok (root', ⟨.int m, .float (Float.ofInt m + Float.ofInt n)⟩) ∧
        get? (parents ++ [leaf]) root' = some (.float (Float.ofInt m + Float.ofInt n))) := by
  have hexact (hm' : m ≤ Json.int64Max) (hn' : n ≤ Json.int64Max) :=
    add_exact h ((isInt64_iff hm).2 hm') ((isInt64_iff hn).2 hn')
  refine ⟨⟨fun hkeeps => ?_, fun ⟨hm', hn'⟩ => ?_⟩, fun hm' hn' => ?_, fun hbeyond => ?_⟩
  · by_contra hbeyond
    rw [← isInt64_iff hm, ← isInt64_iff hn] at hbeyond
    have hfloat := add_beyond h hbeyond
    rcases hkeeps with ⟨_, hsum, -⟩ | ⟨hfails, -⟩
    · cases hfloat.symm.trans hsum
    · cases hfloat.symm.trans (apply_eq_error.2 (congrArg Prod.snd hfails))
  · have := hexact hm' hn'
    split at this
    · exact .inl this
    · exact .inr this
  · simpa [isInt64] using hexact hm' hn'
  · have hnot : ¬(isInt64 m = true ∧ isInt64 n = true) := by
      rw [isInt64_iff hm, isInt64_iff hn]
      omega
    exact ⟨_, add_beyond h hnot, get?_replace h _⟩

def purse (gold : Int) : Json := .obj [("gold", .int gold)]

theorem integer_sum_exact_purse :
    get? ["gold"] (purse 10) = some (.int 10) ∧ InRange 10 ∧ InRange (-3) ∧
      StoresSum 10 (-3) ["gold"] (purse 10) ∧
      Overflows 1 ["gold"] (purse Json.int64Max) := by
  have hrange : InRange 10 ∧ InRange (-3) ∧ InRange 1 ∧ InRange Json.int64Max := by decide
  have hread (gold : Int) : get? ([] ++ ["gold"]) (purse gold) = some (.int gold) := rfl
  obtain ⟨h10, h3, h1, hmax⟩ := hrange
  refine ⟨rfl, h10, h3, ?_, ?_⟩
  · have := (integer_sum_exact_iff (hread 10) h10 h3).2.1 (by decide) (by decide)
    rwa [if_pos (by decide)] at this
  · have := (integer_sum_exact_iff (hread Json.int64Max) hmax h1).2.1 (by decide) (by decide)
    rwa [if_neg (by decide)] at this

/-- One more than the greatest integer of JSON is neither stored nor refused: what is stored is a
floating-point number. -/
theorem greatest_integer_sum_rounded :
    InRange Json.nat64Max ∧ InRange 1 ∧
      get? ["gold"] (purse Json.nat64Max) = some (.int Json.nat64Max) ∧
      apply .add (.int 1) ["gold"] (purse Json.nat64Max) =
        .ok (.obj [("gold", .float 18446744073709551616)],
          ⟨.int Json.nat64Max, .float 18446744073709551616⟩) ∧
      ¬StoresSum Json.nat64Max 1 ["gold"] (purse Json.nat64Max) ∧
      ¬Overflows 1 ["gold"] (purse Json.nat64Max) := by
  have hfloat : Float.ofInt Json.nat64Max + Float.ofInt 1 = 18446744073709551616 := by
    decide +kernel
  have hread : get? ([] ++ ["gold"]) (purse Json.nat64Max) = some (.int Json.nat64Max) := rfl
  have hbeyond : ¬(isInt64 Json.nat64Max = true ∧ isInt64 1 = true) := by decide
  have hadd := add_beyond hread hbeyond
  rw [hfloat] at hadd
  refine ⟨by decide, by decide, rfl, hadd, ?_, ?_⟩
  · rintro ⟨_, hsum, -⟩
    cases hadd.symm.trans hsum
  · rintro ⟨hfails, -⟩
    cases hadd.symm.trans (apply_eq_error.2 (congrArg Prod.snd hfails))

end Rulebook.State
