import Mathlib
import Rulebook.Script.Pattern

namespace Rulebook.Script.Pattern

open PatternCost (Bytes byte isQuantifier countItems quantifiers dropItem afterSet setEnd)

def Item.branches : Item → Bool
  | .single _ times => times ≠ .once
  | _ => false

def Item.repeats : Item → Bool
  | .single _ times => times ≠ .once && times ≠ .optional
  | _ => false

/-- The item takes no sign of repetition, and the estimate knows that. -/
def Item.isFixed : Item → Bool
  | .single .. | .again _ => false
  | _ => true

def Single.quantifies : Single → Bool
  | .byte b => isQuantifier b
  | _ => false

/-- The sign behind the item counts for the estimate as a sign of repetition, not as an item. -/
def Item.readAhead (ahead : Bool) : Item → Bool
  | .single s times => if ahead && s.quantifies then times ≠ .once else times = .optional
  | .again _ => true
  | _ => false

/-- The item leaves a choice, and the estimate counts none. -/
def Item.missed (ahead : Bool) : Item → Bool
  | .single s times => times = .optional && !(ahead && s.quantifies)
  | _ => false

/-- The item leaves no choice, and the estimate counts one. -/
def Item.surplus (ahead : Bool) : Item → Bool
  | .single s times => times = .once && (ahead && s.quantifies)
  | _ => false

/-- How many items there are of a sort, told where the estimate has read ahead. -/
def tally (p : Bool → Item → Bool) (ahead : Bool) : List Item → Nat
  | [] => 0
  | it :: rest => (p ahead it).toNat + tally p (it.readAhead ahead) rest

def choices (p : Bytes) : Nat := (anchored p).items.countP Item.branches

def missed (p : Bytes) : Nat := tally Item.missed false (anchored p).items

def surplus (p : Bytes) : Nat := tally Item.surplus false (anchored p).items

def Item.isSound : Item → Bool
  | .malformed _ => false
  | .again d => d ≠ byte '0'
  | _ => true

/-- Every item can be matched. Whether captures are opened and closed in pairs is told in
matching. -/
def isReadable (p : Bytes) : Bool := (anchored p).items.all Item.isSound

section Sets

variable {bs r t : Bytes} {s : Single}

theorem setEnd_eq (h : setBody false bs = some (t, r)) : setEnd bs = r := by
  have hp : byte '%' ≠ byte ']' := by decide
  fun_induction setEnd bs generalizing t with
  | case1 => cases h
  | case2 bs =>
    rw [setBody.eq_def] at h
    simp only [decide_true, Bool.not_false, Bool.and_self, if_true, Option.some.injEq,
      Prod.mk.injEq] at h
    exact h.2
  | case3 =>
    rw [setBody.eq_def] at h
    simp [hp] at h
  | case4 e bs _ ih =>
    rw [setBody.eq_def] at h
    simp only [hp, decide_false, Bool.false_and, Bool.false_eq_true, if_false, if_true] at h
    obtain ⟨⟨t', r'⟩, h', he⟩ := Option.map_eq_some_iff.1 h
    cases he
    exact ih h'
  | case5 c bs hc he ih =>
    rw [setBody.eq_def] at h
    simp only [hc, he, decide_false, Bool.false_and, Bool.false_eq_true, if_false] at h
    obtain ⟨⟨t', r'⟩, h', he⟩ := Option.map_eq_some_iff.1 h
    cases he
    exact ih h'

/-- The estimate and matching find the same end of a set. -/
theorem afterSet_eq (h : set? bs = some (s, r)) : afterSet bs = r := by
  have hp : byte '%' ≠ byte ']' := by decide
  obtain ⟨⟨t, r'⟩, h', he⟩ := Option.map_eq_some_iff.1 h
  cases he
  unfold afterSet
  generalize (if bs.head? = some (byte '^') then bs.tail else bs) = x at h' ⊢
  cases x with
  | nil => cases h'
  | cons c x =>
    by_cases hc : c = byte ']'
    · subst hc
      rw [setBody.eq_def] at h'
      simp only [decide_true, Bool.not_true, Bool.and_false, Bool.false_eq_true, if_false, hp.symm,
        List.head?_cons, if_true, List.tail_cons] at h' ⊢
      obtain ⟨⟨t', r'⟩, h'', he⟩ := Option.map_eq_some_iff.1 h'
      cases he
      exact setEnd_eq h''
    · have hfirst : setBody false (c :: x) = setBody true (c :: x) := by
        rw [setBody.eq_def, setBody.eq_def]
        simp only [hc, decide_false, Bool.false_and]
      simp only [List.head?_cons, Option.some.injEq, hc, if_false]
      exact setEnd_eq (hfirst.trans h')

theorem setEnd_suffix (bs : Bytes) : setEnd bs <:+ bs := by
  fun_induction setEnd bs with
  | case1 => exact List.suffix_rfl
  | case2 bs => exact List.suffix_cons _ _
  | case3 => exact List.nil_suffix
  | case4 e bs _ ih => exact (ih.trans (List.suffix_cons _ _)).trans (List.suffix_cons _ _)
  | case5 c bs _ _ ih => exact ih.trans (List.suffix_cons _ _)

theorem afterSet_suffix (bs : Bytes) : afterSet bs <:+ bs := by
  have hskip (b : UInt8) (bs : Bytes) : (if bs.head? = some b then bs.tail else bs) <:+ bs := by
    split
    · exact List.tail_suffix bs
    · exact List.suffix_rfl
  exact ((setEnd_suffix _).trans (hskip _ _)).trans (hskip _ _)

theorem quantifies_of_set? (h : set? bs = some (s, r)) : s.quantifies = false := by
  obtain ⟨_, _, he⟩ := Option.map_eq_some_iff.1 h
  cases he
  rfl

end Sets

section Counts

variable {ahead : Bool} {c : UInt8} {bs r : Bytes} {it : Item} {s : Single}

def countFrom (ahead : Bool) (bs : Bytes) : Nat :=
  if ahead && bs.head?.any isQuantifier then 1 + countItems bs.tail else countItems bs

theorem countFrom_quantifier (hc : isQuantifier c = true) :
    countFrom true (c :: bs) = 1 + countItems bs := by
  simp [countFrom, hc]

theorem countFrom_of_not (h : bs.head?.any isQuantifier = false) :
    countFrom ahead bs = countItems bs := by
  simp [countFrom, h]

theorem countItems_of_drop (h : dropItem c bs = (r, true)) :
    countItems (c :: bs) = countFrom true r := by
  rw [countItems, h]
  rfl

theorem countItems_of_skip (h : dropItem c bs = (r, false)) :
    countItems (c :: bs) = countItems r := by
  rw [countItems, h]
  rfl

theorem dropItem_set : dropItem (byte '[') bs = (afterSet bs, true) := rfl

theorem dropItem_suffix (c : UInt8) (bs : Bytes) : (dropItem c bs).1 <:+ bs := by
  unfold dropItem
  split
  · split
    · exact List.suffix_rfl
    · next e bs =>
      split
      · exact (List.drop_suffix _ _).trans (List.suffix_cons _ _)
      split
      · exact (afterSet_suffix _).trans ((List.tail_suffix _).trans (List.suffix_cons _ _))
      · exact List.suffix_cons _ _
  split
  · exact afterSet_suffix bs
  · exact List.suffix_rfl

theorem dropItem_question : dropItem (byte '?') bs = (bs, true) := rfl

theorem dropItem_quantifier (hc : isQuantifier c = true) : dropItem c bs = (bs, true) := by
  simp only [isQuantifier, Bool.or_eq_true, decide_eq_true_eq] at hc
  obtain (rfl | rfl) | rfl := hc <;> rfl

inductive Compares (c : UInt8) (bs : Bytes) : Item × Bytes → Prop
  | single (s : Single) {r : Bytes} (hdrop : dropItem c bs = (r, true))
      (hsign : s.quantifies = isQuantifier c) : Compares c bs (repeated s r)
  | again {d : UInt8} {r : Bytes} (hdrop : dropItem c bs = (r, true))
      (hc : isQuantifier c = false) (hlow : byte '0' ≤ d) (hhigh : d ≤ byte '9') :
      Compares c bs (.again d, r)
  | other {it : Item} {r : Bytes} (hit : it.isFixed = true) (hc : isQuantifier c = false)
      (hrest : r <:+ bs) (hcount : countItems (c :: bs) = countItems r) : Compares c bs (it, r)
  | malformed (f : Fault) : Compares c bs (.malformed f, [])

theorem compares_escape (bs : Bytes) : Compares (byte '%') bs (item (byte '%') bs) := by
  cases bs with
  | nil => exact .malformed _
  | cons e bs =>
    show Compares (byte '%') (e :: bs) (if e = byte 'b' then _ else _)
    split
    · next he =>
      subst he
      split
      · exact .other rfl rfl ⟨[_, _, _], rfl⟩ (countItems_of_skip rfl)
      · exact .malformed _
    split
    · next he =>
      subst he
      split
      · exact .malformed _
      · next o bs =>
        split
        · split
          · next s r h =>
            have hr : afterSet bs = r := afterSet_eq h
            refine .other rfl rfl ?_ (hr ▸ countItems_of_skip rfl)
            exact (hr ▸ afterSet_suffix bs).trans ⟨[_, _], rfl⟩
          · exact .malformed _
        · exact .malformed _
    · next hb hf =>
      have hdrop : dropItem (byte '%') (e :: bs) = (bs, true) := by
        rw [dropItem, if_pos rfl]
        exact (if_neg hb).trans (if_neg hf)
      split
      · next hd =>
        obtain ⟨hlow, hhigh⟩ := Bool.and_eq_true_iff.1 hd
        exact .again hdrop rfl (of_decide_eq_true hlow) (of_decide_eq_true hhigh)
      · exact .single _ hdrop rfl

theorem compares (c : UInt8) (bs : Bytes) : Compares c bs (item c bs) := by
  by_cases hescape : c = byte '%'
  · exact hescape ▸ compares_escape bs
  unfold item
  split
  · next hc =>
    subst hc
    split
    · next hb =>
      obtain ⟨r, rfl⟩ := List.head?_eq_some_iff.1 hb
      exact .other rfl rfl (List.suffix_cons _ _)
        ((countItems_of_skip rfl).trans (countItems_of_skip rfl))
    · exact .other rfl rfl List.suffix_rfl (countItems_of_skip rfl)
  split
  · next hc =>
    subst hc
    exact .other rfl rfl List.suffix_rfl (countItems_of_skip rfl)
  split
  · next hc =>
    obtain ⟨rfl, rfl⟩ : c = byte '$' ∧ bs = [] := by simpa using hc
    exact .other rfl rfl List.suffix_rfl ((countItems_of_drop rfl).trans (countFrom_of_not rfl))
  split
  · next hc =>
    subst hc
    exact .single .any rfl rfl
  split
  · next hc =>
    subst hc
    split
    · next s r h => exact .single s (by rw [dropItem_set, afterSet_eq h]) (quantifies_of_set? h)
    · exact .malformed _
  · next hopen hclose _ _ hset =>
    refine .single _ ?_ rfl
    simp [dropItem, hopen, hclose, hset, hescape]

inductive Starts : Bytes → Repeat × Bytes → Prop
  | once (bs : Bytes) (h : bs.head?.any isQuantifier = false) : Starts bs (.once, bs)
  | optional (bs : Bytes) : Starts (byte '?' :: bs) (.optional, bs)
  | counted (c : UInt8) (bs : Bytes) (times : Repeat) (hc : isQuantifier c = true)
      (hone : times ≠ .once) (hoptional : times ≠ .optional) : Starts (c :: bs) (times, bs)

theorem starts (bs : Bytes) : Starts bs (repetition bs) := by
  unfold repetition
  split
  · exact .once [] rfl
  split
  · next hc => exact .counted _ _ _ (by rw [hc]; rfl) (by decide) (by decide)
  split
  · next hc => exact .counted _ _ _ (by rw [hc]; rfl) (by decide) (by decide)
  split
  · next hc => exact .counted _ _ _ (by rw [hc]; rfl) (by decide) (by decide)
  split
  · next hc =>
    subst hc
    exact .optional _
  · next hmany hplus hfew _ => exact .once _ (by simp [isQuantifier, hmany, hplus, hfew])

theorem countFrom_cons (hdrop : dropItem c bs = (r, true)) :
    countFrom ahead (c :: bs) =
      if ahead && isQuantifier c then 1 + countItems r else countFrom true r := by
  split
  · next h =>
    obtain ⟨rfl, hc⟩ := Bool.and_eq_true_iff.1 h
    rw [countFrom_quantifier hc, ← (Prod.mk.inj ((dropItem_quantifier hc).symm.trans hdrop)).1]
  · next h => rw [countFrom, List.head?_cons, Option.any_some, if_neg h, countItems_of_drop hdrop]

theorem tally_fixed (p : Bool → Item → Bool) (hit : it.isFixed = true) (rest : List Item) :
    tally p ahead (it :: rest) = (p ahead it).toNat + tally p false rest := by
  rw [tally]
  cases it <;> first | rfl | cases hit

theorem tally_single (p : Bool → Item → Bool) (times : Repeat) (rest : List Item) :
    tally p ahead (.single s times :: rest) = (p ahead (.single s times)).toNat +
      tally p (if ahead && s.quantifies then times ≠ .once else times = .optional) rest := rfl

theorem single_balance {times : Repeat} {r' : Bytes} {rest : List Item} (hs : Starts r (times, r'))
    (ih : ∀ ahead, countFrom ahead r' + tally Item.missed ahead rest =
      rest.countP Item.branches + tally Item.surplus ahead rest) :
    (if ahead && s.quantifies then 1 + countItems r else countFrom true r) +
        tally Item.missed ahead (.single s times :: rest) =
      (Item.single s times :: rest).countP Item.branches +
        tally Item.surplus ahead (.single s times :: rest) := by
  rw [tally_single, tally_single, List.countP_cons]
  simp only [Item.missed, Item.surplus, Item.branches]
  generalize (ahead && s.quantifies) = sign
  cases hs with
  | once _ h =>
    have ih := ih false
    rw [countFrom_of_not h] at ih ⊢
    cases sign <;> grind
  | optional r =>
    have ih := ih true
    rw [countFrom_of_not rfl, countItems_of_drop dropItem_question]
    cases sign <;> grind
  | counted c r times hc hone hoptional =>
    rw [countFrom_quantifier hc, countItems_of_drop (dropItem_quantifier hc)]
    have hread : countFrom false r' = countItems r' := rfl
    cases sign <;> grind

theorem Starts.suffix {x : Repeat × Bytes} (h : Starts r x) : x.2 <:+ r := by
  cases h with
  | once => exact List.suffix_rfl
  | optional => exact List.suffix_cons _ _
  | counted => exact List.suffix_cons _ _

theorem mem_of_starts {x : Repeat × Bytes} (h : Starts r x) (hx : x.1 = .optional) :
    byte '?' ∈ r := by
  cases h with
  | once => cases hx
  | optional => exact List.mem_cons_self
  | counted _ _ _ _ _ hoptional => exact absurd hx hoptional

/-- Choices that the estimate misses and counts that are none make up the difference. -/
theorem countFrom_balance (h : ∀ f, .malformed f ∉ items bs) :
    countFrom ahead bs + tally Item.missed ahead (items bs) =
      (items bs).countP Item.branches + tally Item.surplus ahead (items bs) := by
  fun_induction items bs generalizing ahead with
  | case1 => simp [countFrom, countItems, tally]
  | case2 c bs ih =>
    -- behind an item the estimate is as far as matching, or ahead by the sign behind the item
    have hc := compares c bs
    have ih (ahead : Bool) := @ih ahead fun f hf => h f (List.mem_cons_of_mem _ hf)
    generalize item c bs = x at *
    cases hc with
    | malformed f => exact absurd List.mem_cons_self (h f)
    | @other it r hit hc _ hcount =>
      have hfixed : it.branches = false ∧ it.missed ahead = false ∧ it.surplus ahead = false := by
        cases it <;> first | exact ⟨rfl, rfl, rfl⟩ | cases hit
      have ih := ih false
      rw [countFrom_of_not (by simpa using hc), hcount, tally_fixed _ hit, tally_fixed _ hit,
        List.countP_cons, hfixed.1, hfixed.2.1, hfixed.2.2]
      simpa [countFrom] using ih
    | again hdrop hc hlow hhigh =>
      have ih := ih true
      rw [countFrom_cons hdrop, hc, Bool.and_false]
      simpa [tally, Item.readAhead, Item.missed, Item.surplus, Item.branches] using ih
    | single s hdrop hsign =>
      rw [countFrom_cons hdrop, ← hsign]
      exact single_balance (starts _) ih

end Counts

section Estimate

variable {p : Bytes}

theorem Compares.suffix {c : UInt8} {bs : Bytes} {x : Item × Bytes} (h : Compares c bs x) :
    x.2 <:+ bs := by
  cases h with
  | single s hdrop _ =>
    have hr := dropItem_suffix c bs
    rw [hdrop] at hr
    exact (starts _).suffix.trans hr
  | again hdrop =>
    have hr := dropItem_suffix c bs
    rwa [hdrop] at hr
  | other _ _ hrest _ => exact hrest
  | malformed => exact List.nil_suffix

theorem mem_of_optional {s : Single} {bs : Bytes} (h : .single s .optional ∈ items bs) :
    byte '?' ∈ bs := by
  fun_induction items bs with
  | case1 => cases h
  | case2 c bs ih =>
    have hc := compares c bs
    generalize item c bs = x at *
    refine List.mem_cons_of_mem _ ?_
    rcases List.mem_cons.1 h with h | h
    · cases hc with
      | @single s r hdrop _ =>
        have hr := dropItem_suffix c bs
        rw [hdrop] at hr
        exact hr.subset (mem_of_starts (starts r) (Item.single.inj h).2.symm)
      | other hit =>
        cases h
        cases hit
      | _ => cases h
    · exact hc.suffix.subset (ih h)

theorem again_digit {d : UInt8} {bs : Bytes} (h : .again d ∈ items bs) :
    byte '0' ≤ d ∧ d ≤ byte '9' := by
  fun_induction items bs with
  | case1 => cases h
  | case2 c bs ih =>
    rcases List.mem_cons.1 h with h | h
    · have hc := compares c bs
      generalize item c bs = x at *
      cases hc with
      | again _ _ hlow hhigh =>
        cases h
        exact ⟨hlow, hhigh⟩
      | other hit =>
        cases h
        cases hit
      | _ => cases h
    · exact ih h

theorem tally_eq_zero {q : Bool → Item → Bool} (good : Bool → Prop) {its : List Item} {ahead : Bool}
    (ha : good ahead) (hq : ∀ it ∈ its, ∀ a, good a → q a it = false ∧ good (it.readAhead a)) :
    tally q ahead its = 0 := by
  induction its generalizing ahead with
  | nil => rfl
  | cons it its ih =>
    obtain ⟨hit, hnext⟩ := hq it List.mem_cons_self ahead ha
    rw [tally, hit, ih hnext fun it h => hq it (List.mem_cons_of_mem _ h)]
    rfl

theorem missed_eq_zero (h : ∀ s, .single s .optional ∉ (anchored p).items) : missed p = 0 := by
  refine tally_eq_zero (fun _ => True) trivial fun it hit _ _ => ⟨?_, trivial⟩
  cases it with
  | single s times =>
    have htimes : times ≠ .optional := fun ht => h s (ht ▸ hit)
    simp [Item.missed, htimes]
  | _ => rfl

theorem anchored_items : (anchored p).items =
    items (if p.head? = some (byte '^') then p.tail else p) := by
  unfold anchored
  split <;> rfl

theorem quantifiers_balance (hp : isReadable p = true) :
    quantifiers p + missed p = choices p + surplus p := by
  have hmalformed (f : Fault) : .malformed f ∉ (anchored p).items := fun hf =>
    Bool.false_ne_true (List.all_eq_true.1 hp _ hf)
  rw [anchored_items] at hmalformed
  rw [missed, choices, surplus, anchored_items, quantifiers]
  have hbalance (bs : Bytes) (h : ∀ f, .malformed f ∉ items bs) :
      countFrom false bs + tally Item.missed false (items bs) =
        (items bs).countP Item.branches + tally Item.surplus false (items bs) :=
    countFrom_balance h
  exact hbalance _ hmalformed

/-- The estimate covers the choices of a pattern just if it misses no more of them than it counts
signs that are items. Without question marks that repeat it misses none. -/
theorem choices_covered_iff (hp : isReadable p = true) :
    (choices p ≤ quantifiers p ↔ missed p ≤ surplus p) ∧
      ((∀ s, .single s .optional ∉ (anchored p).items) → choices p ≤ quantifiers p) := by
  have hbalance := quantifiers_balance hp
  refine ⟨by omega, fun h => ?_⟩
  rw [missed_eq_zero h] at hbalance
  omega

theorem choices_covered_run :
    choices ("a?*(b+)%1".toList.map byte) = 2 ∧
      choices ("a?*(b+)%1".toList.map byte) ≤ quantifiers ("a?*(b+)%1".toList.map byte) ∧
      choices ("[^]*%]]-%1*".toList.map byte) ≤ quantifiers ("[^]*%]]-%1*".toList.map byte) := by
  have hitems : (anchored ("[^]*%]]-%1*".toList.map byte)).items =
      [.single (.set true [.byte (byte ']'), .byte (byte '*'), .kind (byte ']')]) .few,
        .again (byte '1'), .single (.byte (byte '*')) .once] := by cbv
  exact ⟨by cbv, (choices_covered_iff (by cbv)).1.2 (by cbv),
    (choices_covered_iff (by cbv)).2 (by rw [hitems]; simp)⟩

/-- The estimate takes no item of this pattern for repeated, and matching has a choice. -/
theorem optional_not_counted :
    isReadable ("a?".toList.map byte) = true ∧ choices ("a?".toList.map byte) = 1 ∧
      quantifiers ("a?".toList.map byte) = 0 :=
  ⟨by cbv, by cbv, by cbv⟩

/-- Where no item is optional or a reference, the estimate reads the pattern as matching does. -/
theorem quantifiers_eq (hp : isReadable p = true)
    (hoptional : ∀ s, .single s .optional ∉ (anchored p).items)
    (hagain : ∀ d, .again d ∉ (anchored p).items) :
    quantifiers p = (anchored p).items.countP Item.repeats := by
  have hsurplus : surplus p = 0 := by
    refine tally_eq_zero (· = false) rfl fun it hit a ha => ?_
    subst ha
    cases it with
    | single s times =>
      have htimes : times ≠ .optional := fun ht => hoptional s (ht ▸ hit)
      simp [Item.surplus, Item.readAhead, htimes]
    | again d => exact absurd hit (hagain d)
    | _ => exact ⟨rfl, rfl⟩
  have hbalance := quantifiers_balance hp
  rw [missed_eq_zero hoptional, hsurplus, choices] at hbalance
  refine hbalance.trans (List.countP_congr fun it hit => ?_)
  cases it with
  | single s times =>
    have htimes : times ≠ .optional := fun ht => hoptional s (ht ▸ hit)
    simp [Item.branches, Item.repeats, htimes]
  | _ => rfl

/-- Without question marks and references the estimate counts the items that are repeated. -/
theorem quantifiers_exact (hp : isReadable p = true) (hquestion : byte '?' ∉ p)
    (hagain : ∀ d, byte '1' ≤ d → d ≤ byte '9' → .again d ∉ (anchored p).items) :
    quantifiers p = (anchored p).items.countP Item.repeats := by
  refine quantifiers_eq hp (fun s h => ?_) fun d h => ?_
  · rw [anchored_items] at h
    have hmem := mem_of_optional h
    split at hmem
    · exact hquestion (List.mem_of_mem_tail hmem)
    · exact hquestion hmem
  · have hzero : d ≠ byte '0' := of_decide_eq_true (List.all_eq_true.1 hp _ h)
    obtain ⟨hlow, hhigh⟩ := again_digit (anchored_items ▸ h)
    have hne : d.toNat ≠ (byte '0').toNat := fun he => hzero (UInt8.toNat_inj.1 he)
    have hone : byte '1' ≤ d :=
      UInt8.le_iff_toNat_le.2 (Nat.lt_of_le_of_ne (UInt8.le_iff_toNat_le.1 hlow) hne.symm)
    exact hagain d hone hhigh h

theorem quantifiers_exact_call :
    quantifiers ("^%f[%a](%w+)%s*%b()()+-$".toList.map byte) = 3 := by
  have hitems : (anchored ("^%f[%a](%w+)%s*%b()()+-$".toList.map byte)).items =
      [.frontier (.set false [.kind (byte 'a')]), .openCapture,
        .single (.kind (byte 'w')) .atLeastOnce, .closeCapture, .single (.kind (byte 's')) .many,
        .balance (byte '(') (byte ')'), .position, .single (.byte (byte '+')) .few, .finish] := by
    cbv
  exact (quantifiers_exact (by cbv) (by decide) fun d _ _ => by rw [hitems]; simp).trans (by cbv)

end Estimate

end Rulebook.Script.Pattern
