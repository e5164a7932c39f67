import Rulebook.Proofs.CodeArguments
import Rulebook.Proofs.Targets

namespace Rulebook.Template

variable {b : Bindings} {s t name : String} {v w : Json} {x : List Char}

def braced (name : String) : String := String.ofList (Segment.hole name).text

/-- The value `v` with its placeholders resolved. -/
inductive Resolved (b : Bindings) : Json → Json → Prop
  | null : Resolved b .null .null
  | bool (c : Bool) : Resolved b (.bool c) (.bool c)
  | int (n : Int) : Resolved b (.int n) (.int n)
  | float (x : Float) : Resolved b (.float x) (.float x)
  | whole {name : String} {v : Json} (hn : Text.isIdent name = true) (hr : name ∉ reservedRoots)
    (hv : b.get? name = some v) : Resolved b (.str (braced name)) v
  | text {s t : String}
    (hs : ∀ name, Text.isIdent name = true → name ∉ reservedRoots → s ≠ braced name)
    (ht : substitute s b = .ok t) : Resolved b (.str s) (.str t)
  | arr {vs ws : List Json} (h : List.Forall₂ (Resolved b) vs ws) : Resolved b (.arr vs) (.arr ws)
  | obj {ms ns : List (String × Json)}
    (hk : ns.map Prod.fst = ms.map Prod.fst)
    (h : List.Forall₂ (Resolved b) (ms.map Prod.snd) (ns.map Prod.snd)) :
    Resolved b (.obj ms) (.obj ns)

theorem isIdent_of_hole? {r : List Char} (h : hole? x = some (name, r)) :
    Text.isIdent name = true := by
  obtain ⟨⟨hne, hrest⟩, hstart, -⟩ := hole?_eq_some.1 h
  unfold Text.isIdent
  cases hn : name.toList with
  | nil => exact absurd hn hne
  | cons c cs =>
    rw [hn] at hrest hstart
    simp only [Bool.and_eq_true, List.all_eq_true]
    exact ⟨hstart c rfl, fun d hd => hrest d (List.mem_cons_of_mem _ hd)⟩

theorem segments_eq_hole : segments x = [.hole name] ↔
    Text.isIdent name = true ∧ x = (Segment.hole name).text := by
  constructor
  · intro h
    have hx : x = (Segment.hole name).text := by
      rw [← segments_text x, h, List.flatMap_singleton]
    refine ⟨?_, hx⟩
    rw [hx, Segment.text] at h
    cases hh : hole? (name.toList ++ ['\x7d']) with
    | none =>
      rw [segments_brace hh] at h
      cases h
    | some r =>
      obtain ⟨n, r⟩ := r
      rw [segments_hole hh] at h
      obtain ⟨⟨⟩, -⟩ := List.cons.inj h
      exact isIdent_of_hole? hh
  · rintro ⟨hn, rfl⟩
    exact segments_hole_text hn

theorem sole?_eq_some : sole? s = some name ↔ Text.isIdent name = true ∧ s = braced name := by
  have hs : s = braced name ↔ s.toList = (Segment.hole name).text := by
    rw [braced, ← String.toList_inj, String.toList_ofList]
  rw [hs, ← segments_eq_hole, sole?]
  constructor
  · intro h
    split at h
    · next heq =>
      cases h
      exact heq
    · cases h
  · intro h
    rw [h]

theorem resolve_eq_error {e : Fault} : resolve b v = .error e ↔
    ∃ ns n ms, valuePlaceholders v = ns ++ n :: ms ∧ (∀ m ∈ ns, HasValue b m) ∧ ¬ HasValue b n ∧
      e = .unresolved n := by
  rw [← error?_eq_some, error?_resolve, List.findSome?_eq_some_iff]
  simp only [error?_lookup_eq_none, error?_lookup_eq_some]
  constructor
  · rintro ⟨ns, n, ms, h, he, hns⟩
    exact ⟨ns, n, ms, h, hns, he⟩
  · rintro ⟨ns, n, ms, h, hns, he⟩
    exact ⟨ns, n, ms, h, he, hns⟩

theorem substitute_braced (hr : name ∈ reservedRoots) (hn : Text.isIdent name = true) :
    substitute (braced name) b = .ok name := by
  have hlookup : lookup b name = .ok (.str name) := by rw [lookup, if_pos hr]
  rw [substitute, braced, String.toList_ofList, segments_hole_text hn, List.mapM_cons, Segment.fill,
    hlookup]
  simp [Except.map, Json.render]

theorem resolved_str : Resolved b (.str s) w ↔
    (∃ name, Text.isIdent name = true ∧ name ∉ reservedRoots ∧ s = braced name ∧
      b.get? name = some w) ∨
    (∀ name, Text.isIdent name = true → name ∉ reservedRoots → s ≠ braced name) ∧
      ∃ t, substitute s b = .ok t ∧ .str t = w := by
  constructor
  · intro h
    cases h with
    | whole hn hr hv => exact .inl ⟨_, hn, hr, rfl, hv⟩
    | text hs ht => exact .inr ⟨hs, _, ht, rfl⟩
  · rintro (⟨name, hn, hr, rfl, hv⟩ | ⟨hs, t, ht, rfl⟩)
    · exact .whole hn hr hv
    · exact .text hs ht

theorem resolve_str_iff : resolve b (.str s) = .ok w ↔ Resolved b (.str s) w := by
  rw [resolve, resolved_str]
  cases hs : sole? s with
  | none =>
    have hother : ∀ name, Text.isIdent name = true → s ≠ braced name := by
      rintro name hn rfl
      rw [sole?_eq_some.2 ⟨hn, rfl⟩] at hs
      cases hs
    rw [map_eq_ok]
    constructor
    · exact fun h => .inr ⟨fun name hn _ => hother name hn, h⟩
    · rintro (⟨name, hn, -, he, -⟩ | ⟨-, h⟩)
      · exact absurd he (hother name hn)
      · exact h
  | some name =>
    obtain ⟨hn, rfl⟩ := sole?_eq_some.1 hs
    have hunique : ∀ n, Text.isIdent n = true → braced name = braced n → n = name := by
      intro n hn' he
      rw [sole?_eq_some.2 ⟨hn', he⟩] at hs
      exact Option.some.inj hs
    show lookup b name = .ok w ↔ _
    rw [lookup]
    split
    · next hr =>
      rw [Except.ok.injEq, substitute_braced hr hn]
      constructor
      · rintro rfl
        refine .inr ⟨fun n hn' hr' he => hr' ?_, name, rfl, rfl⟩
        rwa [hunique n hn' he]
      · rintro (⟨n, hn', hr', he, -⟩ | ⟨-, t, ht, rfl⟩)
        · rw [hunique n hn' he] at hr'
          exact absurd hr hr'
        · cases ht
          rfl
    · next hr =>
      constructor
      · intro h
        split at h
        · next v hv =>
          cases h
          exact .inl ⟨name, hn, hr, rfl, hv⟩
        · cases h
      · rintro (⟨n, hn', -, he, hv⟩ | ⟨h, -⟩)
        · rw [hunique n hn' he] at hv
          rw [hv]
        · exact absurd rfl (h name hn hr)

mutual

theorem resolve_iff (b : Bindings) : ∀ v w : Json, resolve b v = .ok w ↔ Resolved b v w
  | .str s, w => resolve_str_iff
  | .arr items, w => by
    simp only [resolve, map_eq_ok, resolveItems_iff b items]
    constructor
    · rintro ⟨ws, h, rfl⟩
      exact .arr h
    · rintro ⟨⟩
      exact ⟨_, ‹_›, rfl⟩
  | .obj members, w => by
    simp only [resolve, map_eq_ok, resolveMembers_iff b members]
    constructor
    · rintro ⟨ws, ⟨hk, h⟩, rfl⟩
      exact .obj hk h
    · rintro ⟨⟩
      exact ⟨_, ⟨‹_›, ‹_›⟩, rfl⟩
  | .null, w | .bool _, w | .int _, w | .float _, w => by
    simp only [resolve, Except.ok.injEq]
    constructor
    · rintro rfl
      constructor
    · rintro ⟨⟩
      rfl

theorem resolveItems_iff (b : Bindings) : ∀ vs ws : List Json,
    resolveItems b vs = .ok ws ↔ List.Forall₂ (Resolved b) vs ws
  | [], ws => by
    rw [resolveItems, Except.ok.injEq, List.forall₂_nil_left_iff, eq_comm]
  | v :: vs, ws => by
    simp only [resolveItems, bind_eq_ok, resolve_iff b v, resolveItems_iff b vs,
      List.forall₂_cons_left_iff, pure, Except.pure, Except.ok.injEq]
    constructor
    · rintro ⟨w, hw, us, hus, rfl⟩
      exact ⟨w, us, hw, hus, rfl⟩
    · rintro ⟨w, us, hw, hus, rfl⟩
      exact ⟨w, hw, us, hus, rfl⟩

theorem resolveMembers_iff (b : Bindings) : ∀ ms ns : List (String × Json),
    resolveMembers b ms = .ok ns ↔ ns.map Prod.fst = ms.map Prod.fst ∧
      List.Forall₂ (Resolved b) (ms.map Prod.snd) (ns.map Prod.snd)
  | [], ns => by
    rw [resolveMembers, Except.ok.injEq]
    constructor
    · rintro rfl
      exact ⟨rfl, .nil⟩
    · rintro ⟨hk, -⟩
      exact (List.map_eq_nil_iff.1 hk).symm
  | (k, v) :: ms, ns => by
    simp only [resolveMembers, bind_eq_ok, resolve_iff b v, resolveMembers_iff b ms, pure,
      Except.pure, Except.ok.injEq]
    constructor
    · rintro ⟨w, hw, us, ⟨hk, hus⟩, rfl⟩
      exact ⟨congrArg (k :: ·) hk, .cons hw hus⟩
    · rintro ⟨hk, h⟩
      cases ns with
      | nil => cases hk
      | cons n ns =>
        obtain ⟨rfl, hrest⟩ := List.cons.inj hk
        obtain ⟨hw, hns⟩ := List.forall₂_cons.1 h
        exact ⟨n.2, hw, ns, ⟨hrest, hns⟩, rfl⟩

end

mutual

theorem resolve_of_none (b : Bindings) : ∀ v : Json, valuePlaceholders v = [] →
    resolve b v = .ok v
  | .str s, h => by
    have hs : Holeless s.toList := placeholders_eq_nil.1 h
    have hsole : sole? s = none := by
      refine Option.eq_none_iff_forall_ne_some.2 fun name hn => ?_
      rw [valuePlaceholders, placeholders_of_sole? hn] at h
      cases h
    rw [resolve, hsole, substitute_of_holeless hs]
    rfl
  | .arr items, h => by
    rw [resolve, resolveItems_of_none b items h]
    rfl
  | .obj members, h => by
    rw [resolve, resolveMembers_of_none b members h]
    rfl
  | .null, _ | .bool _, _ | .int _, _ | .float _, _ => by simp [resolve]

theorem resolveItems_of_none (b : Bindings) : ∀ vs : List Json, itemPlaceholders vs = [] →
    resolveItems b vs = .ok vs
  | [], _ => by rw [resolveItems]
  | v :: vs, h => by
    rw [itemPlaceholders, List.append_eq_nil_iff] at h
    rw [resolveItems, resolve_of_none b v h.1, resolveItems_of_none b vs h.2]
    rfl

theorem resolveMembers_of_none (b : Bindings) : ∀ ms : List (String × Json),
    memberPlaceholders ms = [] → resolveMembers b ms = .ok ms
  | [], _ => by rw [resolveMembers]
  | (k, v) :: ms, h => by
    rw [memberPlaceholders, List.append_eq_nil_iff] at h
    rw [resolveMembers, resolve_of_none b v h.1, resolveMembers_of_none b ms h.2]
    rfl

end

/-- A value is resolved just if there is a value for each of its placeholders, and fails by the
first that has none. It keeps its shape, and it is kept as it is if it holds no placeholder. -/
theorem resolve_settled (b : Bindings) (v : Json) :
    (∀ w, resolve b v = .ok w ↔ Resolved b v w) ∧
      ((∃ w, resolve b v = .ok w) ↔ ∀ n ∈ valuePlaceholders v, HasValue b n) ∧
      (∀ e, resolve b v = .error e ↔ ∃ ns n ms, valuePlaceholders v = ns ++ n :: ms ∧
        (∀ m ∈ ns, HasValue b m) ∧ ¬ HasValue b n ∧ e = .unresolved n) ∧
      (valuePlaceholders v = [] → resolve b v = .ok v) :=
  ⟨resolve_iff b v, resolve_exists_iff, fun _ => resolve_eq_error, resolve_of_none b v⟩

def letter : Json :=
  .arr [.str "\x7bn\x7d days",
    .obj [("for", .str "\x7bn\x7d"), ("from", .str "\x7bwho\x7d")], .int 1]

theorem resolve_settled_letter :
    valuePlaceholders letter = ["n", "n", "who"] ∧
    Resolved [("n", .int 3), ("who", .arr [.str "Ada"])] letter
      (.arr [.str "3 days", .obj [("for", .int 3), ("from", .arr [.str "Ada"])], .int 1]) ∧
    resolve [("n", .int 3)] letter = .error (.unresolved "who") ∧
    resolve [] (.obj [("days", .int 3)]) = .ok (.obj [("days", .int 3)]) := by
  have hnames : valuePlaceholders letter = ["n", "n", "who"] := by decide +kernel
  obtain ⟨hresolved, -⟩ := resolve_settled [("n", .int 3), ("who", .arr [.str "Ada"])] letter
  obtain ⟨-, -, herror, -⟩ := resolve_settled [("n", .int 3)] letter
  obtain ⟨-, -, -, hkept⟩ := resolve_settled [] (.obj [("days", .int 3)])
  refine ⟨hnames, (hresolved _).1 (by cbv),
    (herror _).2 ⟨["n", "n"], "who", [], hnames, ?_, ?_, rfl⟩, hkept rfl⟩
  · rintro m hm
    obtain rfl : m = "n" := by simpa using hm
    exact .inr ⟨_, rfl⟩
  · rintro (h | ⟨v, h⟩)
    · exact absurd h (by decide)
    · cases h

end Rulebook.Template
