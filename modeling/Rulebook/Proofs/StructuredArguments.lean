import Rulebook.Proofs.CodeArguments

namespace Rulebook.Json

open Rule (Lexeme Piece Reads CutsOff punctPiece isJoint cutsOff_word reads_enclosed)

def separated : List (List Lexeme) → List Lexeme
  | [] => []
  | [p] => p
  | p :: ps => p ++ punctPiece ',' :: separated ps

def pieces : Json → List Lexeme
  | null => [⟨some .ident, compact null⟩]
  | bool b => [⟨some .ident, compact (bool b)⟩]
  | int n => numeralPieces (int n)
  | float x => if x.isFinite then numeralPieces (float x) else [⟨some .ident, compact (float x)⟩]
  | str s => [⟨some .str, quote s⟩]
  | arr items => punctPiece '[' :: separated (itemPieces items) ++ [punctPiece ']']
  | obj members => punctPiece '\x7b' :: separated (memberPieces members) ++ [punctPiece '\x7d']
where
  itemPieces : List Json → List (List Lexeme)
    | [] => []
    | v :: vs => pieces v :: itemPieces vs
  memberPieces : List (String × Json) → List (List Lexeme)
    | [] => []
    | (k, v) :: ms => (⟨some .str, quote k⟩ :: punctPiece ':' :: pieces v) :: memberPieces ms

def isList : Json → Bool
  | arr _ => true
  | _ => false

def isObject : Json → Bool
  | obj _ => true
  | _ => false

def startsList : List Json → Bool
  | v :: _ => v.isList
  | [] => false

/-- Some list in the value has a list as its first item. -/
def nests : Json → Bool
  | arr items => startsList items || nestsItems items
  | obj members => nestsMembers members
  | _ => false
where
  nestsItems : List Json → Bool
    | [] => false
    | v :: vs => nests v || nestsItems vs
  nestsMembers : List (String × Json) → Bool
    | [] => false
    | (_, v) :: ms => nests v || nestsMembers ms

variable {v : Json}

theorem text_separated (ps : List (List Lexeme)) :
    (separated ps).flatMap Lexeme.text = commas (ps.map (List.flatMap Lexeme.text)) := by
  fun_induction separated ps with
  | case1 => rfl
  | case2 p => rfl
  | case3 p ps hne ih =>
    rw [List.flatMap_append, List.flatMap_cons, ih, List.map_cons, commas]
    · rfl
    · simpa using hne

mutual

theorem text_pieces : ∀ v : Json, v.pieces.flatMap Lexeme.text = v.compact
  | null => by simp [pieces]
  | bool _ => by simp [pieces]
  | int n => text_numeralPieces (v := int n) trivial
  | float x => by
    rw [pieces]
    split
    · next h => exact text_numeralPieces (v := float x) h
    · simp
  | str s => by simp [pieces, compact]
  | arr items => by
    rw [pieces, compact, List.flatMap_append, List.flatMap_cons, text_separated, text_items items]
    rfl
  | obj members => by
    rw [pieces, compact, List.flatMap_append, List.flatMap_cons, text_separated,
      text_members members]
    rfl

theorem text_items : ∀ items : List Json,
    (pieces.itemPieces items).map (List.flatMap Lexeme.text) = compact.compactItems items
  | [] => rfl
  | v :: vs => by
    rw [pieces.itemPieces, compact.compactItems, List.map_cons, text_pieces v, text_items vs]

theorem text_members : ∀ members : List (String × Json),
    (pieces.memberPieces members).map (List.flatMap Lexeme.text) = compact.compactMembers members
  | [] => rfl
  | (k, v) :: ms => by
    rw [pieces.memberPieces, compact.compactMembers, List.map_cons, List.flatMap_cons,
      List.flatMap_cons, text_pieces v, text_members ms]
    rfl

end

variable {z : List Char} {ls : List Lexeme}

theorem inside_plain {c : Char} (hc : c ∉ ['"', '\\', '\n']) (x : List Char) :
    Rule.inside '"' false (c :: x) = Rule.inside '"' false x := by
  simp only [List.mem_cons, List.not_mem_nil, or_false, not_or] at hc
  simp [Rule.inside, hc.1, hc.2.1, hc.2.2]

theorem hexDigit_plain : ∀ n < 16, hexDigit n ∉ ['"', '\\', '\n'] := by decide

theorem inside_escape (c : Char) : Rule.inside '"' false (escapeChar c) = some false := by
  by_cases hc : c.toNat < 32
  · have hcode : Rule.inside '"' false
        ['\\', 'u', '0', '0', hexDigit (c.toNat / 16), hexDigit (c.toNat % 16)] = some false := by
      show Rule.inside '"' false ('0' :: '0' :: hexDigit (c.toNat / 16) :: _) = _
      rw [inside_plain (by decide), inside_plain (by decide), inside_plain, inside_plain]
      · rfl
      · exact hexDigit_plain _ (Nat.mod_lt _ (by decide))
      · exact hexDigit_plain _ (by omega)
    unfold escapeChar
    split_ifs <;> first | rfl | exact hcode
  · unfold escapeChar
    split_ifs <;> first | rfl | exact inside_plain (by simp [*]) []

theorem inside_quoted (cs : List Char) :
    Rule.inside '"' false (cs.flatMap escapeChar) = some false := by
  induction cs with
  | nil => rfl
  | cons c cs ih =>
    rw [List.flatMap_cons, Rule.inside_append, inside_escape]
    exact ih

theorem piece_quote (s : String) (z : List Char) : Piece (quote s ++ z) ⟨some .str, quote s⟩ z := by
  have := (Rule.piece_quoted_iff (v := z) (show Rule.isQuote '"' = true by decide)).2
    (inside_quoted s.toList)
  simpa [quote] using this

theorem cutsOff_separated {ts : List (List Char)} {lss : List (List Lexeme)}
    (h : List.Forall₂ CutsOff ts lss) : CutsOff (commas ts) (separated lss) := by
  induction h with
  | nil => exact fun z _ => .refl z
  | @cons t ls ts lss ht hts ih =>
    cases hts with
    | nil => exact ht
    | cons =>
      intro z hz
      rw [commas, separated]
      · rw [List.append_assoc]
        exact Rule.reads_append.2 ⟨_, ht _ (by rintro _ ⟨⟩; rfl),
          .step (Rule.piece_lone (by decide) _) (ih z hz)⟩
      · simp
      · simp

theorem compact_head (v : Json) :
    ∃ c t, v.compact = c :: t ∧ c ≠ ':' ∧ c ≠ '=' ∧ (c = '[' → v.isList = true) := by
  have hnumber {v : Json} (hv : v.IsNumber) :
      ∃ c t, v.compact = c :: t ∧ c ≠ ':' ∧ c ≠ '=' ∧ (c = '[' → v.isList = true) := by
    obtain ⟨m, hm, hc⟩ := numeral_compact hv
    obtain ⟨d, t, rfl, hd⟩ := Rule.numeral_cons hm
    cases hs : v.hasSign with
    | true =>
      rw [hs] at hc
      exact ⟨'-', d :: t, hc, by decide, by decide, by simp⟩
    | false =>
      rw [hs] at hc
      refine ⟨d, t, hc, ?_, ?_, ?_⟩ <;> rintro rfl <;> cases hd
  cases v with
  | null => exact ⟨_, _, rfl, by decide, by decide, by simp⟩
  | bool b => cases b <;> exact ⟨_, _, rfl, by decide, by decide, by simp⟩
  | int n => exact hnumber trivial
  | float x =>
    by_cases hx : x.isFinite = true
    · exact hnumber hx
    · exact ⟨_, _, compact_of_not_isFinite hx, by decide, by decide, by simp⟩
  | str s => exact ⟨_, _, rfl, by decide, by decide, by simp⟩
  | arr items => exact ⟨_, _, rfl, by decide, by decide, fun _ => rfl⟩
  | obj members => exact ⟨_, _, rfl, by decide, by decide, by simp⟩

theorem commas_append (p : List Char) (ps : List (List Char)) : ∃ y, commas (p :: ps) = p ++ y := by
  cases ps with
  | nil => exact ⟨[], by simp [commas]⟩
  | cons => exact ⟨_, rfl⟩

theorem reads_list {items : List Json} (h : startsList items = false)
    (hitems : List.Forall₂ CutsOff (compact.compactItems items) (pieces.itemPieces items))
    (z : List Char) : Reads ((arr items).compact ++ z) (arr items).pieces z := by
  have hlevel : Rule.level? (commas (compact.compactItems items) ++ ']' :: z) = none := by
    cases items with
    | nil => rfl
    | cons v vs =>
      obtain ⟨c, t, hc, -, heq, hlist⟩ := compact_head v
      obtain ⟨y, hy⟩ := commas_append v.compact (compact.compactItems vs)
      have hbr : c ≠ '[' := by
        rintro rfl
        rw [startsList, hlist rfl] at h
        cases h
      rw [compact.compactItems, hy, hc, List.cons_append, List.cons_append, Rule.level?_cons,
        if_neg heq, if_neg hbr]
  exact reads_enclosed (cutsOff_separated hitems) rfl rfl (Rule.piece_bracket hlevel)

theorem reads_object {members : List (String × Json)}
    (hmembers : List.Forall₂ CutsOff (compact.compactMembers members)
      (pieces.memberPieces members)) (z : List Char) :
    Reads ((obj members).compact ++ z) (obj members).pieces z := by
  exact reads_enclosed (cutsOff_separated hmembers) rfl rfl (Rule.piece_lone (by decide) _)

theorem cutsOff_member (k : String) (h : CutsOff v.compact ls) :
    CutsOff (quote k ++ ':' :: v.compact) (⟨some .str, quote k⟩ :: punctPiece ':' :: ls) := by
  intro z hz
  obtain ⟨c, t, hc, hcolon, -⟩ := compact_head v
  have hhead : (v.compact ++ z).head? ≠ some ':' := by simp [hc, hcolon]
  rw [List.append_assoc]
  exact .step (piece_quote k _) (.step (Rule.piece_colon hhead) (h z hz))

mutual

theorem cutsOff_compact : ∀ v : Json, v.nests = false → CutsOff v.compact v.pieces
  | null, _ => cutsOff_word rfl rfl
  | bool b, _ => by cases b <;> exact cutsOff_word rfl rfl
  | int n, _ => cutsOff_numeral (v := int n) trivial
  | float x, _ => by
    rw [pieces]
    split
    · next h => exact cutsOff_numeral (v := float x) h
    · next h =>
      rw [compact_of_not_isFinite h]
      exact cutsOff_word rfl rfl
  | str s, _ => fun z _ => .step (piece_quote s z) (.refl z)
  | arr items, h => by
    rw [nests, Bool.or_eq_false_iff] at h
    exact fun z _ => reads_list h.1 (cutsOff_items items h.2) z
  | obj members, h => fun z _ => reads_object (cutsOff_members members h) z

theorem cutsOff_items : ∀ items : List Json, nests.nestsItems items = false →
    List.Forall₂ CutsOff (compact.compactItems items) (pieces.itemPieces items)
  | [], _ => .nil
  | v :: vs, h => by
    rw [nests.nestsItems, Bool.or_eq_false_iff] at h
    exact .cons (cutsOff_compact v h.1) (cutsOff_items vs h.2)

theorem cutsOff_members : ∀ members : List (String × Json), nests.nestsMembers members = false →
    List.Forall₂ CutsOff (compact.compactMembers members) (pieces.memberPieces members)
  | [], _ => .nil
  | (k, v) :: ms, h => by
    rw [nests.nestsMembers, Bool.or_eq_false_iff] at h
    exact .cons (cutsOff_member k (cutsOff_compact v h.1)) (cutsOff_members ms h.2)

end

def twoBrackets : List Lexeme := [punctPiece '[', punctPiece '[']

theorem separated_append (p : List Lexeme) (ps : List (List Lexeme)) :
    ∃ y, separated (p :: ps) = p ++ y := by
  cases ps with
  | nil => exact ⟨[], by simp [separated]⟩
  | cons => exact ⟨_, rfl⟩

theorem infix_separated {p : List Lexeme} {ps : List (List Lexeme)} (h : p ∈ ps) :
    p <:+: separated ps := by
  fun_induction separated ps with
  | case1 => cases h
  | case2 q =>
    obtain rfl := List.mem_singleton.1 h
    exact List.infix_rfl
  | case3 q ps _ ih =>
    rcases List.mem_cons.1 h with rfl | h
    · exact List.infix_append' [] _ _
    · exact (ih h).trans ⟨q ++ [punctPiece ','], [], by simp⟩

mutual

theorem twoBrackets_of_nests : ∀ v : Json, v.nests = true → twoBrackets <:+: v.pieces
  | arr items, h => by
    rw [nests, Bool.or_eq_true] at h
    rcases h with h | h
    · match items, h with
      | arr vs :: items, _ =>
        obtain ⟨y, hy⟩ := separated_append (arr vs).pieces (pieces.itemPieces items)
        refine List.IsPrefix.isInfix ?_
        rw [pieces, pieces.itemPieces, hy, pieces]
        simp [twoBrackets, List.cons_prefix_cons]
    · obtain ⟨p, hp, hi⟩ := twoBrackets_of_items items h
      exact (hi.trans (infix_separated hp)).trans ⟨[punctPiece '['], [punctPiece ']'], rfl⟩
  | obj members, h => by
    obtain ⟨p, hp, hi⟩ := twoBrackets_of_members members h
    exact (hi.trans (infix_separated hp)).trans
      ⟨[punctPiece '\x7b'], [punctPiece '\x7d'], rfl⟩

theorem twoBrackets_of_items : ∀ items : List Json, nests.nestsItems items = true →
    ∃ p ∈ pieces.itemPieces items, twoBrackets <:+: p
  | v :: vs, h => by
    rw [nests.nestsItems, Bool.or_eq_true] at h
    rcases h with h | h
    · exact ⟨_, List.mem_cons_self, twoBrackets_of_nests v h⟩
    · obtain ⟨p, hp, hi⟩ := twoBrackets_of_items vs h
      exact ⟨p, List.mem_cons_of_mem _ hp, hi⟩

theorem twoBrackets_of_members : ∀ members : List (String × Json),
    nests.nestsMembers members = true → ∃ p ∈ pieces.memberPieces members, twoBrackets <:+: p
  | (k, v) :: ms, h => by
    rw [nests.nestsMembers, Bool.or_eq_true] at h
    rcases h with h | h
    · exact ⟨_, List.mem_cons_self, (twoBrackets_of_nests v h).trans
        ⟨[⟨some .str, quote k⟩, punctPiece ':'], [], by simp⟩⟩
    · obtain ⟨p, hp, hi⟩ := twoBrackets_of_members ms h
      exact ⟨p, List.mem_cons_of_mem _ hp, hi⟩

end

theorem not_reads_twoBrackets {x : List Char} (h : twoBrackets <:+: ls) : ¬ Reads x ls z := by
  obtain ⟨ps, qs, rfl⟩ := h
  intro hread
  obtain ⟨y, hread, -⟩ := Rule.reads_append.1 hread
  obtain ⟨w, -, hread⟩ := Rule.reads_append.1 hread
  cases hread with
  | step hp hread =>
    have halone := hp.bracket_alone rfl
    rw [← hread.text_append] at halone
    cases halone

/-- Exactly if no list in it begins with a list, the text of a list or an object is cut into its
tokens, whatever follows. -/
theorem reads_compact_iff (hv : v.isList = true ∨ v.isObject = true) (z : List Char) :
    Reads (v.compact ++ z) v.pieces z ↔ v.nests = false := by
  constructor
  · intro h
    rw [Bool.eq_false_iff]
    exact fun hn => not_reads_twoBrackets (twoBrackets_of_nests v hn) h
  · intro h
    cases v with
    | arr items =>
      rw [nests, Bool.or_eq_false_iff] at h
      exact reads_list h.1 (cutsOff_items items h.2) z
    | obj members => exact reads_object (cutsOff_members members h) z
    | null | bool | int | float | str => rcases hv with hv | hv <;> cases hv

end Rulebook.Json

namespace Rulebook.Template

open Rule (Lexeme Exchanges leavesOpen punctPiece)

variable {x z u v : List Char} {b : Bindings} {name : String} {value : Json}

theorem fill_structure (hv : value.isList = true ∨ value.isObject = true)
    (hroot : name ∉ reservedRoots) (hget : b.get? name = some value) :
    (Part.hole name .code).fill b = .ok (value.pieces.flatMap Lexeme.text) := by
  have hcode : codeText value = .ok value.compact := by
    cases value with
    | arr | obj => exact congrArg Except.ok String.toList_ofList
    | null | bool | int | float | str => rcases hv with hv | hv <;> cases hv
  rw [Json.text_pieces]
  simp only [Part.fill, if_neg hroot, hget, Position.write, hcode]

/-- Between any two texts the pieces of a placeholder are exchanged for those of a list or an object
exactly if no list in it begins with a list, and none that is the whole value stands behind an
opening bracket. -/
theorem exchanges_structure_iff (hv : value.isList = true ∨ value.isObject = true) :
    Exchanges u (holePieces name) value.pieces v ↔ ∃ ls₁ ls₂,
      ls₁.flatMap Lexeme.text = u ∧
      Rule.lexemes 0 (u ++ (Segment.hole name).text ++ v) = .ok (ls₁ ++ holePieces name ++ ls₂) ∧
      (value.isList = true → leavesOpen ls₁ = false) ∧ value.nests = false := by
  rw [Rule.exchanges_iff, holePieces_text]
  refine exists₂_congr fun ls₁ ls₂ => and_congr_right fun htext => and_congr_right fun hmid => ?_
  rw [← holePieces_text, Rule.lexemes_between htext] at hmid
  obtain ⟨hread, -, -⟩ := hmid
  rw [Json.text_pieces, Json.reads_compact_iff hv]
  have hne : (holePieces name).flatMap Lexeme.text ++ v ≠ [] := by simp [holePieces, punctPiece]
  refine and_congr_left fun _ => ⟨fun h hlist => ?_, fun h => ?_⟩
  · rw [Bool.eq_false_iff]
    intro ho
    have hlevel := Rule.not_open_of_reads h ho
    cases value with
    | arr items => cases hlevel
    | null | bool | int | float | str | obj => cases hlist
  · rw [← htext]
    cases value with
    | arr items => exact hread.before_fresh hne (by decide) (fun _ => h rfl) _
    | obj members => exact hread.before_fresh hne (by decide) (by simp) _
    | null | bool | int | float | str => rcases hv with hv | hv <;> cases hv

/-- A list or an object in code takes the place of the pieces of its placeholder and changes no
others exactly if no list in it begins with a list and, if it is a list, no opening bracket of the
rule stands before it with only equality signs in between. -/
theorem structure_exchanged_iff {text out : String}
    (hv : value.isList = true ∨ value.isObject = true) (hname : Text.isIdent name = true)
    (hroot : name ∉ reservedRoots) (hget : b.get? name = some value)
    (htext : text.toList = x ++ (Segment.hole name).text ++ z)
    (hcode : (scan (.code, 0) x ((Segment.hole name).text ++ z)).1 = .code)
    (hout : substituteRule text b = .ok out) :
    ∃ u v, Becomes b [] x ((Segment.hole name).text ++ z) u ∧
      substituteRule (String.ofList z) b = .ok (String.ofList v) ∧
      out.toList = u ++ value.compact ++ v ∧ value.pieces.flatMap Lexeme.text = value.compact ∧
      (∀ s t, Exchanges s (holePieces name) value.pieces t ↔ ∃ ls₁ ls₂,
        ls₁.flatMap Lexeme.text = s ∧
        Rule.lexemes 0 (s ++ (Segment.hole name).text ++ t) =
          .ok (ls₁ ++ holePieces name ++ ls₂) ∧
        (value.isList = true → leavesOpen ls₁ = false) ∧ value.nests = false) ∧
      (Exchanges u (holePieces name) value.pieces v → ∃ ws ws',
        Rule.wording (String.ofList (u ++ (Segment.hole name).text ++ v)) =
          .ok (ws ++ (holePieces name).filterMap Lexeme.word? ++ ws') ∧
        Rule.wording out = .ok (ws ++ value.pieces.filterMap Lexeme.word? ++ ws')) := by
  obtain ⟨u, w, v, hu, hw, hv', ho⟩ := becomes_code hname htext hcode hout
  have hfill := fill_structure hv hroot hget
  rw [hw] at hfill
  obtain rfl := Except.ok.inj hfill
  refine ⟨u, v, hu, hv', by rw [ho, Json.text_pieces], Json.text_pieces value,
    fun s t => exchanges_structure_iff hv, fun h => ?_⟩
  exact h.wording (by rw [String.toList_ofList, holePieces_text]) ho

theorem structure_exchanged_with_texts :
    Exchanges "f(".toList (holePieces "x")
      (Json.pieces (.obj [("--", .arr [.int (-1), .arr [.str "]] \" --"]])])) ")".toList := by
  have hcode : (scan (.code, 0) "f(".toList ((Segment.hole "x").text ++ ")".toList)).1 = .code := by
    decide
  have hout :
      substituteRule "f({x})" [("x", .obj [("--", .arr [.int (-1), .arr [.str "]] \" --"]])])] =
      .ok "f(\x7b\"--\":[-1,[\"]] \\\" --\"]]\x7d)" := by cbv
  obtain ⟨-, -, -, -, -, -, hiff, -⟩ := structure_exchanged_iff (.inr rfl)
    (show Text.isIdent "x" = true by decide) (by decide) rfl (by decide) hcode hout
  exact (hiff _ _).2 ⟨[⟨some .ident, ['f']⟩, ⟨some .punct, ['(']⟩], [⟨some .punct, [')']⟩], rfl,
    by cbv, by simp [Json.isList], by decide⟩

/-- A list in a list begins a long bracket, which a text in it closes. -/
theorem nested_list_opens_bracket :
    Rule.tokens "f({x})" = .ok [⟨.ident, "f", 0, 1⟩, ⟨.punct, "(", 1, 2⟩, ⟨.punct, "\x7b", 2, 3⟩,
      ⟨.ident, "x", 3, 4⟩, ⟨.punct, "\x7d", 4, 5⟩, ⟨.punct, ")", 5, 6⟩] ∧
    substituteRule "f({x})" [("x", .arr [.arr [.str "]] or y --"]])] =
      .ok "f([[\"]] or y --\"]])" ∧
    Rule.tokens "f([[\"]] or y --\"]])" = .ok [⟨.ident, "f", 0, 1⟩, ⟨.punct, "(", 1, 2⟩,
      ⟨.str, "[[\"]]", 2, 7⟩, ⟨.ident, "or", 8, 10⟩, ⟨.ident, "y", 11, 12⟩] := by
  refine ⟨by cbv, by cbv, by cbv⟩

end Rulebook.Template
