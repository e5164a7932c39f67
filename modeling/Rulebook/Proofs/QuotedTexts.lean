import Rulebook.Proofs.CodeArguments
import Rulebook.Proofs.JsonStrings
import Rulebook.Proofs.PieceTokens
import Rulebook.Proofs.QuotedArguments
import Rulebook.Proofs.Tables
import Rulebook.Script.Exchange
import Rulebook.Script.Operation

namespace Rulebook.Script.Token

open Template (escapeChar escapeQuoted)

variable {q : Char} {r y cs : List Char} {b : List UInt8}

theorem bytes_ofList (cs : List Char) :
    (⟨(cs.flatMap String.utf8EncodeChar).toArray⟩ : ByteArray) = bytes (String.ofList cs) := by
  rw [bytes, String.toUTF8, String.toByteArray_ofList, List.utf8Encode]
  refine ByteArray.ext (Array.ext' ?_)
  rw [List.data_toByteArray]

theorem utf8_eq (c : Char) : utf8 c = String.utf8EncodeChar c := by
  have h := bytes_ofList [c]
  rw [utf8, Source.toList_eq, show String.singleton c = String.ofList [c] from rfl]
  show (bytes (String.ofList [c])).data.toList = _
  rw [← h]
  simp

theorem quoted_escaped (h : escape y = .ok (b, r, 0)) (fuel : Nat) (acc : List UInt8) (line : Nat) :
    quoted (fuel + 1) q ('\\' :: y) acc line = quoted fuel q r (b ++ acc) line := by
  rw [quoted_escape, h]
  rfl

theorem quoted_escapeChar (hq : q = '\'' ∨ q = '"') (c : Char) (fuel : Nat) (r : List Char)
    (acc : List UInt8) (line : Nat) : quoted (fuel + 1) q (escapeChar q c ++ r) acc line =
      quoted fuel q r ((String.utf8EncodeChar c).reverse ++ acc) line := by
  unfold escapeChar
  split
  · next h =>
    subst h
    exact quoted_escaped rfl fuel acc line
  split
  · next h =>
    subst h
    exact quoted_escaped rfl fuel acc line
  split
  · next h =>
    subst h
    exact quoted_escaped rfl fuel acc line
  split
  · next h =>
    subst h
    exact quoted_escaped rfl fuel acc line
  split
  · next h =>
    subst h
    rcases hq with rfl | rfl <;> exact quoted_escaped rfl fuel acc line
  · next hb hn hr _ hc =>
    have hbreak : ¬ isBreak c = true := by simp [isBreak, hn, hr]
    rw [List.singleton_append, quoted_plain fuel q c hb, if_neg hc, if_neg hbreak, utf8_eq]

theorem quoted_escapeQuoted (hq : q = '\'' ∨ q = '"') (cs r : List Char) (acc : List UInt8)
    (line : Nat) {fuel : Nat} (hf : cs.length < fuel) :
    quoted fuel q (escapeQuoted q cs ++ q :: r) acc line =
      .ok ((cs.flatMap String.utf8EncodeChar).reverse ++ acc, r, line) := by
  induction cs generalizing fuel acc with
  | nil =>
    obtain ⟨fuel, rfl⟩ := Nat.exists_eq_succ_of_ne_zero (Nat.ne_zero_of_lt hf)
    have hne : q ≠ '\\' := by rcases hq with rfl | rfl <;> decide
    rw [escapeQuoted, List.flatMap_nil, List.nil_append, quoted_plain fuel q q hne, if_pos rfl]
    rfl
  | cons c cs ih =>
    obtain ⟨fuel, rfl⟩ := Nat.exists_eq_succ_of_ne_zero (Nat.ne_zero_of_lt hf)
    have htail := ih ((String.utf8EncodeChar c).reverse ++ acc) (Nat.lt_of_succ_lt_succ hf)
    rw [escapeQuoted] at htail ⊢
    rw [List.flatMap_cons, List.append_assoc, quoted_escapeChar hq, htail, List.flatMap_cons,
      List.reverse_append, List.append_assoc]

theorem length_le_escapeQuoted (q : Char) (cs : List Char) :
    cs.length ≤ (escapeQuoted q cs).length := by
  induction cs with
  | nil => exact Nat.zero_le _
  | cons c cs ih =>
    have hc : 1 ≤ (escapeChar q c).length := by
      unfold escapeChar
      split_ifs <;> simp
    rw [escapeQuoted] at ih ⊢
    rw [List.flatMap_cons, List.length_append, List.length_cons]
    omega

/-- Wherever a quoted text stands in a script, its bytes are read from it. -/
theorem scans_quoted (hq : q = '\'' ∨ q = '"') (cs r : List Char) (us : List Token) :
    Scans (q :: (escapeQuoted q cs ++ q :: r)) us ↔
      ∃ vs, us = .str (bytes (String.ofList cs)) :: vs ∧ Scans r vs := by
  have hf : cs.length < (escapeQuoted q cs ++ q :: r).length + 1 := by
    have := length_le_escapeQuoted q cs
    rw [List.length_append]
    omega
  have hstep : step q (escapeQuoted q cs ++ q :: r) 0 =
      .ok (some (.str (bytes (String.ofList cs))), r, 0) := by
    rw [step_quoted hq.symm, quoted_escapeQuoted hq cs r [] 0 hf, List.append_nil, ← bytes_ofList]
    simp [Except.map]
  exact scans_step hstep

end Rulebook.Script.Token

namespace Rulebook.Script

theorem Value.same_str {s t : String} :
    (Value.str (bytes s)).same (.str (bytes t)) = true ↔ s = t := by
  rw [same_bytes, bytes_inj]

theorem Operation.binary_eq_str (h : Heap) (v : Json) (s : String) :
    binary .eq (Exchange.value h v).1 (.str (bytes s)) = .ok (.bool true) ↔ v = .str s := by
  simp only [binary, Except.ok.injEq, Value.bool.injEq]
  cases v with
  | int n =>
    simp only [Exchange.value, Exchange.integer]
    split <;> simp [Value.same]
  | str t => simp [Exchange.value, Heap.newText, Value.same_str]
  | null | bool | float => simp [Exchange.value, Value.same]
  | arr | obj => simp [Exchange.value, Heap.newTable, Value.same]

end Rulebook.Script

namespace Rulebook.Template

open Script.Token (Scans)
open Script (bytes)

variable {q : Char} {x z : List Char} {s name out : String} {b : Bindings}

def inQuotes (q : Char) (s : String) : String :=
  String.ofList (q :: (escapeQuoted q s.toList ++ [q]))

theorem tokens_inQuotes (hq : q = '\'' ∨ q = '"') (s : String) : Rule.tokens (inQuotes q s) =
    .ok [⟨.str, inQuotes q s, 0, Rule.byteLength (inQuotes q s).toList⟩] := by
  have hpiece := (Rule.piece_quoted_iff (v := []) (isQuote_of_or hq)).2
    (inside_escapeQuoted hq s.toList)
  rw [List.append_nil] at hpiece
  rw [Rule.tokens, inQuotes, String.toList_ofList,
    Rule.lexemes_eq_ok.2 (.step hpiece (.refl []))]
  simp [Except.map, Rule.place, Rule.Lexeme.token?]

theorem fill_quoted (hr : name ∉ reservedRoots) (hs : b.get? name = some (.str s)) :
    (Part.hole name (.quoted q)).fill b = .ok (escapeQuoted q s.toList) := by
  simp [Part.fill, hr, hs, Position.write, Json.render]

theorem substituteRule_quoted (hq : q = '\'' ∨ q = '"') (hn : Text.isIdent name = true)
    (hr : name ∉ reservedRoots) (hs : b.get? name = some (.str s))
    (hx : scan (.code, 0) x (q :: ((Segment.hole name).text ++ [q]) ++ z) = (.code, 0)) :
    substituteRule (String.ofList (x ++ q :: ((Segment.hole name).text ++ [q]) ++ z)) b = .ok out ↔
      ∃ u v, substituteRule (String.ofList x) b = .ok u ∧
        substituteRule (String.ofList z) b = .ok v ∧ out = u ++ inQuotes q s ++ v := by
  have hbody : Rule.inside q false (Segment.hole name).text = some false := by
    have hname : IsName name := (hole?_eq_some.1 (hole?_of_isIdent hn [])).1
    simpa [Segment.text, Rule.inside] using inside_hole hq hname false []
  obtain ⟨hin, hbehind⟩ := scan_literal hq hbody hx
  have hargument (w : List Char) : Becomes b (x ++ [q]) (Segment.hole name).text (q :: z) w ↔
      w = escapeQuoted q s.toList := by
    rw [Becomes, hin, image_hole hn, fill_quoted hr hs, Except.ok.injEq, eq_comm]
  rw [becomes_literal_iff hq String.toList_ofList]
  simp only [hargument, becomes_end hbehind]
  constructor
  · rintro ⟨u, _, v, hu, rfl, hv, ho⟩
    refine ⟨_, _, hu, hv, String.toList_inj.1 ?_⟩
    simp [ho, inQuotes]
  · rintro ⟨u, v, hu, hv, rfl⟩
    refine ⟨u.toList, _, v.toList, by simpa using hu, rfl, by simpa using hv, ?_⟩
    simp [inQuotes]

/-- An argument in quotes is one token of a rule, and what the interpreter reads from it are the
bytes of the argument. -/
theorem quoted_argument_reads_back (hq : q = '\'' ∨ q = '"') (s : String) :
    Rule.tokens (inQuotes q s) =
        .ok [⟨.str, inQuotes q s, 0, Rule.byteLength (inQuotes q s).toList⟩] ∧
      (∃ ts, Script.Token.all (inQuotes q s) = .ok ts ∧
        ts.map Script.Located.token = [.str (bytes s), .finish]) ∧
      (∀ r us, Scans ((inQuotes q s).toList ++ r) us ↔
        ∃ vs, us = .str (bytes s) :: vs ∧ Scans r vs) ∧
      (∀ h v, Script.Operation.binary .eq (Script.Exchange.value h v).1 (.str (bytes s)) =
        .ok (.bool true) ↔ v = .str s) ∧
      ∀ {b : Bindings} {name out : String} {x z : List Char}, Text.isIdent name = true →
        name ∉ reservedRoots → b.get? name = some (.str s) →
        scan (.code, 0) x (q :: ((Segment.hole name).text ++ [q]) ++ z) = (.code, 0) →
        (substituteRule (String.ofList (x ++ q :: ((Segment.hole name).text ++ [q]) ++ z)) b =
            .ok out ↔
          ∃ u v, substituteRule (String.ofList x) b = .ok u ∧
            substituteRule (String.ofList z) b = .ok v ∧ out = u ++ inQuotes q s ++ v) := by
  have hscans (r : List Char) (us : List Script.Token) :
      Scans ((inQuotes q s).toList ++ r) us ↔ ∃ vs, us = .str (bytes s) :: vs ∧ Scans r vs := by
    have := Script.Token.scans_quoted hq s.toList r us
    simpa [inQuotes] using this
  refine ⟨tokens_inQuotes hq s, ?_, hscans, fun h v => Script.Operation.binary_eq_str h v s,
    fun hn hr hs hx => substituteRule_quoted hq hn hr hs hx⟩
  rw [Script.Token.all_eq_ok]
  have := (hscans [] [.str (bytes s), .finish]).2 ⟨_, rfl, .nil⟩
  rwa [List.append_nil] at this

/-- A quote, a backslash in front of an `n`, a line break, a zero in front of digits, and a
character of two bytes. -/
theorem quoted_argument_reads_back_escapes :
    inQuotes '\'' "d'\\n\n\x0041é" = "'d\\'\\\\n\\n\\x0041é'" ∧
      Rule.tokens "'d\\'\\\\n\\n\\x0041é'" =
        .ok [⟨.str, "'d\\'\\\\n\\n\\x0041é'", 0, 18⟩] ∧
      (∃ ts, Script.Token.all "'d\\'\\\\n\\n\\x0041é'" = .ok ts ∧
        ts.map Script.Located.token = [.str (bytes "d'\\n\n\x0041é"), .finish]) ∧
      substituteRule "a == '{x}' or b" [("x", .str "d'\\n\n\x0041é")] =
        .ok "a == 'd\\'\\\\n\\n\\x0041é' or b" := by
  obtain ⟨htokens, hall, -, -, hrule⟩ :=
    quoted_argument_reads_back (q := '\'') (.inl rfl) "d'\\n\n\x0041é"
  have hwritten : inQuotes '\'' "d'\\n\n\x0041é" = "'d\\'\\\\n\\n\\x0041é'" := by decide
  rw [hwritten] at htokens hall
  refine ⟨hwritten, htokens, hall, ?_⟩
  have htext : "a == '{x}' or b" = String.ofList
      ("a == ".toList ++ '\'' :: ((Segment.hole "x").text ++ ['\'']) ++ " or b".toList) := by decide
  rw [htext]
  refine (hrule (by decide) (by decide) rfl (by decide)).2 ⟨"a == ", " or b", by cbv, by cbv, ?_⟩
  rw [hwritten]
  decide

end Rulebook.Template
