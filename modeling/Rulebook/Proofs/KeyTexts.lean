import Rulebook.Proofs.LonePieces

namespace Rulebook.Script.Token

/-- A bracket behind this token gives the key of a field in a table: a script that compiles opens no
index there. -/
def opensField (t : Token) : Bool := t.isSign "\x7b" || t.isSign "," || t.isSign ";"

def key? : List Token → Option ByteArray
  | a :: t :: b :: _ => if a.isSign "[" && b.isSign "]" then t.text? else none
  | _ => none

def keysFrom (field : Bool) : List Token → List ByteArray
  | [] => []
  | t :: ts => (if field then none else key? (t :: ts)).toList ++ keysFrom t.opensField ts

def keys (ts : List Token) : List ByteArray := keysFrom false ts

end Rulebook.Script.Token

namespace Rulebook.Rule

open Script (bytes)
open Script.Token (Scans keys keysFrom key?)

variable {l : Lexeme} {ls : List Lexeme} {us : List Script.Token}

/-- The text is that of a name which the filter refuses. -/
def Dangerous (s : ByteArray) : Prop := ∃ name, s = bytes name ∧ danger? name ≠ none

def Lexeme.value? (l : Lexeme) : Option ByteArray :=
  match l.spelled with
  | [.str s] => some s
  | _ => none

theorem spelled_of_value? {s : ByteArray} (h : l.value? = some s) : l.spelled = [.str s] := by
  unfold Lexeme.value? at h
  split at h
  · next heq =>
    cases h
    exact heq
  · cases h

/-- What the filter compares is what the literal denotes. -/
def Lexeme.isFaithful (l : Lexeme) : Bool :=
  l.kind = some .str && l.value? = some (bytes l.contents)

def unseen (behind : Bool) : List Lexeme → List Script.Token
  | [] => []
  | l :: ls =>
    if l.breaksEarly then []
    else if l.kind = none then l.spelled ++ unseen behind ls
    else (if behind && l.isFaithful then [.sign "nil"] else l.spelled) ++ unseen l.isOpening ls

/-- A token, or `nil` in place of a text that is not dangerous. -/
inductive Blanked : Script.Token → Script.Token → Prop
  | same (t : Script.Token) : Blanked t t
  | text {s : ByteArray} (h : ¬ Dangerous s) : Blanked (.str s) (.sign "nil")

theorem not_dangerous {name : String} (h : danger? name = none) : ¬ Dangerous (bytes name) := by
  rintro ⟨other, he, hd⟩
  rw [Script.bytes_inj.1 he] at h
  exact hd h

/-- The filter has compared what the tokens lack. -/
theorem blanked_rule {before : Option Token} {offset : Nat}
    (h : violationsFrom before (place offset ls) = []) :
    List.Forall₂ Blanked (heardTokens ls) (unseen (before.any (·.isPunct "[")) ls) := by
  have hsame (ts : List Script.Token) : List.Forall₂ Blanked ts ts :=
    List.forall₂_same.2 fun t _ => .same t
  induction ls generalizing before offset with
  | nil => exact .nil
  | cons l ls ih =>
    rw [heardTokens, unseen]
    split
    · exact .nil
    cases hk : l.kind with
    | none =>
      rw [if_pos rfl]
      rw [place, Lexeme.token?, hk] at h
      exact List.rel_append (hsame _) (ih h)
    | some k =>
      rw [if_neg (Option.some_ne_none k)]
      rw [place, Lexeme.token?, hk] at h
      obtain ⟨hd, hrest⟩ := List.append_eq_nil_iff.1 h
      have hopening : (some (Token.mk k (String.ofList l.text) offset
          (offset + byteLength l.text))).any (·.isPunct "[") = l.isOpening := by
        obtain ⟨kind, text⟩ := l
        obtain rfl : kind = some k := hk
        have ht : String.ofList text = "[" ↔ text = ['['] := by
          rw [show "[" = String.ofList ['['] from rfl, String.ofList_inj]
        simp [Token.isPunct, Lexeme.isOpening, ht]
      refine List.rel_append ?_ (hopening ▸ ih hrest)
      split
      · next hb =>
        obtain ⟨hbehind, hfaithful⟩ := Bool.and_eq_true_iff.1 hb
        simp only [Lexeme.isFaithful, hk, Bool.and_eq_true, decide_eq_true_eq] at hfaithful
        obtain ⟨hstr, hvalue⟩ := hfaithful
        obtain rfl := Option.some.inj hstr
        have hsafe : danger? l.contents = none := by
          simp only [Option.toList_eq_nil_iff, Option.map_eq_none_iff, Token.danger?, hbehind,
            if_true] at hd
          exact hd
        rw [spelled_of_value? hvalue]
        exact .cons (.text (not_dangerous hsafe)) .nil
      · exact hsame _

theorem Blanked.isSign {a b : Script.Token} (h : Blanked a b) {s : String} (hs : s ≠ "nil") :
    b.isSign s = a.isSign s := by
  cases h with
  | same => rfl
  | text => simp [Script.Token.isSign, hs.symm]

theorem key?_blanked {as bs : List Script.Token} (h : List.Forall₂ Blanked as bs) :
    (∀ k ∈ key? as, ¬ Dangerous k) ↔ ∀ k ∈ key? bs, ¬ Dangerous k := by
  cases h with
  | nil => rfl
  | cons ha h =>
    cases h with
    | nil => rfl
    | cons ht h =>
      cases h with
      | nil => rfl
      | cons hb h =>
        simp only [key?, ha.isSign (s := "[") (by decide), hb.isSign (s := "]") (by decide)]
        cases ht with
        | same => rfl
        | text hs =>
          split
          · simp [Script.Token.text?, hs]
          · rfl

theorem Blanked.opensField {a b : Script.Token} (h : Blanked a b) :
    b.opensField = a.opensField := by
  simp only [Script.Token.opensField, h.isSign (s := "\x7b") (by decide),
    h.isSign (s := ",") (by decide), h.isSign (s := ";") (by decide)]

theorem keysFrom_blanked {as bs : List Script.Token} (h : List.Forall₂ Blanked as bs)
    (field : Bool) : (∀ k ∈ keysFrom field as, ¬ Dangerous k) ↔
      ∀ k ∈ keysFrom field bs, ¬ Dangerous k := by
  induction h generalizing field with
  | nil => rfl
  | @cons a b as bs hab hs ih =>
    simp only [keysFrom, List.forall_mem_append, Option.mem_toList, hab.opensField, ih]
    cases field with
    | true => rfl
    | false => exact and_congr_left fun _ => key?_blanked (.cons hab hs)

def Bare (a b : Script.Token) : Prop := a.isSign "[" = true → b.text? = none

theorem keysFrom_bare {ts : List Script.Token} (h : ts.IsChain Bare) (field : Bool) :
    keysFrom field ts = [] := by
  induction ts generalizing field with
  | nil => rfl
  | cons a ts ih =>
    have hkey : key? (a :: ts) = none := by
      cases ts with
      | nil => rfl
      | cons b ts =>
        cases ts with
        | nil => rfl
        | cons c ts =>
          have hb : Bare a b := (List.isChain_cons_cons.1 h).1
          rw [key?]
          split
          · next hs => exact hb (Bool.and_eq_true_iff.1 hs).1
          · rfl
    rw [keysFrom, hkey, ih (List.IsChain.tail h)]
    cases field <;> rfl

theorem bare_unseen (hls : ∀ l ∈ ls, l.breaksEarly = false)
    (h : ∀ l ∈ ls, ∃ k, l.spelled = k.toList ∧ l.Denotes k) {behind : Bool} {a : Script.Token}
    (ha : a.isSign "[" = true → behind = true) :
    (a :: (unseen behind ls ++ [.sign ")", .finish])).IsChain Bare := by
  induction ls generalizing behind a with
  | nil =>
    exact .cons_cons (fun _ => rfl) (.cons_cons (fun _ => rfl) (.singleton _))
  | cons l ls ih =>
    have ih (behind : Bool) (a : Script.Token) := @ih
      (fun l' hl' => hls l' (List.mem_cons_of_mem _ hl'))
      (fun l' hl' => h l' (List.mem_cons_of_mem _ hl')) behind a
    obtain ⟨k, hs, hd⟩ := h l List.mem_cons_self
    rw [unseen, if_neg (by simp [hls l List.mem_cons_self])]
    cases k with
    | none =>
      rw [if_pos (hd.none.1 rfl), hs]
      exact ih behind a ha
    | some t =>
      rw [if_neg (fun hk => nomatch hd.none.2 hk), List.append_assoc]
      split
      · next hb =>
        exact .cons_cons (fun _ => rfl) (ih l.isOpening _ (fun h => absurd h (by decide)))
      · next hb =>
        rw [hs]
        refine .cons_cons (fun hopen => ?_) (ih l.isOpening t fun ht => ?_)
        · refine Option.eq_none_iff_forall_ne_some.2 fun s hts => hb ?_
          obtain ⟨hk, hs'⟩ := hd.text t rfl s hts
          have ht : t = .str s := by
            cases t <;> simp_all [Script.Token.text?]
          have hvalue : l.value? = some s := by
            rw [Lexeme.value?, hs, ht]
            rfl
          simp [ha hopen, Lexeme.isFaithful, hk, hvalue, hs']
        · rw [← hd.opening]
          exact ht

def piecesOf (e : String) : List Lexeme :=
  match lexemes 0 e.toList with
  | .ok ls => ls
  | .error _ => []

/-- The tokens of a rule without the literals for which the filter compares what they denote. -/
def unseenOf (e : String) : List Script.Token := unseen false (piecesOf e)

def keysOf (ts : List Script.Located) : List ByteArray := keys (ts.map Script.Located.token)

theorem key?_eq_none {t : Script.Token} (h : t.isSign "[" = false) (ts : List Script.Token) :
    key? (t :: ts) = none := by
  unfold key?
  split
  · next heq =>
    cases heq
    simp [h]
  · rfl

theorem keys_return (us : List Script.Token) :
    keys (.sign "return" :: .sign "(" :: us) = keys us := by
  simp only [keys, keysFrom, key?_eq_none (t := .sign "return") (by decide),
    key?_eq_none (t := .sign "(") (by decide)]
  rfl

/-- A rule that passes the filter and compiles indexes with no dangerous text, unless it does so
with a literal for which the filter compares something else than what it denotes, or behind a
carriage return in a comment. If its pieces are plain, it does not. -/
theorem keys_of_isSafe {e low : String} {body : Script.Body} (hsafe : isSafe e = true)
    (hlow : lower e = .ok low) (hchunk : Script.Chunk.parse (returnChunk low) = .ok body) :
    ∃ ts us, Script.Token.all (returnChunk low) = .ok ts ∧
      Script.Token.all (String.ofList (hidden e ++ ['\n', ')'])) = .ok us ∧
      ((∀ k ∈ keysOf ts, ¬ Dangerous k) ↔
        ∀ k ∈ keys (unseenOf e ++ us.map Script.Located.token), ¬ Dangerous k) ∧
      ((∀ l ∈ piecesOf e, l.isPlain = true) → ∀ k ∈ keysOf ts, ¬ Dangerous k) := by
  obtain ⟨ls, hls, rfl⟩ := map_eq_ok.1 hlow
  obtain ⟨-, hne⟩ := pieces_of_isSafe hsafe hls
  obtain ⟨ts, _, _, _, hts, -⟩ := Script.Chunk.parse_eq_ok hchunk
  have hknown := Script.Chunk.known_of_parse hchunk hts
  have hscan := (Script.Token.all_eq_ok _).1 ⟨ts, hts, rfl⟩
  have htext : (returnChunk (String.ofList (ls.flatMap Lexeme.lowered))).toList =
      "return (\n".toList ++ closed ls := by
    simp [returnChunk, closed]
  rw [htext] at hscan
  obtain ⟨vs, hmap, hscan⟩ := scans_returnChunk.1 hscan
  have hknown' : ∀ t ∈ vs, Script.Chunk.Known t := by
    have hall : ∀ t ∈ ts.map Script.Located.token, Script.Chunk.Known t := by simpa using hknown
    rw [hmap] at hall
    exact fun t ht => hall t (List.mem_cons_of_mem _ (List.mem_cons_of_mem _ ht))
  obtain ⟨us, hus, rfl, hstands⟩ := scans_rule (lexemes_eq_ok.1 hls) hne hscan hknown'
  have hpieces : piecesOf e = ls := by rw [piecesOf, hls]
  have hhidden : hidden e = unread ls := by rw [hidden, hls]
  obtain ⟨vs, hvs, rfl⟩ := (Script.Token.all_eq_ok us).2
    (show Scans (String.ofList (hidden e ++ ['\n', ')'])).toList us by
      rwa [String.toList_ofList, hhidden])
  have hv : violationsFrom none (place 0 ls) = [] := by
    simpa [isSafe, violations, tokens, hls, Except.map] using hsafe
  -- token for token the filter has compared what the script indexes with
  have hiff : (∀ k ∈ keysOf ts, ¬ Dangerous k) ↔
      ∀ k ∈ keys (unseenOf e ++ vs.map Script.Located.token), ¬ Dangerous k := by
    rw [keysOf, hmap, keys_return, unseenOf, hpieces]
    exact keysFrom_blanked (List.rel_append (blanked_rule hv)
      (List.forall₂_same.2 fun t _ => .same t)) false
  refine ⟨ts, vs, hts, hvs, hiff, fun hplain => hiff.2 ?_⟩
  rw [hpieces] at hplain
  have hbreaks : ∀ l ∈ ls, l.breaksEarly = false := fun l hl =>
    breaksEarly_of_isPlain (hplain l hl)
  rw [unread_eq_nil.2 hbreaks] at hus
  have hchain : (Script.Token.finish :: (unseen false ls ++ [.sign ")", .finish])).IsChain Bare :=
    bare_unseen hbreaks (fun l hl => (hstands hbreaks l hl).denotes (hplain l hl) (hne l hl))
      (fun h => by cases h)
  have htail := List.isChain_of_isChain_cons hchain
  rw [unseenOf, hpieces, scans_closing.1 hus, keys, keysFrom_bare htail]
  exact List.forall_mem_nil _

theorem keys_of_index :
    ∃ body ts, Script.Chunk.parse (returnChunk "a['b']  and  c") = .ok body ∧
      Script.Token.all (returnChunk "a['b']  and  c") = .ok ts ∧
      keysOf ts = [bytes "b"] ∧ ∀ k ∈ keysOf ts, ¬ Dangerous k := by
  have hlow : lower "a['b'] && c" = .ok "a['b']  and  c" := by cbv
  have hplain : ∀ l ∈ piecesOf "a['b'] && c", l.isPlain = true := List.all_eq_true.1 (by cbv)
  obtain ⟨body, hbody⟩ : ∃ body, Script.Chunk.parse (returnChunk "a['b']  and  c") = .ok body :=
    isOk_iff.1 (by decide +kernel)
  obtain ⟨ts, -, hts, -, -, hfine⟩ := keys_of_isSafe (by cbv) hlow hbody
  have hkey : ((Script.Token.all (returnChunk "a['b']  and  c")).toOption.any fun ts =>
      decide (keysOf ts = [bytes "b"])) = true := by decide +kernel
  rw [hts] at hkey
  exact ⟨body, ts, hbody, hts, of_decide_eq_true hkey, hfine hplain⟩

/-- A rule that passes the filter indexes with a text that this refuses, its first letter written as
an escape. -/
theorem escaped_key :
    ∃ body ts, isSafe "string['\\100ump']" = true ∧
      lower "string['\\100ump']" = .ok "string['\\100ump']" ∧
      Script.Chunk.parse (returnChunk "string['\\100ump']") = .ok body ∧
      Script.Token.all (returnChunk "string['\\100ump']") = .ok ts ∧
      bytes "dump" ∈ keysOf ts ∧ Dangerous (bytes "dump") := by
  have hsafe : isSafe "string['\\100ump']" = true := by decide +kernel
  have hlow : lower "string['\\100ump']" = .ok "string['\\100ump']" := by cbv
  obtain ⟨body, hbody⟩ : ∃ body, Script.Chunk.parse (returnChunk "string['\\100ump']") = .ok body :=
    isOk_iff.1 (by decide +kernel)
  have hkey : ((Script.Token.all (returnChunk "string['\\100ump']")).toOption.any fun ts =>
      decide (keysOf ts = [bytes "dump"])) = true := by decide +kernel
  obtain ⟨ts, hts, hkey⟩ := exists_of_toOption_any hkey
  refine ⟨body, ts, hsafe, hlow, hbody, hts, ?_, "dump", rfl, by decide⟩
  rw [of_decide_eq_true hkey]
  exact List.mem_singleton_self _

end Rulebook.Rule
