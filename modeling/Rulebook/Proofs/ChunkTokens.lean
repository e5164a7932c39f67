import Rulebook.Script.Chunk
import Rulebook.Proofs.ScriptLexing

namespace Rulebook.Script.Chunk

def signs : List String :=
  Token.reserved ++
    ["+", "-", "*", "/", "//", "%", "^", "#", "&", "~", "|", "<<", ">>", "==", "~=", "<=", ">=",
      "<", ">", "=", "(", ")", "\x7b", "\x7d", "[", "]", "::", ";", ":", ",", ".", "..", "..."]

def Known : Token → Prop
  | .sign s => s ∈ signs
  | _ => True

def Took (ts r : Tokens) : Prop := ∃ p, ts = p ++ r ∧ ∀ t ∈ p, Known t.token

variable {fuel start rank : Nat} {s s' : Scope} {ts ts' r : Tokens} {t : Located} {e e' : Expr}
  {w opener : String}

theorem Took.refl (ts : Tokens) : Took ts ts := ⟨[], rfl, by simp⟩

theorem Took.trans (h : Took ts ts') (h' : Took ts' r) : Took ts r := by
  obtain ⟨p, rfl, hp⟩ := h
  obtain ⟨p', rfl, hp'⟩ := h'
  refine ⟨p ++ p', by simp, fun t ht => ?_⟩
  rcases List.mem_append.1 ht with ht | ht
  · exact hp t ht
  · exact hp' t ht

theorem Took.cons (ht : Known t.token) (h : Took ts r) : Took (t :: ts) r :=
  Took.trans ⟨[t], rfl, by simpa using ht⟩ h

theorem took_sign (h : atSign w ts = true) (hw : w ∈ signs) : Took ts ts.tail := by
  unfold atSign at h
  split at h
  · obtain rfl := eq_of_beq h
    exact .cons hw (.refl _)
  · cases h

theorem took_expect (h : expect w ts = .ok r) (hw : w ∈ signs) : Took ts r := by
  unfold expect at h
  split at h
  · next hs =>
    cases h
    exact took_sign hs hw
  · cases h

theorem took_closing (h : closing w opener start ts = .ok r) (hw : w ∈ signs) : Took ts r := by
  unfold closing at h
  split at h
  · next hs =>
    cases h
    exact took_sign hs hw
  · split at h <;> cases h

theorem took_name {n : String} (h : name ts = .ok (n, r)) : Took ts r := by
  unfold name at h
  split at h
  · cases h
    exact .cons trivial (.refl _)
  · cases h

theorem took_mark {m : Mark} (h : mark ts = .ok (m, r)) : Took ts r := by
  unfold mark at h
  split at h
  · next hs =>
    simp only [bind_eq_ok] at h
    obtain ⟨⟨n, ts₁⟩, hn, ts₂, he, h⟩ := h
    have := (took_sign hs (by decide)).trans ((took_name hn).trans (took_expect he (by decide)))
    split at h
    · cases h
      exact this
    · cases h
      exact this
    · cases h
  · cases h
    exact .refl _

theorem took_names {acc ns : List String} (h : names fuel ts acc = .ok (ns, r)) : Took ts r := by
  induction fuel generalizing ts acc with
  | zero => cases h
  | succ fuel ih =>
    simp only [names, bind_eq_ok] at h
    obtain ⟨⟨n, ts₁⟩, hn, h⟩ := h
    split at h
    · next hs => exact (took_name hn).trans ((took_sign hs (by decide)).trans (ih h))
    · cases h
      exact took_name hn

theorem took_markedNames {acc ns : List (String × Mark)}
    (h : markedNames fuel ts acc = .ok (ns, r)) : Took ts r := by
  induction fuel generalizing ts acc with
  | zero => cases h
  | succ fuel ih =>
    simp only [markedNames, bind_eq_ok] at h
    obtain ⟨⟨n, ts₁⟩, hn, ⟨m, ts₂⟩, hm, h⟩ := h
    have := (took_name hn).trans (took_mark hm)
    split at h
    · next hs => exact this.trans ((took_sign hs (by decide)).trans (ih h))
    · split at h
      · cases h
      · cases h
        exact this

theorem took_parameters {acc : List String} {ps : List String × Bool}
    (h : parameters fuel ts acc = .ok (ps, r)) : Took ts r := by
  induction fuel generalizing ts acc with
  | zero => cases h
  | succ fuel ih =>
    simp only [parameters] at h
    split at h
    · next hs =>
      simp only [bind_eq_ok] at h
      obtain ⟨ts₁, he, h⟩ := h
      cases h
      exact (took_sign hs (by decide)).trans (took_expect he (by decide))
    · simp only [bind_eq_ok] at h
      obtain ⟨⟨n, ts₁⟩, hn, h⟩ := h
      split at h
      · next hs => exact (took_name hn).trans ((took_sign hs (by decide)).trans (ih h))
      · simp only [bind_eq_ok] at h
        obtain ⟨ts₂, he, h⟩ := h
        cases h
        exact (took_name hn).trans (took_expect he (by decide))

theorem took_unary {op : Unary} (h : unary? (token ts) = some op) : Took ts ts.tail := by
  cases ts with
  | nil => cases h
  | cons t ts =>
    refine .cons ?_ (.refl ts)
    simp only [token] at h
    unfold unary? at h
    split at h
    · next ht => exact ht ▸ (by decide : "not" ∈ signs)
    · next ht => exact ht ▸ (by decide : "-" ∈ signs)
    · next ht => exact ht ▸ (by decide : "~" ∈ signs)
    · next ht => exact ht ▸ (by decide : "#" ∈ signs)
    · cases h

theorem took_operator {o : Operator × Nat × Nat} (h : operator? (token ts) = some o) :
    Took ts ts.tail := by
  cases ts with
  | nil => cases h
  | cons t ts =>
    refine .cons ?_ (.refl ts)
    simp only [token] at h
    -- one case for each of the operators
    unfold operator? at h
    split at h
    case h_22 => cases h
    all_goals
      next ht =>
        rw [ht]
        simp only [Known]
        decide

/-- What is proved of all functions of the parser at once, by induction on the fuel. -/
structure Sound (fuel : Nat) : Prop where
  expr {s : Scope} {rank : Nat} {ts r : Tokens} {e : Expr} :
    Chunk.expr fuel s rank ts = .ok (e, r) → Took ts r
  operators {s : Scope} {rank : Nat} {e e' : Expr} {ts r : Tokens} :
    Chunk.operators fuel s rank e ts = .ok (e', r) → Took ts r
  simple {s : Scope} {ts r : Tokens} {e : Expr} : Chunk.simple fuel s ts = .ok (e, r) → Took ts r
  primary {s : Scope} {ts r : Tokens} {e : Expr} : Chunk.primary fuel s ts = .ok (e, r) → Took ts r
  suffixes {s : Scope} {e e' : Expr} {ts r : Tokens} :
    Chunk.suffixes fuel s e ts = .ok (e', r) → Took ts r
  arguments {s : Scope} {ts r : Tokens} {es : List Expr} :
    Chunk.arguments fuel s ts = .ok (es, r) → Took ts r
  exprs {s : Scope} {ts r : Tokens} {acc es : List Expr} :
    Chunk.exprs fuel s ts acc = .ok (es, r) → Took ts r
  fields {s : Scope} {start : Nat} {ts r : Tokens} {acc fs : List Field} :
    Chunk.fields fuel s start ts acc = .ok (fs, r) → Took ts r
  function {s : Scope} {isMethod : Bool} {start : Nat} {ts r : Tokens} {f : Body} :
    Chunk.function fuel s isMethod start ts = .ok (f, r) → Took ts r
  block {s s' : Scope} {ts r : Tokens} {acc body : List Stmt} :
    Chunk.block fuel s ts acc = .ok (body, s', r) → Took ts r
  closedBlock {s : Scope} {opener : String} {start : Nat} {ts r : Tokens} {body : List Stmt} :
    Chunk.closedBlock fuel s opener start ts = .ok (body, r) → Took ts r
  statement {s : Scope} {ts r : Tokens} {st : Stmt} {vars : List (String × Mark)} :
    Chunk.statement fuel s ts = .ok (st, vars, r) → Took ts r
  targets {s : Scope} {ts r : Tokens} {acc targets : List Target} :
    Chunk.targets fuel s ts acc = .ok (targets, r) → Took ts r
  functionName {e e' : Expr} {isMethod : Bool} {ts r : Tokens} :
    Chunk.functionName fuel e ts = .ok (e', isMethod, r) → Took ts r
  branch {s : Scope} {start : Nat} {ts r : Tokens} {st : Stmt} :
    Chunk.branch fuel s start ts = .ok (st, r) → Took ts r
  forLoop {s : Scope} {start : Nat} {ts r : Tokens} {st : Stmt} :
    Chunk.forLoop fuel s start ts = .ok (st, r) → Took ts r

section Step

variable (h : Sound fuel)
include h

theorem took_expr (he : expr (fuel + 1) s rank ts = .ok (e, r)) : Took ts r := by
  simp only [expr, bind_eq_ok] at he
  obtain ⟨s', -, he⟩ := he
  split at he
  · next hu =>
    simp only [bind_eq_ok] at he
    obtain ⟨⟨e₁, ts₁⟩, h₁, _, h₂, h₃⟩ := he
    cases h₂
    exact (took_unary hu).trans ((h.expr h₁).trans (h.operators h₃))
  · simp only [bind_eq_ok] at he
    obtain ⟨⟨e₁, ts₁⟩, h₁, h₂⟩ := he
    exact (h.simple h₁).trans (h.operators h₂)

theorem took_operators (he : operators (fuel + 1) s rank e ts = .ok (e', r)) : Took ts r := by
  simp only [operators] at he
  split at he
  · next ho =>
    split at he
    · simp only [bind_eq_ok] at he
      obtain ⟨⟨b, ts₁⟩, h₁, h₂⟩ := he
      exact (took_operator ho).trans ((h.expr h₁).trans (h.operators h₂))
    · cases he
      exact .refl _
  · cases he
    exact .refl _

theorem took_simple (he : simple (fuel + 1) s ts = .ok (e, r)) : Took ts r := by
  rw [simple.eq_def] at he
  simp only at he
  split at he
  · cases he
    exact .cons trivial (.refl _)
  · cases he
    exact .cons trivial (.refl _)
  · cases he
    exact .cons trivial (.refl _)
  · cases he
    exact .cons (by decide : "nil" ∈ signs) (.refl _)
  · cases he
    exact .cons (by decide : "true" ∈ signs) (.refl _)
  · cases he
    exact .cons (by decide : "false" ∈ signs) (.refl _)
  · split at he
    · cases he
      exact .cons (by decide : "..." ∈ signs) (.refl _)
    · cases he
  · simp only [bind_eq_ok] at he
    obtain ⟨⟨fs, ts₁⟩, h₁, he⟩ := he
    cases he
    exact .cons (by decide : "\x7b" ∈ signs) (h.fields h₁)
  · simp only [bind_eq_ok] at he
    obtain ⟨⟨f, ts₁⟩, h₁, he⟩ := he
    cases he
    exact .cons (by decide : "function" ∈ signs) (h.function h₁)
  · simp only [bind_eq_ok] at he
    obtain ⟨⟨e₁, ts₁⟩, h₁, h₂⟩ := he
    exact (h.primary h₁).trans (h.suffixes h₂)

theorem took_primary (he : primary (fuel + 1) s ts = .ok (e, r)) : Took ts r := by
  rw [primary.eq_def] at he
  simp only at he
  split at he
  · cases he
    exact .cons trivial (.refl _)
  · simp only [bind_eq_ok] at he
    obtain ⟨⟨e₁, ts₁⟩, h₁, ts₂, h₂, he⟩ := he
    cases he
    exact .cons (by decide : "(" ∈ signs) ((h.expr h₁).trans (took_closing h₂ (by decide)))
  · cases he

theorem took_suffixes (he : suffixes (fuel + 1) s e ts = .ok (e', r)) : Took ts r := by
  rw [suffixes.eq_def] at he
  simp only at he
  split at he
  · simp only [bind_eq_ok] at he
    obtain ⟨⟨n, ts₁⟩, h₁, h₂⟩ := he
    exact .cons (by decide : "." ∈ signs) ((took_name h₁).trans (h.suffixes h₂))
  · simp only [bind_eq_ok] at he
    obtain ⟨⟨k, ts₁⟩, h₁, ts₂, h₂, h₃⟩ := he
    exact .cons (by decide : "[" ∈ signs)
      ((h.expr h₁).trans ((took_expect h₂ (by decide)).trans (h.suffixes h₃)))
  · simp only [bind_eq_ok] at he
    obtain ⟨⟨n, ts₁⟩, h₁, ⟨args, ts₂⟩, h₂, h₃⟩ := he
    exact .cons (by decide : ":" ∈ signs)
      ((took_name h₁).trans ((h.arguments h₂).trans (h.suffixes h₃)))
  · simp only [bind_eq_ok] at he
    obtain ⟨⟨args, ts₁⟩, h₁, h₂⟩ := he
    exact (h.arguments h₁).trans (h.suffixes h₂)
  · simp only [bind_eq_ok] at he
    obtain ⟨⟨args, ts₁⟩, h₁, h₂⟩ := he
    exact (h.arguments h₁).trans (h.suffixes h₂)
  · simp only [bind_eq_ok] at he
    obtain ⟨⟨args, ts₁⟩, h₁, h₂⟩ := he
    exact (h.arguments h₁).trans (h.suffixes h₂)
  · cases he
    exact .refl _

theorem took_arguments {es : List Expr} (he : arguments (fuel + 1) s ts = .ok (es, r)) :
    Took ts r := by
  rw [arguments.eq_def] at he
  simp only at he
  split at he
  · cases he
    exact .cons trivial (.refl _)
  · simp only [bind_eq_ok] at he
    obtain ⟨⟨fs, ts₁⟩, h₁, he⟩ := he
    cases he
    exact .cons (by decide : "\x7b" ∈ signs) (h.fields h₁)
  · refine .cons (by decide : "(" ∈ signs) ?_
    split at he
    · next hs =>
      cases he
      exact took_sign hs (by decide)
    · simp only [bind_eq_ok] at he
      obtain ⟨⟨es, ts₁⟩, h₁, ts₂, h₂, he⟩ := he
      cases he
      exact (h.exprs h₁).trans (took_closing h₂ (by decide))
  · cases he

theorem took_exprs {acc es : List Expr} (he : exprs (fuel + 1) s ts acc = .ok (es, r)) :
    Took ts r := by
  simp only [exprs, bind_eq_ok] at he
  obtain ⟨⟨e, ts₁⟩, h₁, he⟩ := he
  split at he
  · next hs => exact (h.expr h₁).trans ((took_sign hs (by decide)).trans (h.exprs he))
  · cases he
    exact h.expr h₁

theorem took_fields {acc fs : List Field} (he : fields (fuel + 1) s start ts acc = .ok (fs, r)) :
    Took ts r := by
  simp only [fields] at he
  split at he
  · next hs =>
    cases he
    exact took_sign hs (by decide)
  · have hrest {f : Field} {ts₁ : Tokens} (he : (if (atSign "," ts₁ || atSign ";" ts₁) = true then
        fields fuel s start ts₁.tail (f :: acc)
        else do
          let ts ← closing "\x7d" "\x7b" start ts₁
          .ok ((f :: acc).reverse, ts)) = .ok (fs, r)) : Took ts₁ r := by
      split at he
      · next hs =>
        rcases Bool.or_eq_true_iff.1 hs with hs | hs
        · exact (took_sign hs (by decide)).trans (h.fields he)
        · exact (took_sign hs (by decide)).trans (h.fields he)
      · simp only [bind_eq_ok] at he
        obtain ⟨ts₂, h₁, he⟩ := he
        cases he
        exact took_closing h₁ (by decide)
    split at he
    · simp only [bind_eq_ok] at he
      obtain ⟨⟨v, ts₁⟩, h₁, _, h₂, he⟩ := he
      cases h₂
      exact .cons trivial (.cons (by decide : "=" ∈ signs) ((h.expr h₁).trans (hrest he)))
    · simp only [bind_eq_ok] at he
      obtain ⟨⟨k, ts₁⟩, h₁, ts₂, h₂, ts₃, h₃, ⟨v, ts₄⟩, h₄, _, h₅, he⟩ := he
      cases h₅
      exact .cons (by decide : "[" ∈ signs) ((h.expr h₁).trans ((took_expect h₂ (by decide)).trans
        ((took_expect h₃ (by decide)).trans ((h.expr h₄).trans (hrest he)))))
    · simp only [bind_eq_ok] at he
      obtain ⟨⟨e, ts₁⟩, h₁, _, h₂, he⟩ := he
      cases h₂
      exact (h.expr h₁).trans (hrest he)

theorem took_function {isMethod : Bool} {f : Body}
    (he : function (fuel + 1) s isMethod start ts = .ok (f, r)) : Took ts r := by
  simp only [function, bind_eq_ok] at he
  obtain ⟨ts₁, h₁, he⟩ := he
  refine (took_expect h₁ (by decide)).trans ?_
  split at he
  · next hs =>
    simp only [bind_eq_ok] at he
    obtain ⟨_, h₂, s', -, ⟨body, _, ts₃⟩, h₃, ts₄, h₄, -, -, he⟩ := he
    cases h₂
    cases he
    exact (took_sign hs (by decide)).trans ((h.block h₃).trans (took_closing h₄ (by decide)))
  · simp only [bind_eq_ok] at he
    obtain ⟨_, h₂, s', -, ⟨body, _, ts₃⟩, h₃, ts₄, h₄, -, -, he⟩ := he
    cases he
    exact (took_parameters h₂).trans ((h.block h₃).trans (took_closing h₄ (by decide)))

theorem took_closedBlock {body : List Stmt}
    (he : closedBlock (fuel + 1) s opener start ts = .ok (body, r)) : Took ts r := by
  simp only [closedBlock, bind_eq_ok] at he
  obtain ⟨⟨body, _, ts₁⟩, h₁, ts₂, h₂, he⟩ := he
  cases he
  exact (h.block h₁).trans (took_closing h₂ (by decide))

theorem took_block {acc body : List Stmt} (he : block (fuel + 1) s ts acc = .ok (body, s', r)) :
    Took ts r := by
  simp only [block] at he
  split at he
  · cases he
    exact .refl _
  split at he
  · next hs => exact (took_sign hs (by decide)).trans (h.block he)
  simp only [bind_eq_ok] at he
  obtain ⟨inner, -, he⟩ := he
  split at he
  · next hs =>
    refine (took_sign hs (by decide)).trans ?_
    have hrest {es : List Expr} {ts₁ : Tokens} (he : Except.ok (((Stmt.give es) :: acc).reverse, s,
        if atSign ";" ts₁ = true then ts₁.tail else ts₁) =
          Except.ok (ε := ChunkFault) (body, s', r)) : Took ts₁ r := by
      cases he
      split
      · next hs => exact took_sign hs (by decide)
      · exact .refl _
    split at he
    · exact hrest he
    · simp only [bind_eq_ok] at he
      obtain ⟨⟨es, ts₁⟩, h₁, he⟩ := he
      exact (h.exprs h₁).trans (hrest he)
  · simp only [bind_eq_ok] at he
    obtain ⟨⟨st, vars, ts₁⟩, h₁, h₂⟩ := he
    exact (h.statement h₁).trans (h.block h₂)

theorem took_targets {acc targets : List Target}
    (he : Chunk.targets (fuel + 1) s ts acc = .ok (targets, r)) : Took ts r := by
  simp only [Chunk.targets] at he
  split at he
  · next hs =>
    simp only [bind_eq_ok] at he
    obtain ⟨s', -, ⟨e, ts₁⟩, h₁, ⟨e', ts₂⟩, h₂, t, -, h₃⟩ := he
    exact (took_sign hs (by decide)).trans
      ((h.primary h₁).trans ((h.suffixes h₂).trans (h.targets h₃)))
  · cases he
    exact .refl _

theorem took_functionName {isMethod : Bool}
    (he : functionName (fuel + 1) e ts = .ok (e', isMethod, r)) : Took ts r := by
  rw [functionName.eq_def] at he
  simp only at he
  split at he
  · simp only [bind_eq_ok] at he
    obtain ⟨⟨n, ts₁⟩, h₁, h₂⟩ := he
    exact .cons (by decide : "." ∈ signs) ((took_name h₁).trans (h.functionName h₂))
  · simp only [bind_eq_ok] at he
    obtain ⟨⟨n, ts₁⟩, h₁, he⟩ := he
    cases he
    exact .cons (by decide : ":" ∈ signs) (took_name h₁)
  · cases he
    exact .refl _

theorem took_branch {st : Stmt} (he : branch (fuel + 1) s start ts = .ok (st, r)) : Took ts r := by
  simp only [branch, bind_eq_ok] at he
  obtain ⟨⟨c, ts₁⟩, h₁, ts₂, h₂, ⟨yes, _, ts₃⟩, h₃, he⟩ := he
  refine (h.expr h₁).trans ((took_expect h₂ (by decide)).trans ((h.block h₃).trans ?_))
  split at he
  · next hs =>
    simp only [bind_eq_ok] at he
    obtain ⟨⟨no, ts₄⟩, h₄, he⟩ := he
    cases he
    exact (took_sign hs (by decide)).trans (h.branch h₄)
  split at he
  · next hs =>
    simp only [bind_eq_ok] at he
    obtain ⟨⟨no, ts₄⟩, h₄, he⟩ := he
    cases he
    exact (took_sign hs (by decide)).trans (h.closedBlock h₄)
  · simp only [bind_eq_ok] at he
    obtain ⟨ts₄, h₄, he⟩ := he
    cases he
    exact took_closing h₄ (by decide)

theorem took_forEach {st : Stmt} {ns : List String}
    (he : (if (!atSign "in" ts) = true then unexpected "'=' or 'in' expected" ts
      else do
        let (es, ts) ← exprs fuel s ts.tail []
        let ts ← expect "do" ts
        let inner ← declare s (ns.map fun n => (n, Mark.plain))
        let (body, ts) ← closedBlock fuel inner "for" start ts
        .ok (.forEach ns.length es body start, ts)) = .ok (st, r)) : Took ts r := by
  split at he
  · cases he
  · next hs =>
    simp only [bind_eq_ok] at he
    obtain ⟨⟨es, ts₁⟩, h₁, ts₂, h₂, s', -, ⟨body, ts₃⟩, h₃, he⟩ := he
    cases he
    have hin : atSign "in" ts = true := by simpa using hs
    exact (took_sign hin (by decide)).trans ((h.exprs h₁).trans
      ((took_expect h₂ (by decide)).trans (h.closedBlock h₃)))

theorem took_forLoop {st : Stmt} (he : forLoop (fuel + 1) s start ts = .ok (st, r)) :
    Took ts r := by
  simp only [forLoop, bind_eq_ok] at he
  obtain ⟨⟨n, ts₁⟩, h₁, he⟩ := he
  refine (took_name h₁).trans ?_
  split at he
  · next hs =>
    simp only [bind_eq_ok] at he
    obtain ⟨⟨a, ts₂⟩, h₂, ts₃, h₃, ⟨b, ts₄⟩, h₄, he⟩ := he
    refine (took_sign hs (by decide)).trans ((h.expr h₂).trans
      ((took_expect h₃ (by decide)).trans ((h.expr h₄).trans ?_)))
    split at he
    · next hs =>
      simp only [bind_eq_ok] at he
      obtain ⟨⟨c, ts₅⟩, h₅, _, h₆, ts₆, h₇, s', -, ⟨body, ts₇⟩, h₈, he⟩ := he
      cases h₆
      cases he
      exact (took_sign hs (by decide)).trans ((h.expr h₅).trans
        ((took_expect h₇ (by decide)).trans (h.closedBlock h₈)))
    · simp only [bind_eq_ok] at he
      obtain ⟨_, h₆, ts₆, h₇, s', -, ⟨body, ts₇⟩, h₈, he⟩ := he
      cases h₆
      cases he
      exact (took_expect h₇ (by decide)).trans (h.closedBlock h₈)
  · split at he
    · next hs =>
      simp only [bind_eq_ok] at he
      obtain ⟨⟨ns, ts₂⟩, h₂, he⟩ := he
      exact (took_sign hs (by decide)).trans ((took_names h₂).trans (took_forEach h he))
    · exact took_forEach h he

theorem took_statement {st : Stmt} {vars : List (String × Mark)}
    (he : statement (fuel + 1) s ts = .ok (st, vars, r)) : Took ts r := by
  rw [statement.eq_def] at he
  simp only at he
  split at he
  · simp only [bind_eq_ok] at he
    obtain ⟨⟨st, ts₁⟩, h₁, he⟩ := he
    cases he
    exact .cons (by decide : "if" ∈ signs) (h.branch h₁)
  · simp only [bind_eq_ok] at he
    obtain ⟨⟨c, ts₁⟩, h₁, ts₂, h₂, ⟨body, ts₃⟩, h₃, he⟩ := he
    cases he
    exact .cons (by decide : "while" ∈ signs)
      ((h.expr h₁).trans ((took_expect h₂ (by decide)).trans (h.closedBlock h₃)))
  · simp only [bind_eq_ok] at he
    obtain ⟨⟨body, ts₁⟩, h₁, he⟩ := he
    cases he
    exact .cons (by decide : "do" ∈ signs) (h.closedBlock h₁)
  · simp only [bind_eq_ok] at he
    obtain ⟨⟨st, ts₁⟩, h₁, he⟩ := he
    cases he
    exact .cons (by decide : "for" ∈ signs) (h.forLoop h₁)
  · simp only [bind_eq_ok] at he
    obtain ⟨⟨body, inner, ts₁⟩, h₁, ts₂, h₂, ⟨c, ts₃⟩, h₃, he⟩ := he
    cases he
    exact .cons (by decide : "repeat" ∈ signs)
      ((h.block h₁).trans ((took_closing h₂ (by decide)).trans (h.expr h₃)))
  · simp only [bind_eq_ok] at he
    obtain ⟨⟨n, ts₁⟩, h₁, ⟨e, isMethod, ts₂⟩, h₂, ⟨f, ts₃⟩, h₃, t, -, he⟩ := he
    cases he
    exact .cons (by decide : "function" ∈ signs)
      ((took_name h₁).trans ((h.functionName h₂).trans (h.function h₃)))
  · simp only [bind_eq_ok] at he
    obtain ⟨⟨n, ts₁⟩, h₁, inner, -, ⟨f, ts₂⟩, h₂, he⟩ := he
    cases he
    exact .cons (by decide : "local" ∈ signs) (.cons (by decide : "function" ∈ signs)
      ((took_name h₁).trans (h.function h₂)))
  · simp only [bind_eq_ok] at he
    obtain ⟨⟨ns, ts₁⟩, h₁, he⟩ := he
    refine .cons (by decide : "local" ∈ signs) ((took_markedNames h₁).trans ?_)
    split at he
    · next hs =>
      simp only [bind_eq_ok] at he
      obtain ⟨⟨es, ts₂⟩, h₂, inner, -, he⟩ := he
      cases he
      exact (took_sign hs (by decide)).trans (h.exprs h₂)
    · simp only [bind_eq_ok] at he
      obtain ⟨_, h₂, inner, -, he⟩ := he
      cases h₂
      cases he
      exact .refl _
  · simp only [bind_eq_ok] at he
    obtain ⟨⟨n, ts₁⟩, h₁, ts₂, h₂, he⟩ := he
    cases he
    exact .cons (by decide : "::" ∈ signs) ((took_name h₁).trans (took_expect h₂ (by decide)))
  · cases he
    exact .cons (by decide : "break" ∈ signs) (.refl _)
  · simp only [bind_eq_ok] at he
    obtain ⟨⟨n, ts₁⟩, h₁, he⟩ := he
    cases he
    exact .cons (by decide : "goto" ∈ signs) (took_name h₁)
  · simp only [bind_eq_ok] at he
    obtain ⟨⟨e, ts₁⟩, h₁, ⟨e', ts₂⟩, h₂, he⟩ := he
    refine (h.primary h₁).trans ((h.suffixes h₂).trans ?_)
    split at he
    · simp only [bind_eq_ok] at he
      obtain ⟨t, -, ⟨targets, ts₃⟩, h₃, ts₄, h₄, ⟨es, ts₅⟩, h₅, he⟩ := he
      cases he
      exact (h.targets h₃).trans ((took_expect h₄ (by decide)).trans (h.exprs h₅))
    · split at he
      · cases he
        exact .refl _
      · cases he
        exact .refl _
      · cases he

end Step

theorem sound (fuel : Nat) : Sound fuel := by
  induction fuel with
  | zero =>
    constructor <;> simp [expr, operators, simple, primary, suffixes, arguments, exprs, fields,
      function, block, closedBlock, statement, Chunk.targets, functionName, branch, forLoop]
  | succ fuel h =>
    exact ⟨took_expr h, took_operators h, took_simple h, took_primary h, took_suffixes h,
      took_arguments h, took_exprs h, took_fields h, took_function h, took_block h,
      took_closedBlock h, took_statement h, took_targets h, took_functionName h, took_branch h,
      took_forLoop h⟩

inductive Plain : Expr → Prop
  | nil : Plain .nil
  | bool (b : Bool) : Plain (.bool b)
  | int (n : Int64) : Plain (.int n)
  | float (x : Float) : Plain (.float x)
  | str (s : ByteArray) : Plain (.str s)
  | varargs : Plain .varargs
  | var (index : Nat) : Plain (.var index)
  | first {e : Expr} (h : Plain e) : Plain (.first e)
  | index {t k : Expr} {line : Nat} (ht : Plain t) (hk : Plain k) : Plain (.index t k line)
  | call {f : Expr} {args : List Expr} {line : Nat} (hf : Plain f)
    (hargs : ∀ a ∈ args, Plain a) : Plain (.call f args line)
  | method {t : Expr} {name : ByteArray} {args : List Expr} {line : Nat} (ht : Plain t)
    (hargs : ∀ a ∈ args, Plain a) : Plain (.method t name args line)
  | unary {op : Unary} {e : Expr} {line : Nat} (h : Plain e) : Plain (.unary op e line)
  | binary {op : Binary} {a b : Expr} {line : Nat} (ha : Plain a) (hb : Plain b) :
    Plain (.binary op a b line)
  | and {a b : Expr} (ha : Plain a) (hb : Plain b) : Plain (.and a b)
  | or {a b : Expr} (ha : Plain a) (hb : Plain b) : Plain (.or a b)
  | table {fields : List Field} (hitems : ∀ e, .item e ∈ fields → Plain e)
    (hkeys : ∀ k v line, .pair k v line ∈ fields → Plain k)
    (hvalues : ∀ k v line, .pair k v line ∈ fields → Plain v) : Plain (.table fields)

def Quiet (ts : Tokens) : Prop := ∀ t ∈ ts, t.token ≠ .sign "function"

theorem Quiet.of_took (hq : Quiet ts) (h : Took ts r) : Quiet r := by
  obtain ⟨p, rfl, -⟩ := h
  exact fun t ht => hq t (List.mem_append_right p ht)

theorem quiet_tail (hq : Quiet (t :: ts)) : Quiet ts :=
  fun t ht => hq t (List.mem_cons_of_mem _ ht)

def PlainField : Field → Prop
  | .item e => Plain e
  | .pair k v _ => Plain k ∧ Plain v

theorem plain_table {fs : List Field} (h : ∀ f ∈ fs, PlainField f) : Plain (.table fs) :=
  .table (fun _ he => h _ he) (fun _ _ _ he => (h _ he).1) fun _ _ _ he => (h _ he).2

theorem plain_one (h : Plain e) : Plain e.one := by
  unfold Expr.one
  split
  · exact .first h
  · exact h

theorem plain_named (s : Scope) (n : String) (line : Nat) : Plain (named s n line) := by
  unfold named
  split
  · exact .var _
  · split
    · exact .index (.var _) (.str _)
    · exact .nil

theorem plain_apply {o : Operator} {a b : Expr} {line : Nat} (ha : Plain a) (hb : Plain b) :
    Plain (o.apply a b line) := by
  cases o with
  | strict => exact .binary ha hb
  | and => exact .and ha hb
  | or => exact .or ha hb

theorem forall_mem_reverse {α : Type} {p : α → Prop} {x : α} {xs : List α} (hx : p x)
    (hxs : ∀ y ∈ xs, p y) : ∀ y ∈ (x :: xs).reverse, p y := by
  intro y hy
  rcases List.mem_cons.1 (List.mem_reverse.1 hy) with rfl | hy
  · exact hx
  · exact hxs y hy

structure Still (fuel : Nat) : Prop where
  expr {s : Scope} {rank : Nat} {ts r : Tokens} {e : Expr} (hq : Quiet ts) :
    Chunk.expr fuel s rank ts = .ok (e, r) → Plain e
  operators {s : Scope} {rank : Nat} {e e' : Expr} {ts r : Tokens} (hq : Quiet ts) (h : Plain e) :
    Chunk.operators fuel s rank e ts = .ok (e', r) → Plain e'
  simple {s : Scope} {ts r : Tokens} {e : Expr} (hq : Quiet ts) :
    Chunk.simple fuel s ts = .ok (e, r) → Plain e
  primary {s : Scope} {ts r : Tokens} {e : Expr} (hq : Quiet ts) :
    Chunk.primary fuel s ts = .ok (e, r) → Plain e
  suffixes {s : Scope} {e e' : Expr} {ts r : Tokens} (hq : Quiet ts) (h : Plain e) :
    Chunk.suffixes fuel s e ts = .ok (e', r) → Plain e'
  arguments {s : Scope} {ts r : Tokens} {es : List Expr} (hq : Quiet ts) :
    Chunk.arguments fuel s ts = .ok (es, r) → ∀ e ∈ es, Plain e
  exprs {s : Scope} {ts r : Tokens} {acc es : List Expr} (hq : Quiet ts) (h : ∀ e ∈ acc, Plain e) :
    Chunk.exprs fuel s ts acc = .ok (es, r) → ∀ e ∈ es, Plain e
  fields {s : Scope} {start : Nat} {ts r : Tokens} {acc fs : List Field} (hq : Quiet ts)
    (h : ∀ f ∈ acc, PlainField f) :
    Chunk.fields fuel s start ts acc = .ok (fs, r) → ∀ f ∈ fs, PlainField f

section StillStep

variable (h : Still fuel) (hq : Quiet ts)
include h hq

theorem still_expr (he : expr (fuel + 1) s rank ts = .ok (e, r)) : Plain e := by
  have hs := sound fuel
  simp only [expr, bind_eq_ok] at he
  obtain ⟨s', -, he⟩ := he
  split at he
  · next hu =>
    simp only [bind_eq_ok] at he
    obtain ⟨⟨e₁, ts₁⟩, h₁, _, h₂, h₃⟩ := he
    cases h₂
    have hq₁ := hq.of_took (took_unary hu)
    exact h.operators (hq₁.of_took (hs.expr h₁)) (.unary (h.expr hq₁ h₁)) h₃
  · simp only [bind_eq_ok] at he
    obtain ⟨⟨e₁, ts₁⟩, h₁, h₂⟩ := he
    exact h.operators (hq.of_took (hs.simple h₁)) (h.simple hq h₁) h₂

theorem still_operators (hp : Plain e) (he : operators (fuel + 1) s rank e ts = .ok (e', r)) :
    Plain e' := by
  simp only [operators] at he
  split at he
  · next ho =>
    split at he
    · simp only [bind_eq_ok] at he
      obtain ⟨⟨b, ts₁⟩, h₁, h₂⟩ := he
      have hq₁ := hq.of_took (took_operator ho)
      exact h.operators (hq₁.of_took ((sound fuel).expr h₁)) (plain_apply hp (h.expr hq₁ h₁)) h₂
    · cases he
      exact hp
  · cases he
    exact hp

theorem still_simple (he : simple (fuel + 1) s ts = .ok (e, r)) : Plain e := by
  rw [simple.eq_def] at he
  simp only at he
  split at he
  · cases he
    exact .int _
  · cases he
    exact .float _
  · cases he
    exact .str _
  · cases he
    exact .nil
  · cases he
    exact .bool true
  · cases he
    exact .bool false
  · split at he
    · cases he
      exact .varargs
    · cases he
  · simp only [bind_eq_ok] at he
    obtain ⟨⟨fs, ts₁⟩, h₁, he⟩ := he
    cases he
    exact plain_table (h.fields (quiet_tail hq) (by simp) h₁)
  · exact absurd rfl (hq _ List.mem_cons_self)
  · simp only [bind_eq_ok] at he
    obtain ⟨⟨e₁, ts₁⟩, h₁, h₂⟩ := he
    exact h.suffixes (hq.of_took ((sound fuel).primary h₁)) (h.primary hq h₁) h₂

theorem still_primary (he : primary (fuel + 1) s ts = .ok (e, r)) : Plain e := by
  rw [primary.eq_def] at he
  simp only at he
  split at he
  · cases he
    exact plain_named _ _ _
  · simp only [bind_eq_ok] at he
    obtain ⟨⟨e₁, ts₁⟩, h₁, ts₂, -, he⟩ := he
    have hp := h.expr (quiet_tail hq) h₁
    split at he
    · cases he
      exact .first hp
    · cases he
      exact .first hp
    · cases he
      exact plain_one hp
  · cases he

theorem still_call {here : Nat} (hp : Plain e) (he : (do
      let (args, r) ← arguments fuel s ts
      suffixes fuel s (.call e args here) r) = .ok (e', r)) : Plain e' := by
  simp only [bind_eq_ok] at he
  obtain ⟨⟨args, ts₁⟩, h₁, h₂⟩ := he
  exact h.suffixes (hq.of_took ((sound fuel).arguments h₁)) (.call hp (h.arguments hq h₁)) h₂

theorem still_suffixes (hp : Plain e) (he : suffixes (fuel + 1) s e ts = .ok (e', r)) :
    Plain e' := by
  have hs := sound fuel
  rw [suffixes.eq_def] at he
  simp only at he
  split at he
  · simp only [bind_eq_ok] at he
    obtain ⟨⟨n, ts₁⟩, h₁, h₂⟩ := he
    exact h.suffixes ((quiet_tail hq).of_took (took_name h₁)) (.index hp (.str _)) h₂
  · simp only [bind_eq_ok] at he
    obtain ⟨⟨k, ts₁⟩, h₁, ts₂, h₂, h₃⟩ := he
    have hq₁ := (quiet_tail hq).of_took ((hs.expr h₁).trans (took_expect h₂ (by decide)))
    exact h.suffixes hq₁ (.index hp (h.expr (quiet_tail hq) h₁)) h₃
  · simp only [bind_eq_ok] at he
    obtain ⟨⟨n, ts₁⟩, h₁, ⟨args, ts₂⟩, h₂, h₃⟩ := he
    have hq₁ := (quiet_tail hq).of_took (took_name h₁)
    exact h.suffixes (hq₁.of_took (hs.arguments h₂)) (.method hp (h.arguments hq₁ h₂)) h₃
  · exact still_call h hq hp he
  · exact still_call h hq hp he
  · exact still_call h hq hp he
  · cases he
    exact hp

theorem still_arguments {es : List Expr} (he : arguments (fuel + 1) s ts = .ok (es, r)) :
    ∀ e ∈ es, Plain e := by
  rw [arguments.eq_def] at he
  simp only at he
  split at he
  · cases he
    simpa using Plain.str _
  · simp only [bind_eq_ok] at he
    obtain ⟨⟨fs, ts₁⟩, h₁, he⟩ := he
    cases he
    simpa using plain_table (h.fields (quiet_tail hq) (by simp) h₁)
  · split at he
    · cases he
      simp
    · simp only [bind_eq_ok] at he
      obtain ⟨⟨es, ts₁⟩, h₁, ts₂, -, he⟩ := he
      cases he
      exact h.exprs (quiet_tail hq) (by simp) h₁
  · cases he

theorem still_exprs {acc es : List Expr} (hp : ∀ e ∈ acc, Plain e)
    (he : exprs (fuel + 1) s ts acc = .ok (es, r)) : ∀ e ∈ es, Plain e := by
  simp only [exprs, bind_eq_ok] at he
  obtain ⟨⟨e, ts₁⟩, h₁, he⟩ := he
  have hp₁ := h.expr hq h₁
  split at he
  · next hs =>
    have hq₁ := hq.of_took (((sound fuel).expr h₁).trans (took_sign hs (by decide)))
    exact h.exprs hq₁ (by simpa using ⟨hp₁, hp⟩) he
  · cases he
    exact forall_mem_reverse hp₁ hp

theorem still_fields {acc fs : List Field} (hp : ∀ f ∈ acc, PlainField f)
    (he : fields (fuel + 1) s start ts acc = .ok (fs, r)) : ∀ f ∈ fs, PlainField f := by
  have hs := sound fuel
  simp only [fields] at he
  split at he
  · cases he
    simpa using hp
  · have hrest {f : Field} {ts₁ : Tokens} (hf : PlainField f) (hq₁ : Quiet ts₁)
        (he : (if (atSign "," ts₁ || atSign ";" ts₁) = true then
          fields fuel s start ts₁.tail (f :: acc)
        else do
          let ts ← closing "\x7d" "\x7b" start ts₁
          .ok ((f :: acc).reverse, ts)) = .ok (fs, r)) : ∀ f ∈ fs, PlainField f := by
      split at he
      · next hs =>
        refine h.fields ?_ (by simpa using ⟨hf, hp⟩) he
        rcases Bool.or_eq_true_iff.1 hs with hs | hs
        · exact hq₁.of_took (took_sign hs (by decide))
        · exact hq₁.of_took (took_sign hs (by decide))
      · simp only [bind_eq_ok] at he
        obtain ⟨ts₂, -, he⟩ := he
        cases he
        exact forall_mem_reverse hf hp
    split at he
    · simp only [bind_eq_ok] at he
      obtain ⟨⟨v, ts₁⟩, h₁, _, h₂, he⟩ := he
      cases h₂
      have hq₁ := quiet_tail (quiet_tail hq)
      exact hrest (f := .pair _ _ _) ⟨.str _, h.expr hq₁ h₁⟩ (hq₁.of_took (hs.expr h₁)) he
    · simp only [bind_eq_ok] at he
      obtain ⟨⟨k, ts₁⟩, h₁, ts₂, h₂, ts₃, h₃, ⟨v, ts₄⟩, h₄, _, h₅, he⟩ := he
      cases h₅
      have hq₁ := quiet_tail hq
      have hq₂ := hq₁.of_took ((hs.expr h₁).trans
        ((took_expect h₂ (by decide)).trans (took_expect h₃ (by decide))))
      exact hrest (f := .pair _ _ _) ⟨h.expr hq₁ h₁, h.expr hq₂ h₄⟩ (hq₂.of_took (hs.expr h₄)) he
    · simp only [bind_eq_ok] at he
      obtain ⟨⟨e, ts₁⟩, h₁, _, h₂, he⟩ := he
      cases h₂
      exact hrest (f := .item e) (h.expr hq h₁) (hq.of_took (hs.expr h₁)) he

end StillStep

theorem still (fuel : Nat) : Still fuel := by
  induction fuel with
  | zero =>
    constructor <;> simp [expr, operators, simple, primary, suffixes, arguments, exprs, fields]
  | succ fuel h =>
    exact ⟨still_expr h, still_operators h, still_simple h, still_primary h, still_suffixes h,
      fun hq => still_arguments h hq, fun hq => still_exprs h hq, fun hq => still_fields h hq⟩

theorem parse_eq_ok {text : String} {body : Body} (h : parse text = .ok body) :
    ∃ ts sts s' r, Token.all text = .ok ts ∧
      block (16 * ts.length + 64) outermost ts [] = .ok (sts, s', r) ∧ token r = .finish ∧
        body = .mk 0 true sts := by
  simp only [parse, bind_eq_ok] at h
  obtain ⟨ts, hts, ⟨sts, s', r⟩, hb, -, -, h⟩ := h
  split at h
  · next hf =>
    cases h
    exact ⟨ts, sts, s', r, hts, hb, hf, rfl⟩
  · cases h

theorem mem_of_map_eq_concat {α β : Type} {f : α → β} {p r : List α} {a : α} {vs : List β}
    (h : (p ++ a :: r).map f = vs ++ [f a]) (ha : f a ∉ vs) : r = [] := by
  rcases List.eq_nil_or_concat r with hr | ⟨r', z, rfl⟩
  · exact hr
  · rw [List.concat_eq_append, ← List.cons_append, ← List.append_assoc, List.map_append] at h
    have := (List.append_inj' h rfl).1
    exact absurd (by simp [← this]) ha

theorem known_of_parse {text : String} {body : Body} {ts : Tokens} (h : parse text = .ok body)
    (hts : Token.all text = .ok ts) : ∀ t ∈ ts, Known t.token := by
  obtain ⟨ts', sts, s', r, hts', hb, hf, -⟩ := parse_eq_ok h
  rw [hts] at hts'
  cases hts'
  obtain ⟨p, rfl, hp⟩ := (sound _).block hb
  intro t ht
  rcases List.mem_append.1 ht with ht | ht
  · exact hp t ht
  -- nothing stands behind the end
  cases r with
  | nil => cases ht
  | cons u r =>
    obtain ⟨vs, hvs, hne⟩ := ((Token.all_eq_ok _).1 ⟨_, hts, rfl⟩).finish
    have hu : u.token = .finish := hf
    rw [← hu] at hvs
    obtain rfl := mem_of_map_eq_concat hvs fun hm => hne _ hm hu
    obtain rfl := List.mem_singleton.1 ht
    rw [hu]
    trivial

/-- A chunk that begins with `return` and has no function is one statement. -/
theorem give_of_parse {text : String} {body : Body} {ts : Tokens} {line : Nat}
    (h : parse text = .ok body) (hts : Token.all text = .ok (⟨.sign "return", line⟩ :: ts))
    (hq : Quiet ts) : ∃ es, body = .mk 0 true [.give es] ∧ ∀ e ∈ es, Plain e := by
  obtain ⟨ts', sts, s', r, hts', hb, hf, rfl⟩ := parse_eq_ok h
  rw [hts] at hts'
  cases hts'
  obtain ⟨fuel, hfuel⟩ : ∃ fuel,
      16 * (⟨.sign "return", line⟩ :: ts : Tokens).length + 64 = fuel + 1 := ⟨_, rfl⟩
  rw [hfuel] at hb
  simp only [block] at hb
  rw [if_neg (by simp [token, endsBlock]), if_neg (by simp [atSign]), bind_eq_ok] at hb
  obtain ⟨inner, -, hb⟩ := hb
  rw [if_pos (by simp [atSign])] at hb
  split at hb
  · cases hb
    exact ⟨[], rfl, by simp⟩
  · simp only [bind_eq_ok] at hb
    obtain ⟨⟨es, ts₁⟩, h₁, hb⟩ := hb
    cases hb
    exact ⟨es, rfl, (still _).exprs hq (by simp) h₁⟩

end Rulebook.Script.Chunk
