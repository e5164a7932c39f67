import Rulebook.Proofs.LoadedFunctions

namespace Rulebook.Ruleset

theorem Phase.rank_injective : Function.Injective Phase.rank := by
  intro p q h
  cases p <;> cases q <;> first | rfl | cases h

namespace PhaseMap

variable {α : Type} {m : PhaseMap α}

def Sorted (m : PhaseMap α) : Prop := m.Pairwise fun e f => e.1.rank < f.1.rank

theorem mem_phases_iff {p : Phase} : p ∈ m.phases ↔ ∃ v, get? m p = some v := by
  refine ⟨fun h => ?_, fun ⟨v, h⟩ => mem_phases_of_get? h⟩
  induction m with
  | nil => cases h
  | cons e m ih =>
    rw [get?_cons]
    by_cases hp : p = e.1
    · exact ⟨e.2, if_pos hp⟩
    · rw [if_neg hp]
      exact ih ((List.mem_cons.1 h).resolve_left hp)

theorem mem_phases_insert {p q : Phase} {v : α} :
    q ∈ (insert p v m).phases ↔ q = p ∨ q ∈ m.phases := by
  simp only [mem_phases_iff, get?_insert]
  by_cases h : q = p <;> simp [h]

theorem Sorted.tail {e : Phase × α} (h : Sorted (e :: m)) : Sorted m := (List.pairwise_cons.1 h).2

theorem Sorted.rank_lt {e : Phase × α} (h : Sorted (e :: m)) {p : Phase} (hp : p ∈ phases m) :
    e.1.rank < p.rank := by
  obtain ⟨f, hf, rfl⟩ := List.mem_map.1 hp
  exact (List.pairwise_cons.1 h).1 f hf

theorem sorted_insert (h : Sorted m) (p : Phase) (v : α) : Sorted (insert p v m) := by
  induction m with
  | nil => simp [insert, Sorted]
  | cons e m ih =>
    obtain ⟨q, w⟩ := e
    by_cases hlt : p.rank < q.rank
    · rw [insert, if_pos hlt]
      refine List.pairwise_cons.2 ⟨fun f hf => ?_, h⟩
      rcases List.mem_cons.1 hf with rfl | hf
      · exact hlt
      · exact hlt.trans ((List.pairwise_cons.1 h).1 f hf)
    · by_cases he : p = q
      · subst he
        rw [insert, if_neg hlt, if_pos rfl]
        exact List.pairwise_cons.2 ⟨(List.pairwise_cons.1 h).1, h.tail⟩
      · rw [insert, if_neg hlt, if_neg he]
        refine List.pairwise_cons.2 ⟨fun f hf => ?_, ih h.tail⟩
        have hq : q.rank < p.rank :=
          lt_of_le_of_ne (not_lt.1 hlt) fun hr => he (Phase.rank_injective hr.symm)
        rcases mem_phases_insert.1 (List.mem_map_of_mem hf : f.1 ∈ phases (insert p v m)) with
          hf | hf
        · exact hf ▸ hq
        · exact h.rank_lt hf

theorem Sorted.nodup_phases (h : Sorted m) : m.phases.Nodup := by
  rw [phases, List.Nodup, List.pairwise_map]
  exact h.imp fun hlt he => hlt.ne (congrArg Phase.rank he)

theorem Sorted.mem_iff (h : Sorted m) {p : Phase} {v : α} : (p, v) ∈ m ↔ get? m p = some v := by
  induction m with
  | nil => simp [get?]
  | cons e m ih =>
    obtain ⟨q, w⟩ := e
    rw [get?_cons, List.mem_cons, ih h.tail, Prod.mk.injEq]
    by_cases hp : p = q
    · subst hp
      have hno : get? m p ≠ some v := fun hg => (h.rank_lt (mem_phases_of_get? hg)).false
      simp [hno, eq_comm]
    · simp [hp]

theorem Sorted.ext {n : PhaseMap α} (hm : Sorted m) (hn : Sorted n)
    (h : ∀ p, get? m p = get? n p) : m = n := by
  have hperm : m.Perm n := by
    rw [List.perm_ext_iff_of_nodup hm.nodup_phases.of_map hn.nodup_phases.of_map]
    rintro ⟨p, v⟩
    rw [hm.mem_iff, hn.mem_iff, h]
  exact hperm.eq_of_pairwise (fun e f _ _ hef hfe => (hef.asymm hfe).elim) hm hn

end PhaseMap

section ByPhase

variable {α β : Type} (read : String → α → β) {entries : Fields α}

theorem sorted_byPhase (entries : Fields α) : (byPhase read entries).Sorted := by
  induction entries using List.reverseRecOn with
  | nil => exact List.Pairwise.nil
  | append_singleton entries entry ih =>
    rw [byPhase_append]
    split
    · exact PhaseMap.sorted_insert ih _ _
    · exact ih

theorem mem_phases_byPhase {p : Phase} :
    p ∈ (byPhase read entries).phases ↔ ∃ entry ∈ entries, Phase.parse? entry.1 = some p := by
  induction entries using List.reverseRecOn with
  | nil => simp [byPhase, PhaseMap.phases]
  | append_singleton entries entry ih =>
    rw [byPhase_append]
    simp only [List.mem_append, List.mem_singleton, or_and_right, exists_or, exists_eq_left, ← ih]
    cases Phase.parse? entry.1 with
    | none => simp
    | some q =>
      rw [PhaseMap.mem_phases_insert, Option.some.injEq, or_comm, eq_comm]

def keyPhases (entries : Fields α) : List (Option Phase) :=
  entries.map fun entry => Phase.parse? entry.1

/-- Where no two keys fold to one phase, every entry is kept. -/
theorem get?_byPhase_iff (h : (keyPhases entries).Nodup) {p : Phase} {v : β} :
    PhaseMap.get? (byPhase read entries) p = some v ↔
      ∃ entry ∈ entries, Phase.parse? entry.1 = some p ∧ read entry.1 entry.2 = v := by
  refine ⟨mem_of_byPhase read, ?_⟩
  rintro ⟨entry, he, hp, rfl⟩
  obtain ⟨w, hw⟩ := PhaseMap.mem_phases_iff.1 ((mem_phases_byPhase read).2 ⟨entry, he, hp⟩)
  obtain ⟨other, ho, hq, rfl⟩ := mem_of_byPhase read hw
  rw [hw, List.inj_on_of_nodup_map h ho he (hq.trans hp.symm)]

/-- A map by phases has as many entries as its source exactly if no two keys fold to one phase. -/
theorem length_byPhase_iff (h : ∀ entry ∈ entries, ∃ p, Phase.parse? entry.1 = some p) :
    (byPhase read entries).length = entries.length ↔ (keyPhases entries).Nodup := by
  have hperm : ((byPhase read entries).phases.map some).Perm (keyPhases entries).dedup := by
    rw [List.perm_ext_iff_of_nodup
      ((sorted_byPhase read entries).nodup_phases.map (Option.some_injective _))
      (List.nodup_dedup _)]
    intro q
    rw [List.mem_dedup, keyPhases, List.mem_map, List.mem_map]
    constructor
    · rintro ⟨p, hp, rfl⟩
      exact (mem_phases_byPhase read).1 hp
    · rintro ⟨entry, he, rfl⟩
      obtain ⟨p, hp⟩ := h entry he
      exact ⟨p, (mem_phases_byPhase read).2 ⟨entry, he, hp⟩, hp.symm⟩
  have hlength : (byPhase read entries).length = (keyPhases entries).dedup.length := by
    rw [← hperm.length_eq, List.length_map, PhaseMap.phases, List.length_map]
  have hkeys : (keyPhases entries).length = entries.length := List.length_map _
  rw [hlength, ← hkeys, ← List.dedup_eq_self]
  exact ⟨(List.dedup_sublist _).eq_of_length, congrArg List.length⟩

end ByPhase

theorem validate_eq_ok {d : Draft} {doc : Document} :
    d.validate = .ok doc ↔ d.WellFormed ∧ d.document = doc := by
  rw [← violations_eq_nil, Draft.validate]
  cases d.violations <;> simp

/-- Of an accepted draft the prompt templates are kept exactly if no two of their keys fold to one
phase, and of the function lists no two keys ever do. Whatever the keys, a phase has a template
exactly if the draft has one for it, and then one of those. -/
theorem prompts_kept_iff {d : Draft} {doc : Document} (h : d.validate = .ok doc) :
    ((doc.prompts.length = d.prompts.length ∧ ∀ entry ∈ d.prompts, ∃ p,
        Phase.parse? entry.1 = some p ∧ doc.prompt? p = some entry.2) ↔
      (keyPhases d.prompts).Nodup) ∧
    (keyPhases d.functions).Nodup ∧
    ∀ p, ((∃ text, doc.prompt? p = some text) ↔
        ∃ entry ∈ d.prompts, Phase.parse? entry.1 = some p) ∧
      ∀ text, doc.prompt? p = some text →
        ∃ entry ∈ d.prompts, Phase.parse? entry.1 = some p ∧ entry.2 = text := by
  obtain ⟨hw, rfl⟩ := validate_eq_ok.1 h
  have hprompts : d.document.prompts = byPhase (fun _ text => text) d.prompts := rfl
  simp only [Document.prompt?, hprompts]
  refine ⟨⟨fun hkept => (length_byPhase_iff _ hw.prompts).1 hkept.1, fun hn =>
    ⟨(length_byPhase_iff _ hw.prompts).2 hn, fun entry he => ?_⟩⟩, hw.phasesDistinct, fun p =>
    ⟨?_, fun text htext => ?_⟩⟩
  · obtain ⟨p, hp⟩ := hw.prompts entry he
    exact ⟨p, hp, (get?_byPhase_iff _ hn).2 ⟨entry, he, hp, rfl⟩⟩
  · rw [← PhaseMap.mem_phases_iff, mem_phases_byPhase]
  · exact mem_of_byPhase (fun _ text => text) htext

def Draft.ofPrompts (prompts : Fields String) : Draft where
  metadata := ⟨"d", "D", .str "1", [], none⟩
  functions := []
  gameData := []
  prompts := prompts

theorem prompts_kept_creation :
    ∃ doc, (Draft.ofPrompts [("Character-Creation", "Who?"), ("combat", "Fight!")]).validate =
        .ok doc ∧ doc.prompts.length = 2 ∧ doc.prompt? .characterCreation = some "Who?" ∧
      doc.prompt? .combat = some "Fight!" := by
  have hok : (Draft.ofPrompts [("Character-Creation", "Who?"), ("combat", "Fight!")]).validate =
      .ok (Draft.ofPrompts [("Character-Creation", "Who?"), ("combat", "Fight!")]).document := by
    rw [validate_eq_ok]
    exact ⟨violations_eq_nil.1 (by decide +kernel), rfl⟩
  have hn : (keyPhases [("Character-Creation", "Who?"), ("combat", "Fight!")]).Nodup := by
    decide +kernel
  obtain ⟨hlength, hkept⟩ := (prompts_kept_iff hok).1.2 hn
  obtain ⟨p, hp, hwho⟩ := hkept ("Character-Creation", "Who?") (.head _)
  obtain ⟨q, hq, hfight⟩ := hkept ("combat", "Fight!") (.tail _ (.head _))
  have hcreation : Phase.parse? "Character-Creation" = some .characterCreation := by decide +kernel
  have hcombat : Phase.parse? "combat" = some .combat := by decide +kernel
  cases hp.symm.trans hcreation
  cases hq.symm.trans hcombat
  exact ⟨_, hok, hlength, hwho, hfight⟩

def spellingsText : String :=
  "\x7b\"metadata\":\x7b\"id\":\"d\",\"name\":\"D\",\"version\":\"1\"\x7d,
   \"promptTemplates\":\x7b\"Combat\":\"Fight!\",\"combat\":\"Run!\"\x7d\x7d"

/-- Two spellings of a phase are accepted, and one of the two templates is lost. -/
theorem spelled_twice_lost :
    Phase.parse? "Combat" = some .combat ∧ Phase.parse? "combat" = some .combat ∧
      ∃ d, loadAs .json spellingsText.toUTF8 = .ok d ∧ d.prompts = [(.combat, "Run!")] := by
  have h : (loadAs .json spellingsText.toUTF8).toOption.any
      (fun d => decide (d.prompts = [(.combat, "Run!")])) = true := by decide +kernel
  obtain ⟨d, hd, hprompts⟩ := exists_of_toOption_any h
  exact ⟨by decide +kernel, by decide +kernel, d, hd, of_decide_eq_true hprompts⟩

end Rulebook.Ruleset
