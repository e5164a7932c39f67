import Rulebook.Session
import Rulebook.Proofs.Acceptance
import Rulebook.Proofs.Except
import Rulebook.Proofs.Fields

namespace Rulebook.Ruleset

namespace DocumentId

variable {s name version : String} {id : DocumentId}

theorem toList_of (name version : String) :
    (DocumentId.of name version).text.toList = name.toList ++ '@' :: version.toList := by
  simp [DocumentId.of]

theorem bne_of_not_mem (hat : '@' ∉ name.toList) : ∀ c ∈ name.toList, (c != '@') = true :=
  fun _ hc => bne_iff_ne.2 fun he => hat (he ▸ hc)

theorem name_of (hat : '@' ∉ name.toList) : (DocumentId.of name version).name = name := by
  rw [DocumentId.name, toList_of, List.takeWhile_append_of_pos (bne_of_not_mem hat)]
  simp

theorem version_of (hat : '@' ∉ name.toList) : (DocumentId.of name version).version = version := by
  rw [DocumentId.version, toList_of, List.dropWhile_append_of_pos (bne_of_not_mem hat)]
  simp

theorem of_parts (h : id.version ≠ "") : DocumentId.of id.name id.version = id := by
  have hsplit := List.takeWhile_append_dropWhile (p := (· != '@')) (l := id.text.toList)
  have hat := List.head?_dropWhile_not (· != '@') id.text.toList
  cases hd : id.text.toList.dropWhile (· != '@') with
  | nil =>
    refine absurd ?_ h
    rw [DocumentId.version, hd]
    rfl
  | cons c r =>
    rw [hd] at hsplit hat
    obtain rfl : c = '@' := by simpa using hat
    have htext : (DocumentId.of id.name id.version).text = id.text := by
      rw [← String.toList_inj, toList_of, DocumentId.name, DocumentId.version, hd]
      simpa using hsplit
    exact congrArg DocumentId.mk htext

theorem parse?_eq_some {full : DocumentId} :
    parse? s = some full ↔ full.text = s ∧ full.name ≠ "" ∧ full.version ≠ "" := by
  unfold parse?
  dsimp only
  constructor
  · intro h
    split at h
    · cases h
    · next hc =>
      simp only [Bool.or_eq_true, String.isEmpty_iff, not_or] at hc
      rw [of_parts hc.2] at h
      cases h
      exact ⟨rfl, hc⟩
  · rintro ⟨rfl, hname, hversion⟩
    rw [if_neg (by simp [hname, hversion]), of_parts hversion]

theorem text_of_parse? {full : DocumentId} (h : parse? s = some full) : full.text = s :=
  (parse?_eq_some.1 h).1

theorem at_mem_of_parse? {full : DocumentId} (h : parse? s = some full) : '@' ∈ s.toList := by
  obtain ⟨rfl, -, hversion⟩ := parse?_eq_some.1 h
  rw [← of_parts hversion, toList_of]
  simp

theorem parse?_text (hname : id.name ≠ "") (hversion : id.version ≠ "") :
    parse? id.text = some id :=
  parse?_eq_some.2 ⟨rfl, hname, hversion⟩

end DocumentId

variable {f g : Format} {bytes more : ByteArray} {d e : Document}

theorem metadata_of_load (h : loadAs f bytes = .ok d) :
    d.metadata.id ≠ "" ∧ '@' ∉ d.metadata.id.toList ∧ d.metadata.version ≠ "" := by
  obtain ⟨draft, -, hw, rfl⟩ := loadAs_eq_ok.1 h
  have hid := ne_empty_of_not_blank hw.metadata.id
  have hversion :=
    ne_empty_of_not_blank ((versionText_not_blank_iff draft.metadata).2 hw.metadata.version)
  rw [Bool.eq_false_iff, ne_eq, String.isEmpty_iff] at hid hversion
  exact ⟨hid, hw.metadata.noAtSign, hversion⟩

theorem id_eq_iff (hd : loadAs f bytes = .ok d) (he : loadAs g more = .ok e) : d.id = e.id ↔
    d.metadata.id = e.metadata.id ∧ d.metadata.version = e.metadata.version := by
  obtain ⟨-, hat, -⟩ := metadata_of_load hd
  obtain ⟨-, hat', -⟩ := metadata_of_load he
  constructor
  · intro h
    have hname := congrArg DocumentId.name h
    have hversion := congrArg DocumentId.version h
    rw [Document.id, Document.id, DocumentId.name_of hat, DocumentId.name_of hat'] at hname
    rw [Document.id, Document.id, DocumentId.version_of hat, DocumentId.version_of hat'] at hversion
    exact ⟨hname, hversion⟩
  · rintro ⟨hname, hversion⟩
    rw [Document.id, Document.id, hname, hversion]

/-- The id of a loaded document is its name and its version, which are read back from the id and
from its text. Two loaded documents have the same id exactly if they have the same name and the same
version; otherwise either of them stays as it is in a session when the other one is added. -/
theorem id_identifies (hd : loadAs f bytes = .ok d) (he : loadAs g more = .ok e) :
    d.id.text = d.metadata.id ++ "@" ++ d.metadata.version ∧
    d.id.name = d.metadata.id ∧ d.id.version = d.metadata.version ∧
    DocumentId.parse? d.id.text = some d.id ∧
    (d.id = e.id ↔
      d.metadata.id = e.metadata.id ∧ d.metadata.version = e.metadata.version) ∧
    ∀ s : Session, Fields.get? (s.add e).loaded d.id.text =
      if d.metadata.id = e.metadata.id ∧ d.metadata.version = e.metadata.version then some e
      else Fields.get? s.loaded d.id.text := by
  obtain ⟨hid, hat, hversion⟩ := metadata_of_load hd
  have hname : d.id.name = d.metadata.id := DocumentId.name_of hat
  have hrest : d.id.version = d.metadata.version := DocumentId.version_of hat
  refine ⟨rfl, hname, hrest, DocumentId.parse?_text (hname ▸ hid) (hrest ▸ hversion),
    id_eq_iff hd he, fun s => ?_⟩
  have htext : d.id.text = e.id.text ↔ d.id = e.id :=
    ⟨congrArg DocumentId.mk, congrArg DocumentId.text⟩
  rw [Session.add, Fields.get?_insert]
  simp only [htext, id_eq_iff hd he]

def realmText (version : String) : String :=
  "\x7b\"metadata\":\x7b\"id\":\"realm\",\"name\":\"Realm\",\"version\":\"" ++ version ++
    "\"\x7d\x7d"

theorem id_identifies_realm : ∃ d e, loadAs .json (realmText "1.0@beta").toUTF8 = .ok d ∧
    loadAs .json (realmText "1.0").toUTF8 = .ok e ∧ d.id.text = "realm@1.0@beta" ∧
    d.id.name = "realm" ∧ d.id.version = "1.0@beta" ∧
    DocumentId.parse? "realm@1.0@beta" = some d.id ∧ d.id ≠ e.id ∧
    Fields.get? (((Session.start none).add d).add e).loaded "realm@1.0@beta" = some d := by
  have hbeta : (loadAs .json (realmText "1.0@beta").toUTF8).toOption.any (fun d =>
      decide (d.metadata.id = "realm" ∧ d.metadata.version = "1.0@beta")) = true := by
    decide +kernel
  have hfinal : (loadAs .json (realmText "1.0").toUTF8).toOption.any (fun d =>
      decide (d.metadata.id = "realm" ∧ d.metadata.version = "1.0")) = true := by decide +kernel
  obtain ⟨d, hd, hdm⟩ := exists_of_toOption_any hbeta
  obtain ⟨e, he, hem⟩ := exists_of_toOption_any hfinal
  obtain ⟨hdid, hdversion⟩ := of_decide_eq_true hdm
  obtain ⟨heid, heversion⟩ := of_decide_eq_true hem
  obtain ⟨htext, hname, hversion, hparse, hiff, hkept⟩ := id_identifies hd he
  have hne : ¬ (d.metadata.id = e.metadata.id ∧ d.metadata.version = e.metadata.version) := by
    rw [hdversion, heversion]
    exact fun h => absurd h.2 (by decide)
  have htext : d.id.text = "realm@1.0@beta" := by
    rw [htext, hdid, hdversion]
    decide
  rw [htext] at hparse hkept
  refine ⟨d, e, hd, he, htext, hname.trans hdid, hversion.trans hdversion, hparse,
    mt hiff.1 hne, ?_⟩
  rw [hkept, if_neg hne, ← htext]
  exact Fields.get?_insert_self d.id.text d []

end Rulebook.Ruleset
