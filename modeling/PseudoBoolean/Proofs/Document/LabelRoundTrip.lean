import PseudoBoolean.Proofs.Document.JsonText
import PseudoBoolean.Proofs.Document.ReadLabels

/-!
# Labels written back

There are three kinds of labels and two shapes of JSON, so a text is read either as a name or as an
ancilla. What is written for a label is read as that label again, except for a name that has the text of
an ancilla, which comes back as the ancilla (`ofJsonText?_jsonText`). Reading never gives such a name, so a
label that has been read once stays the same from then on.
-/

namespace PseudoBoolean.Label

/-- The JSON text of a label. -/
def jsonText (l : Label) : String :=
  l.toJson.compact

/-- The label that a JSON text stands for. -/
def ofJsonText? (text : String) : Option Label :=
  ((Json.parse? text).bind (·.value?)).bind ofJson?

/-- The label that what is written for a label stands for. -/
def reread : Label → Label
  | name s => ofText s
  | l => l

/-- A name that the text of an ancilla would be read as. -/
def IsDisguised (l : Label) : Prop :=
  ∃ s n, l = name s ∧ ofText s = ancilla n

/-- A JSON string that is printed and parsed is read as the label its text spells. -/
theorem ofJsonText?_compact_string (s : String) :
    ofJsonText? (Json.string s).compact = some (ofText s) := by
  rw [ofJsonText?, Json.parse?_compact_string]
  rfl

/-- A label that is written to JSON comes back as the label its spelling is read as. -/
theorem ofJson?_toJson (l : Label) : ofJson? l.toJson = some l.reread := by
  cases l with
  | int n =>
    rw [toJson, ofJson?, if_pos ⟨n.minValue_le_toInt, n.toInt_le⟩, Int64.ofInt_toInt]
    rfl
  | name s => rfl
  | ancilla n => exact congrArg some (ofText_text_ancilla n)

/-- Text and value agree on what is read from a label that has been written. -/
theorem ofJsonText?_jsonText (l : Label) : ofJsonText? l.jsonText = some l.reread := by
  cases l with
  | int n =>
    have hsize : Int64.maxValue.toInt < UInt64.size := by decide
    have hparse : Json.parse? (int n).jsonText = some (.integer n.toInt) :=
      Json.parse?_compact_integer n.minValue_le_toInt (n.toInt_le.trans_lt hsize)
    rw [ofJsonText?, hparse]
    exact ofJson?_toJson (int n)
  | name s => exact ofJsonText?_compact_string s
  | ancilla n =>
    exact (ofJsonText?_compact_string _).trans (congrArg some (ofText_text_ancilla n))

theorem reread_eq_iff {l : Label} : l.reread = l ↔ l.IsRead := by
  cases l <;> simp [reread, IsRead]

/-- The labels that can be read are those that are not names spelled like an ancilla. -/
theorem isRead_iff_not_isDisguised {l : Label} : l.IsRead ↔ ¬ l.IsDisguised := by
  cases l with
  | name s =>
    constructor
    · rintro hs ⟨s', n, heq, hn⟩
      obtain rfl := name.inj heq
      cases hs.symm.trans hn
    · intro h
      rcases ofText_eq_name_or_ancilla s with hs | ⟨n, hn⟩
      · exact hs
      · exact absurd ⟨s, n, rfl, hn⟩ h
  | _ => simp [IsRead, IsDisguised]

/-- Reading gives only labels that survive another round trip. -/
theorem isRead_of_ofJsonText? {text : String} {l : Label} (h : ofJsonText? text = some l) : l.IsRead := by
  obtain ⟨j, -, hj⟩ := Option.bind_eq_some_iff.mp h
  exact isRead_of_ofJson? hj

/-- A label is given back by what is written for it unless it is a name with the text of an ancilla; such
a name comes back as the ancilla. So every number, every ancilla and every label that has been read is
given back. -/
theorem jsonText_roundTrip :
    (∀ l : Label, ofJsonText? l.jsonText = some l ↔ ¬ l.IsDisguised) ∧
    (∀ l : Label, ofJson? l.toJson = some l ↔ ¬ l.IsDisguised) ∧
    (∀ s n, ofText s = ancilla n → ofJsonText? (name s).jsonText = some (ancilla n)) ∧
    (∀ n, ofJsonText? (int n).jsonText = some (int n)) ∧
    (∀ n, ofJsonText? (ancilla n).jsonText = some (ancilla n)) ∧
    (∀ text l, ofJsonText? text = some l → ofJsonText? l.jsonText = some l) ∧
    ∀ j l, ofJson? j = some l → ofJson? l.toJson = some l := by
  have hread : ∀ {l : Label}, l.IsRead → ofJsonText? l.jsonText = some l := fun {l} hl => by
    rw [ofJsonText?_jsonText, reread_eq_iff.mpr hl]
  refine ⟨fun l => ?_, fun l => ?_, fun s n h => ?_, fun n => hread trivial, fun n => hread trivial,
    fun text l h => hread (isRead_of_ofJsonText? h), fun j l h => ?_⟩
  · rw [ofJsonText?_jsonText, Option.some_inj, reread_eq_iff, isRead_iff_not_isDisguised]
  · rw [ofJson?_toJson, Option.some_inj, reread_eq_iff, isRead_iff_not_isDisguised]
  · rw [ofJsonText?_jsonText]
    exact congrArg some h
  · rw [ofJson?_toJson, reread_eq_iff.mpr (isRead_of_ofJson? h)]

/-- The text `__a07` is read as an ancilla, which is written with another text and given back by it; a name
with this text is not given back. -/
theorem jsonText_roundTrip_leadingZero :
    ofJsonText? (ancilla 7).jsonText = some (ancilla 7) ∧
      ofJsonText? "\"__a07\"" = some (ancilla 7) ∧ (ancilla 7).jsonText = "\"__a7\"" ∧
      ofJsonText? (name "__a07").jsonText = some (ancilla 7) ∧
      ofJsonText? (name "__a07").jsonText ≠ some (name "__a07") := by
  have hspelling : ofText "__a07" = ancilla 7 := by decide
  have hread : ofJsonText? "\"__a07\"" = some (ancilla 7) :=
    hspelling ▸ ofJsonText?_compact_string "__a07"
  obtain ⟨hiff, -, hdisguised, -, -, hback, -⟩ := jsonText_roundTrip
  refine ⟨hback _ _ hread, hread, by decide, hdisguised _ _ hspelling, fun h => ?_⟩
  exact (hiff _).mp h ⟨_, _, rfl, hspelling⟩

end PseudoBoolean.Label
