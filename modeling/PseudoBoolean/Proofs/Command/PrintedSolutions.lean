import PseudoBoolean.Proofs.Command.VariableLimit
import PseudoBoolean.Proofs.Document.ReadLabels

/-!
# Printed solutions

A solution is printed as an object whose members are named by the texts of the variables. A number and the
name that consists of its digits have the same text, and then only the value of the name is printed
(`IsHidden`). All other variables of a solution have a member of their own with their value
(`isPrintedAs_ofList`), since the labels of a model that has been loaded have been read.
-/

namespace PseudoBoolean

open PseudoBoolean.Polynomial Model

/-! ## Tables of lists -/

theorem Table.mem_keys_ofList {κ α : Type} [Ord κ] [Std.TransOrd κ] [Std.LawfulEqOrd κ] {k : κ}
    {entries : List (κ × α)} : k ∈ (Table.ofList entries).keys ↔ k ∈ entries.map (·.1) := by
  have key : ∀ t : Table κ α, t.Sorted →
      (k ∈ (entries.foldl (fun t e => t.insert e.1 e.2) t).keys ↔
        k ∈ entries.map (·.1) ∨ k ∈ t.keys) := by
    induction entries with
    | nil => simp
    | cons e entries ih =>
      intro t ht
      rw [List.foldl_cons, ih _ ht.insert, Table.mem_keys, Table.mem_keys, List.map_cons,
        List.mem_cons]
      simp only [Table.mem_insert ht]
      by_cases hk : k = e.1 <;> simp [hk]
  simpa [Table.ofList, Table.keys] using key [] List.Pairwise.nil

/-- Of several entries for one key the last one counts. -/
theorem Table.get?_ofList_append {κ α : Type} [Ord κ] [Std.TransOrd κ] [Std.LawfulEqOrd κ] {k : κ}
    {v : α} {entries : List (κ × α)} (before : List (κ × α)) (hk : k ∉ entries.map (·.1)) :
    (Table.ofList (before ++ (k, v) :: entries)).get? k = some v := by
  rw [Table.ofList, List.foldl_append, List.foldl_cons, Table.get?_insertAll_of_notMem _ hk,
    Table.get?_insert_self]

/-! ## The members for a solution -/

section Members

variable {a : Assignment Label} {v : Label}

/-- The variable is a number, and the name that consists of its digits has a value too. -/
def IsHidden (a : Assignment Label) (v : Label) : Prop :=
  ∃ u ∈ Table.keys a, v.IsTwin u

/-- What the members that are printed for a solution have to do with it. -/
structure IsPrintedAs (a : Assignment Label) (members : Table String Json) : Prop where
  distinct : members.keys.Nodup
  keys : ∀ key, key ∈ members.keys ↔ ∃ v ∈ Table.keys a, v.text = key
  values : ∀ v x, (v, x) ∈ a → ¬ IsHidden a v → members.get? v.text = some (.integer x)
  /-- There are as many members as variables exactly if no variable is hidden. -/
  complete_iff : members.length = a.length ↔ ∀ v ∈ Table.keys a, ¬ IsHidden a v

/-- Different variables of a solution have different texts if none is hidden. -/
theorem nodup_texts_iff (ha : a.Sorted) (hread : ∀ v ∈ Table.keys a, v.IsRead) :
    ((Table.keys a).map Label.text).Nodup ↔ ∀ v ∈ Table.keys a, ¬ IsHidden a v := by
  rw [List.nodup_map_iff_inj_on ha.keys_nodup]
  constructor
  · rintro hinjective v hv ⟨u, hu, htwin⟩
    cases v with
    | int n =>
      cases u with
      | name s => cases hinjective _ hv _ hu htwin.symm
      | _ => exact htwin
    | _ => exact htwin
  · intro hnone u hu v hv htext
    rcases (hread u hu).eq_or_of_text_eq (hread v hv) htext with h | h | h
    · exact h
    · exact absurd ⟨v, hv, h⟩ (hnone u hu)
    · exact absurd ⟨u, hu, h⟩ (hnone v hv)

/-- In the order of the labels a name comes after the number that it hides. -/
theorem not_isTwin_of_lt {u : Label} (h : compare v u = .lt) : ¬ u.IsTwin v := by
  intro htwin
  cases u with
  | int n =>
    cases v with
    | name s => cases h
    | _ => exact htwin
  | _ => exact htwin

theorem isPrintedAs_ofList (ha : a.Sorted) (hread : ∀ v ∈ Table.keys a, v.IsRead) :
    IsPrintedAs a (Table.ofList (a.map fun e => (e.1.text, .integer e.2))) := by
  have htexts : (a.map fun e => (e.1.text, Json.integer e.2)).map (·.1) =
      (Table.keys a).map Label.text := by
    rw [Table.keys, List.map_map, List.map_map]
    rfl
  have hdistinct := (Table.sorted_ofList (a.map fun e => (e.1.text, Json.integer e.2))).keys_nodup
  have hkeys : ∀ key, key ∈ (Table.ofList (a.map fun e => (e.1.text, Json.integer e.2))).keys ↔
      key ∈ (Table.keys a).map Label.text := fun key => by
    rw [Table.mem_keys_ofList, htexts]
  refine ⟨hdistinct, fun key => (hkeys key).trans List.mem_map, fun v x hv hshown => ?_, ?_⟩
  · obtain ⟨before, after, rfl⟩ := List.append_of_mem hv
    rw [List.map_append, List.map_cons]
    refine Table.get?_ofList_append _ fun htext => ?_
    -- a later variable with the same text would be the name that hides this one
    rw [List.map_map] at htext
    obtain ⟨e, he, htext⟩ := List.mem_map.mp htext
    have hlt : compare v e.1 = .lt :=
      (List.pairwise_cons.mp (List.pairwise_append.mp ha).2.1).1 e he
    have hmem : e.1 ∈ Table.keys (before ++ (v, x) :: after) :=
      List.mem_map_of_mem (List.mem_append_right _ (List.mem_cons_of_mem _ he))
    rcases (hread _ hmem).eq_or_of_text_eq (hread v (List.mem_map_of_mem hv)) htext with h | h | h
    · have hself : compare v v = .eq := Std.ReflCmp.compare_self
      rw [h, hself] at hlt
      cases hlt
    · exact not_isTwin_of_lt hlt h
    · exact hshown ⟨e.1, hmem, h⟩
  · have hlength := ((List.perm_ext_iff_of_nodup hdistinct (List.nodup_dedup _)).mpr fun key =>
      (hkeys key).trans List.mem_dedup.symm).length_eq
    have hsizes : (Table.ofList (a.map fun e => (e.1.text, Json.integer e.2))).keys.length =
        (Table.ofList (a.map fun e => (e.1.text, Json.integer e.2))).length := List.length_map _
    have hall : ((Table.keys a).map Label.text).length = a.length := by
      rw [List.length_map, Table.keys, List.length_map]
    rw [← nodup_texts_iff ha hread, ← List.dedup_eq_self, ← (List.dedup_sublist _).length_eq, hall,
      ← hlength, hsizes]

end Members

/-! ## The solutions of a search -/

namespace Model

variable {d : Domain} {m : Model d} {all : Bool} {value : Number}
  {solutions : List (Assignment Label)}

/-- A solution has a value for every enumerated variable that is not recorded as an ancilla. -/
theorem isOn_of_mem_bruteforce (hnodup : m.objective.index.labels.Nodup)
    (h : m.bruteforce all = .ok (value, solutions)) : ∀ a ∈ solutions,
      a.IsOn d fun v => v ∈ m.enumeratedVariables ∧ m.objective.ancillas.contains v = false := by
  have hdecode : ∃ found : List (Assignment Label), solutions = found.map m.withoutAncillas ∧
      ∀ a ∈ found, ∃ code, a = decode d m.enumeratedVariables code := by
    obtain ⟨⟨best, found⟩, hfound, h⟩ := exists_of_bind_eq_ok h
    cases best with
    | some best =>
      obtain ⟨-, rfl⟩ := Prod.mk.inj (Except.ok.inj h)
      exact ⟨found, rfl, exists_decode_of_minimizeWhere hfound⟩
    | none =>
      -- no assignment is admitted, and the search is made again without the constraints
      obtain ⟨⟨value', found'⟩, hagain, h⟩ := exists_of_bind_eq_ok h
      obtain ⟨-, rfl⟩ := Prod.mk.inj (Except.ok.inj h)
      exact ⟨found', rfl, (exists_decode_of_minimize hagain).2⟩
  obtain ⟨found, rfl, hfound⟩ := hdecode
  rw [List.forall_mem_map]
  intro a ha
  obtain ⟨code, rfl⟩ := hfound a ha
  exact isOn_withoutAncillas (isOn_decode (nodup_enumeratedVariables hnodup))

end Model

/-! ## Printed answers -/

/-- The answer for the result of a search. -/
def Model.answerJson {d : Domain} (m : Model d) (value : Number) (solutions : List (Assignment Label)) :
    Json :=
  .object [
    ("domain", .string d.text),
    ("variables", .integer m.objective.index.size),
    ("energy", .float value.toFloat),
    ("solutions", .array (solutions.map fun a =>
      .object [("assignment", assignmentJson a), ("valid", .bool (m.isSolutionValid a))])),
    ("diagnostics", .array (m.diagnostics.map fun diagnostic => .string diagnostic.text))]

namespace Command

variable {dir after : Directory} {configPath : Option String} {source : ModelSource} {all : Bool}
  {output : String} {document : ModelDocument} {model : Model document.domain}

/-- If the search succeeds, its result is printed. -/
theorem Searches.solveIn_eq_done (h : Searches dir configPath source document model) {value : Number}
    {solutions : List (Assignment Label)} (hok : model.bruteforce all = .ok (value, solutions)) :
    solveIn dir configPath source all =
      (.done ((model.answerJson value solutions).pretty ++ "\n"), dir) := by
  rw [h.solveIn_eq, solveJson, hok]
  rfl

/-- Whatever `solve` prints is the answer of a search. A solution has a value for every enumerated variable
that is no recorded ancilla. It is printed as an object that has a member of its own with this value for each
of these variables, apart from a number beside the name that consists of its digits. -/
theorem prints_solutions (h : solveIn dir configPath source all = (.done output, after)) :
    ∃ (document : ModelDocument) (model : Model document.domain) (value : Number)
      (solutions : List (Assignment Label)),
      Searches dir configPath source document model ∧
      model.bruteforce all = .ok (value, solutions) ∧
      output = (model.answerJson value solutions).pretty ++ "\n" ∧
      ∀ a ∈ solutions,
        (a.IsOn document.domain fun v =>
          v ∈ model.enumeratedVariables ∧ model.objective.ancillas.contains v = false) ∧
        ∃ members, assignmentJson a = .object members ∧ IsPrintedAs a members := by
  obtain ⟨document, model, answer, hsearches, hanswer, rfl⟩ := exists_searches_of_done h
  obtain ⟨⟨value, solutions⟩, hok, h⟩ := exists_of_bind_eq_ok hanswer
  obtain rfl := Except.ok.inj h
  obtain ⟨bare, hbare, rfl⟩ := hsearches.built
  have hdistinct := (regular_withValues (document.isCovered hbare).2 source.values).distinct
  have hbareRead := document.isAbout_isRead hbare
  have hread := of_withValues hbareRead hbareRead.substitute source.values
  refine ⟨document, _, value, solutions, hsearches, hok, rfl, fun a ha => ?_⟩
  have hon := isOn_of_mem_bruteforce hdistinct hok a ha
  exact ⟨hon, _, rfl, isPrintedAs_ofList hon.sorted fun v hv =>
    hread.of_mem_enumeratedVariables ((hon.keys v).mp hv).1⟩

/-- The solution has a slack bit, which is left out, and a member for each other variable. -/
theorem prints_solutions_withinLimit :
    ∃ output, solveIn withinLimit none ⟨"model.json", []⟩ false = (.done output, withinLimit) ∧
      ∃ (document : ModelDocument) (model : Model document.domain) (value : Number)
        (a : Assignment Label) (members : Table String Json),
        model.bruteforce false = .ok (value, [a]) ∧
        output = (model.answerJson value [a]).pretty ++ "\n" ∧
        assignmentJson a = .object members ∧ members.length = 3 ∧
        members.get? "x" = some (.integer 1) := by
  have hload : (loaded withinLimit none ⟨"model.json", []⟩).map (fun result =>
      (decide (result.model.objective.index.size ≤ 4), (result.model.bruteforce false).map (·.2))) =
      .ok (true, .ok [[(.name "x", 1), (.name "y", 0), (.name "z", 0)]]) := by
    rw [withinLimit, loaded_project]
    decide +kernel
  obtain ⟨document, model, hsearches, hsearch⟩ :=
    exists_searches_of_map variableLimit_withinLimit hload
  obtain ⟨found, hfound, -⟩ := exists_of_map_eq_ok hsearch
  have hdone := hsearches.solveIn_eq_done hfound
  -- what is printed is about the model that was loaded
  obtain ⟨document, model, value, solutions, hsearches, hok, houtput, hprinted⟩ :=
    prints_solutions hdone
  rw [hsearches.loaded_eq] at hload
  obtain ⟨-, hsearch⟩ := Prod.mk.inj (Except.ok.inj hload)
  obtain rfl : solutions = [[(.name "x", 1), (.name "y", 0), (.name "z", 0)]] := by
    rw [hok] at hsearch
    exact Except.ok.inj hsearch
  obtain ⟨-, members, hmembers, hspec⟩ := hprinted _ (List.mem_singleton.mpr rfl)
  refine ⟨_, hdone, document, model, value, _, members, hok, houtput, hmembers, ?_, ?_⟩
  · exact hspec.complete_iff.mpr (by simp [IsHidden, Table.keys, Label.IsTwin])
  · refine hspec.values (.name "x") 1 (by simp) ?_
    rintro ⟨_, _, htwin⟩
    exact htwin

/-- Two variables, of which one is a number and the other one the name that consists of its digits. -/
def twinLabels : Directory :=
  .project "max_bruteforce_variables = 4\n"
    "\x7b\"domain\":\"binary\",\"objective\":[[[1],-1],[[\"1\"],1]],\"constraints\":[]\x7d"

/-- The solution has two variables, and a single member is printed for it. -/
theorem prints_one_of_twins :
    ∃ (document : ModelDocument) (model : Model document.domain) (value : Number),
      Searches twinLabels none ⟨"model.json", []⟩ document model ∧
      model.bruteforce false = .ok (value, [[(.int 1, 1), (.name "1", 0)]]) ∧
      solveIn twinLabels none ⟨"model.json", []⟩ false =
        (.done ((model.answerJson value [[(.int 1, 1), (.name "1", 0)]]).pretty ++ "\n"), twinLabels) ∧
      assignmentJson [(.int 1, 1), (.name "1", 0)] = .object [("1", .integer 0)] := by
  have hload : (loaded twinLabels none ⟨"model.json", []⟩).map (fun result =>
      (decide (result.model.objective.index.size ≤ 4), (result.model.bruteforce false).map (·.2))) =
      .ok (true, .ok [[(.int 1, 1), (.name "1", 0)]]) := by
    rw [twinLabels, loaded_project]
    decide +kernel
  obtain ⟨document, model, hsearches, hsearch⟩ :=
    exists_searches_of_map (Directory.variableLimit_project (by decide +kernel)) hload
  obtain ⟨⟨value, solutions⟩, hok, hsolutions⟩ := exists_of_map_eq_ok hsearch
  obtain rfl : solutions = _ := hsolutions
  exact ⟨document, model, value, hsearches, hok, hsearches.solveIn_eq_done hok, rfl⟩

end Command

end PseudoBoolean
