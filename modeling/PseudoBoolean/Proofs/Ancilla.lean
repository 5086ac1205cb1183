import PseudoBoolean.Ancilla
import PseudoBoolean.Proofs.Table

/-!
# Merging and renaming records

A merged table has the records of the first table, and those of the second for variables without one in
the first (`get?_merge`). So a table that is merged with itself stays as it is (`merge_self`).

A table under other names has the records of the variables that have a name (`get?_relabel`). What such a
record says is `Origin.Renames`: the product of the factors under their names, or the same slack bit. A
product with a factor that has no name is not kept.
-/

namespace PseudoBoolean

/-- The second origin is the first one under other names: the product of the renamed factors, or a bit of
the same slack with the same weight. -/
inductive Origin.Renames {V W : Type} (f : V → Option W) : Origin V → Origin W → Prop
  | product {a b : V} {x y : W} (ha : f a = some x) (hb : f b = some y) :
      Renames f (.product a b) (.product x y)
  | slack (constraint : ℕ) (weight : Number) :
      Renames f (.slack constraint weight) (.slack constraint weight)

/-- A record has an image exactly when every variable it names has one, and the image names those. -/
theorem Origin.relabel?_eq_some_iff {V W : Type} {f : V → Option W} {origin : Origin V}
    {renamed : Origin W} : origin.relabel? f = some renamed ↔ origin.Renames f renamed := by
  constructor
  · intro h
    cases origin with
    | product a b =>
      rw [relabel?] at h
      cases ha : f a with
      | none => simp [ha] at h
      | some x =>
        cases hb : f b with
        | none => simp [ha, hb] at h
        | some y =>
          simp only [ha, hb, Option.some.injEq] at h
          exact h ▸ .product ha hb
    | slack constraint weight => exact Option.some_inj.mp h ▸ .slack constraint weight
  · rintro (⟨ha, hb⟩ | ⟨constraint, weight⟩)
    · simp [relabel?, ha, hb]
    · rfl

namespace AncillaTable

variable {V W : Type} [Variable V] [Variable W] {a b : AncillaTable V} {v : V}

/-- What holds of the variables of both tables holds of the merged one. -/
theorem forall_mem_merge {P : V → Prop} (ha : ∀ e ∈ a, P e.1) (hb : ∀ e ∈ b, P e.1) :
    ∀ e ∈ a.merge b, P e.1 := by
  unfold merge
  refine List.foldlRecOn (motive := fun t : AncillaTable V => ∀ e ∈ t, P e.1) b _ ha ?_
  intro t ht x hx
  exact Table.forall_mem_alter ht fun _ _ => hb x hx

/-- Merging keeps the table sorted. -/
theorem sorted_merge (ha : a.Sorted) (b : AncillaTable V) : (a.merge b).Sorted := by
  unfold merge
  refine List.foldlRecOn (motive := fun t : AncillaTable V => t.Sorted) b _ ha ?_
  intro t ht x hx
  exact ht.alter

/-- A record of the first table counts, and one of the second if there is none in the first. -/
theorem get?_merge (hb : b.Sorted) : (a.merge b).get? v = (a.get? v).or (b.get? v) := by
  induction b generalizing a with
  | nil => exact (Option.or_none).symm
  | cons e b ih =>
    obtain ⟨hlt, hb⟩ := Table.sorted_cons.mp hb
    have hstep : a.merge (e :: b) =
        merge (Table.alter e.1 (fun old => some (old.getD e.2)) a) b := rfl
    -- one step sets a value, which is the old one if there is one
    rw [hstep, ih hb, Table.alter_eq_insert fun old => old.getD e.2]
    by_cases hv : v = e.1
    · subst hv
      rw [Table.get?_insert_self, Table.get?_cons_self]
      cases a.get? e.1 <;> rfl
    · rw [Table.get?_insert_of_ne hv, Table.get?_cons_of_ne hlt hv]

/-- A merge adds to the records of the first table, and does not change them. -/
theorem get?_merge_cases (hb : b.Sorted) (v : V) :
    (a.merge b).get? v = a.get? v ∨ a.get? v = none ∧ (a.merge b).get? v = b.get? v := by
  rw [get?_merge hb]
  cases a.get? v with
  | none => exact .inr ⟨rfl, Option.none_or⟩
  | some origin => exact .inl Option.some_or

/-- Merging a table with itself changes nothing. -/
theorem merge_self (ha : a.Sorted) : a.merge a = a :=
  (sorted_merge ha a).ext_get? ha fun v => by rw [get?_merge ha, Option.or_self]

omit [Variable V] in
/-- Under other names only variables that have one are recorded. -/
theorem forall_mem_relabel {P : W → Prop} {f : V → Option W} (hf : ∀ v w, f v = some w → P w) :
    ∀ e ∈ a.relabel f, P e.1 := by
  unfold relabel
  refine List.foldlRecOn (motive := fun t : AncillaTable W => ∀ e ∈ t, P e.1) a _ (by simp) ?_
  intro t ht x hx
  dsimp only
  split
  · rename_i w _ hw _
    exact Table.forall_mem_alter ht fun _ _ => hf _ w hw
  · exact ht

omit [Variable V] in
/-- A relabelled table is sorted in the new names. -/
theorem sorted_relabel (f : V → Option W) (a : AncillaTable V) : (a.relabel f).Sorted := by
  unfold relabel
  refine List.foldlRecOn (motive := fun t : AncillaTable W => t.Sorted) a _ List.Pairwise.nil ?_
  intro t ht x hx
  dsimp only
  split
  · exact ht.insert
  · exact ht

/-! ## Renamed records -/

section Renamed

variable {f : V → Option W} {w : W} {renamed : Origin W}

/-- The record of a variable under other names, if there is one. -/
def renamed? (f : V → Option W) (e : V × Origin V) : Option (W × Origin W) := do
  return (← f e.1, ← e.2.relabel? f)

omit [Variable V] [Variable W] in
/-- An entry is renamed exactly when its variable and its record have images. -/
theorem renamed?_eq_some_iff {e : V × Origin V} :
    renamed? f e = some (w, renamed) ↔ f e.1 = some w ∧ e.2.Renames f renamed := by
  rw [← Origin.relabel?_eq_some_iff]
  simp [renamed?, Option.bind_eq_some_iff]

omit [Variable V] in
/-- The records that have names are inserted one after the other. -/
theorem relabel_eq_ofList (f : V → Option W) (a : AncillaTable V) :
    a.relabel f = Table.ofList (a.filterMap (renamed? f)) := by
  rw [relabel, Table.ofList, List.foldl_filterMap]
  congr 1
  funext t e
  obtain ⟨v, origin⟩ := e
  dsimp only [renamed?]
  cases f v with
  | none => rfl
  | some w => cases origin.relabel? f <;> rfl

/-- If no two variables get one name, a record under the new names is that of a variable under its name. -/
theorem get?_relabel (ha : a.Sorted)
    (hf : ∀ v v' w, f v = some w → f v' = some w → v = v') :
    (a.relabel f).get? w = some renamed ↔
      ∃ v origin, f v = some w ∧ a.get? v = some origin ∧ origin.Renames f renamed := by
  have hnodup : ((a.filterMap (renamed? f)).map (·.1)).Nodup := by
    have hkeys : a.Pairwise fun e e' => e.1 ≠ e'.1 := List.pairwise_map.mp ha.keys_nodup
    refine List.pairwise_map.mpr (hkeys.filterMap _ fun e e' hne r hr r' hr' heq => hne ?_)
    exact hf e.1 e'.1 r.1 (renamed?_eq_some_iff.mp hr).1 (heq ▸ (renamed?_eq_some_iff.mp hr').1)
  rw [Table.get?_eq_some_iff (sorted_relabel f a), relabel_eq_ofList, Table.mem_ofList hnodup,
    List.mem_filterMap]
  constructor
  · rintro ⟨⟨v, origin⟩, hmem, hrenamed⟩
    obtain ⟨hv, horigin⟩ := renamed?_eq_some_iff.mp hrenamed
    exact ⟨v, origin, hv, (Table.get?_eq_some_iff ha).mpr hmem, horigin⟩
  · rintro ⟨v, origin, hv, hget, horigin⟩
    exact ⟨(v, origin), (Table.get?_eq_some_iff ha).mp hget,
      renamed?_eq_some_iff.mpr ⟨hv, horigin⟩⟩

end Renamed

end AncillaTable

end PseudoBoolean
