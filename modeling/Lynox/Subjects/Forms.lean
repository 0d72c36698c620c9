import Lynox.Subjects.Merge

/-!
# Forms among the aliases

The aliases of a subject as a set of keys, a key being a form in lower case. A merge adds the forms of the
duplicate (`mem_keys_union`).
-/

namespace Lynox.Subjects

open Text

variable {toLowerCase : JsString → JsString} {raw : JsString} {forms : List JsString} {k : JsString}

/-- The keys of an alias column. -/
def aliasKeys (toLowerCase : JsString → JsString) (raw : JsString) : List JsString :=
  (parseAliases raw).map toLowerCase

/-- The keys of the forms that are not empty. -/
def formKeys (toLowerCase : JsString → JsString) (forms : List JsString) : List JsString :=
  (forms.filter fun f => f ≠ []).map toLowerCase

theorem parseAliases_strings (texts : List JsString) :
    parseAliases (Value.strings texts).write = texts := by
  rw [parseAliases, parse_strings]
  dsimp only
  rw [List.filterMap_map]
  exact List.filterMap_some

theorem formKeys_nil (toLowerCase : JsString → JsString) (forms : List JsString) :
    formKeys toLowerCase ([] :: forms) = formKeys toLowerCase forms :=
  rfl

theorem formKeys_cons {f : JsString} (hf : f ≠ []) (forms : List JsString) :
    formKeys toLowerCase (f :: forms) = toLowerCase f :: formKeys toLowerCase forms := by
  rw [formKeys, List.filter_cons_of_pos (by simpa using hf)]
  rfl

/-- The forms that are added are those whose keys are new. -/
theorem foldl_addForm : ∀ (forms : List JsString) (out : List JsString × List JsString),
    ∃ added, forms.foldl (addForm toLowerCase) out = (out.1 ++ added, out.2 ++ added) ∧
      ∀ k, k ∈ added.map toLowerCase ↔ k ∈ formKeys toLowerCase forms ∧ k ∉ out.1.map toLowerCase
  | [], out => ⟨[], by simp, fun k => by simp [formKeys]⟩
  | f :: forms, out => by
    by_cases hold : f = [] ∨ toLowerCase f ∈ out.1.map toLowerCase
    · obtain ⟨added, hfold, hkeys⟩ := foldl_addForm forms out
      refine ⟨added, ?_, fun k => (hkeys k).trans (and_congr_left fun hk => ?_)⟩
      · rw [List.foldl_cons, addForm, if_pos hold, hfold]
      · by_cases hf : f = []
        · rw [hf, formKeys_nil]
        · rw [formKeys_cons hf, List.mem_cons, or_iff_right]
          exact fun heq => hk (heq ▸ hold.resolve_left hf)
    · obtain ⟨hf, hnew⟩ := not_or.1 hold
      obtain ⟨added, hfold, hkeys⟩ := foldl_addForm forms (out.1 ++ [f], out.2 ++ [f])
      refine ⟨f :: added, ?_, fun k => ?_⟩
      · rw [List.foldl_cons, addForm, if_neg hold, hfold]
        simp
      · rw [List.map_cons, List.mem_cons, hkeys, formKeys_cons hf, List.mem_cons, List.map_append,
          List.mem_append, List.map_singleton, List.mem_singleton, not_or]
        constructor
        · rintro (rfl | ⟨hk, hout, -⟩)
          · exact ⟨Or.inl rfl, hnew⟩
          · exact ⟨Or.inr hk, hout⟩
        · rintro ⟨hk, hout⟩
          by_cases heq : k = toLowerCase f
          · exact Or.inl heq
          · exact Or.inr ⟨hk.resolve_left heq, hout, heq⟩

/-- What a union adds, and what is read of it. -/
theorem union_spec (toLowerCase : JsString → JsString) (raw : JsString) (forms : List JsString) :
    parseAliases (unionAliases toLowerCase raw forms).json =
        parseAliases raw ++ (unionAliases toLowerCase raw forms).added ∧
      ∀ k, k ∈ (unionAliases toLowerCase raw forms).added.map toLowerCase ↔
        k ∈ formKeys toLowerCase forms ∧ k ∉ aliasKeys toLowerCase raw := by
  have hfold : ∃ added, forms.foldl (addForm toLowerCase) (parseAliases raw, []) = _ ∧ ∀ k, _ :=
    foldl_addForm forms (parseAliases raw, [])
  obtain ⟨added, hfold, hkeys⟩ := hfold
  have hadded : (unionAliases toLowerCase raw forms).added = added := by
    rw [unionAliases, hfold]
    rfl
  have hjson : (unionAliases toLowerCase raw forms).json =
      if added.length > 0 then (Value.strings (parseAliases raw ++ added)).write else raw := by
    rw [unionAliases, hfold]
    rfl
  rw [hadded, hjson]
  refine ⟨?_, hkeys⟩
  split
  · exact parseAliases_strings _
  · next hnone =>
    rw [List.length_eq_zero_iff.1 (Nat.eq_zero_of_not_pos hnone), List.append_nil]

theorem mem_keys_union : k ∈ aliasKeys toLowerCase (unionAliases toLowerCase raw forms).json ↔
    k ∈ aliasKeys toLowerCase raw ∨ k ∈ formKeys toLowerCase forms := by
  obtain ⟨hparse, hkeys⟩ := union_spec toLowerCase raw forms
  rw [aliasKeys, hparse, List.map_append, List.mem_append, hkeys]
  constructor
  · rintro (hk | ⟨hk, -⟩)
    · exact Or.inl hk
    · exact Or.inr hk
  · rintro (hk | hk)
    · exact Or.inl hk
    · by_cases hraw : k ∈ aliasKeys toLowerCase raw
      · exact Or.inl hraw
      · exact Or.inr ⟨hk, hraw⟩

end Lynox.Subjects
