import Lynox.Data.Assoc
import Lynox.Text.Json

/-!
# The order of an object's own names

An object lists the names that are array indices first, in the order of the numbers, and the others
behind them in the order they were set. `setOwn` sets a name, `fromEntries` sets the entries of a
list one after the other : a name set twice keeps its place and takes the later value.

A list of entries is the object made of it exactly where no name repeats and all stand in that order
(`fromEntries_eq_self_iff`).
-/

namespace Lynox.Text

/-- The array index a name is : the decimal writing of a number below `2 ^ 32 - 1`. -/
def arrayIndex (name : JsString) : Option ℕ :=
  if writeInt (digitsVal name) = name ∧ digitsVal name < 4294967295 then some (digitsVal name) else none

/-- Whether a name stands before one that is set behind it. -/
def standsBefore (name later : JsString) : Bool :=
  (arrayIndex later).all fun n => (arrayIndex name).any fun m => m < n

variable {α : Type*}

/-- A name set to a value : a new one comes behind the names that stand before it. -/
def setOwn (fields : List (JsString × α)) (name : JsString) (value : α) : List (JsString × α) :=
  if name ∈ fields.map Prod.fst then fields.map fun f => if f.1 = name then (f.1, value) else f
  else
    fields.takeWhile (fun f => standsBefore f.1 name) ++
      (name, value) :: fields.dropWhile fun f => standsBefore f.1 name

/-- The object of the entries. -/
def fromEntries (entries : List (JsString × α)) : List (JsString × α) :=
  entries.foldl (fun fields e => setOwn fields e.1 e.2) []

/-- No name repeats, and all stand in the order of an object. -/
def OwnOrder (names : List JsString) : Prop :=
  names.Pairwise fun a b => a ≠ b ∧ standsBefore a b = true

section OwnNames

variable {a b c name name' : JsString} {value : α} {fields entries : List (JsString × α)}
  {m n : ℕ}

theorem arrayIndex_injective (ha : arrayIndex a = some n) (hb : arrayIndex b = some n) : a = b := by
  unfold arrayIndex at ha hb
  split at ha
  · next hna =>
    split at hb
    · next hnb =>
      obtain rfl := Option.some.inj ha
      rw [← hna.1, ← hnb.1, Option.some.inj hb]
    · exact absurd hb (by simp)
  · exact absurd ha (by simp)

theorem standsBefore_iff :
    standsBefore a b = true ↔ ∀ n, arrayIndex b = some n → ∃ m, arrayIndex a = some m ∧ m < n := by
  simp [standsBefore, Option.all_eq_true, Option.any_eq_true]

theorem standsBefore_trans (hab : standsBefore a b = true) (hbc : standsBefore b c = true) :
    standsBefore a c = true := by
  rw [standsBefore_iff] at hab hbc ⊢
  intro n hn
  obtain ⟨m, hm, hlt⟩ := hbc n hn
  obtain ⟨k, hk, hlt'⟩ := hab m hm
  exact ⟨k, hk, hlt'.trans hlt⟩

/-- Of two names one stands before the other. -/
theorem standsBefore_of_not (hne : a ≠ b) (h : ¬ standsBefore a b = true) : standsBefore b a = true := by
  rw [standsBefore_iff] at h ⊢
  push Not at h
  obtain ⟨n, hn, hleast⟩ := h
  intro m hm
  refine ⟨n, hn, lt_of_le_of_ne (hleast m hm) fun heq => hne ?_⟩
  exact arrayIndex_injective hm (heq ▸ hn)

theorem setOwn_append (hnew : name ∉ fields.map Prod.fst)
    (hbefore : ∀ f ∈ fields, standsBefore f.1 name = true) :
    setOwn fields name value = fields ++ [(name, value)] := by
  rw [setOwn, if_neg hnew, List.takeWhile_eq_self_iff.2 hbefore, List.dropWhile_eq_nil_iff.2 hbefore]

theorem get_setOwn :
    Assoc.get (setOwn fields name value) name' = if name' =
      name then some value else Assoc.get fields name' := by
  by_cases hmem : name ∈ fields.map Prod.fst
  · rw [← Assoc.get_set, setOwn, Assoc.set, if_pos hmem, if_pos hmem]
  · have hsplit := List.takeWhile_append_dropWhile (p := fun f => standsBefore f.1 name) (l := fields)
    rw [setOwn, if_neg hmem]
    generalize fields.takeWhile _ = front at hsplit ⊢
    generalize fields.dropWhile _ = back at hsplit ⊢
    subst hsplit
    rw [Assoc.get, Assoc.get, Table.find_append, Table.find_append]
    split
    · next heq =>
      rw [List.map_append, List.mem_append, not_or] at hmem
      rw [heq, Table.find_eq_none.2 hmem.1]
      simp [Table.find]
    · next hne => simp [Table.find, Ne.symm hne]

theorem names_setOwn_of_mem (h : name ∈ fields.map Prod.fst) :
    (setOwn fields name value).map Prod.fst = fields.map Prod.fst := by
  rw [setOwn, if_pos h, ← Assoc.keys_set_of_mem (v := value) h, Assoc.set, if_pos h]

theorem mem_names_setOwn :
    name' ∈ (setOwn fields name value).map Prod.fst ↔ name' = name ∨ name' ∈ fields.map Prod.fst := by
  rw [← Assoc.exists_get, ← Assoc.exists_get, get_setOwn]
  split
  · next h => simp [h]
  · next h => simp [h]

theorem ownOrder_setOwn (h : OwnOrder (fields.map Prod.fst)) :
    OwnOrder ((setOwn fields name value).map Prod.fst) := by
  by_cases hmem : name ∈ fields.map Prod.fst
  · rw [names_setOwn_of_mem hmem]
    exact h
  · have hsplit := List.takeWhile_append_dropWhile (p := fun f => standsBefore f.1 name) (l := fields)
    have hfront : ∀ f ∈ fields.takeWhile (fun f => standsBefore f.1 name), standsBefore f.1 name = true :=
      fun f hf => List.mem_takeWhile_imp (p := fun f : JsString × α => standsBefore f.1 name) hf
    have hback := List.head?_dropWhile_not (fun f : JsString × α => standsBefore f.1 name) fields
    rw [setOwn, if_neg hmem]
    generalize fields.takeWhile _ = front at hsplit hfront ⊢
    generalize fields.dropWhile _ = back at hsplit hback ⊢
    subst hsplit
    rw [List.map_append] at h hmem
    rw [List.mem_append, not_or] at hmem
    obtain ⟨hin, hbehind, hacross⟩ := List.pairwise_append.1 h
    have hne : ∀ f ∈ back.map Prod.fst, name ≠ f := fun f hf heq => hmem.2 (heq ▸ hf)
    rw [List.map_append, List.map_cons]
    refine List.pairwise_append.2 ⟨hin, List.pairwise_cons.2 ⟨fun f hf => ⟨hne f hf, ?_⟩, hbehind⟩,
      fun f hf g hg => ?_⟩
    -- what stayed behind the name stands behind the first of it
    · cases back with
      | nil => exact absurd hf List.not_mem_nil
      | cons g back =>
        rw [List.head?_cons] at hback
        have hfirst := standsBefore_of_not (Ne.symm (hne g.1 List.mem_cons_self)) (by simpa using hback)
        rcases List.mem_cons.1 hf with rfl | hf
        · exact hfirst
        · exact standsBefore_trans hfirst ((List.pairwise_cons.1 hbehind).1 f hf).2
    · rcases List.mem_cons.1 hg with rfl | hg
      · obtain ⟨e, he, rfl⟩ := List.mem_map.1 hf
        exact ⟨fun heq => hmem.1 (heq ▸ hf), hfront e he⟩
      · exact hacross f hf g hg

/-! ## An object of entries -/

theorem fromEntries_append : fromEntries (entries ++ [(name, value)]) =
    setOwn (fromEntries entries) name value := by
  simp [fromEntries]

theorem ownOrder_fromEntries : OwnOrder ((fromEntries entries).map Prod.fst) := by
  induction entries using List.reverseRecOn with
  | nil => exact .nil
  | append_singleton entries e ih =>
    rw [fromEntries_append]
    exact ownOrder_setOwn ih

theorem get_fromEntries (h : (entries.map Prod.fst).Nodup) :
    Assoc.get (fromEntries entries) name = Assoc.get entries name := by
  induction entries using List.reverseRecOn with
  | nil => rfl
  | append_singleton entries e ih =>
    rw [List.map_append, List.map_singleton, List.nodup_append] at h
    have hnew : e.1 ∉ entries.map Prod.fst := fun hmem => h.2.2 e.1 hmem e.1 (List.mem_singleton.2 rfl) rfl
    rw [fromEntries_append, get_setOwn, ih h.1]
    split
    · next heq => rw [heq, Assoc.get, Table.find_append, Table.find_eq_none.2 hnew]; simp [Table.find]
    · next hne => simp [Assoc.get, Table.find, Ne.symm hne]

/-- Entries are the object of them exactly where an object lists them so. -/
theorem fromEntries_eq_self_iff : fromEntries entries = entries ↔ OwnOrder (entries.map Prod.fst) := by
  refine ⟨fun h => h ▸ ownOrder_fromEntries, fun h => ?_⟩
  induction entries using List.reverseRecOn with
  | nil => rfl
  | append_singleton entries e ih =>
    rw [List.map_append, List.map_singleton] at h
    obtain ⟨hin, -, hacross⟩ := List.pairwise_append.1 h
    have hlast : ∀ f ∈ entries, f.1 ≠ e.1 ∧ standsBefore f.1 e.1 = true := fun f hf =>
      hacross f.1 (List.mem_map_of_mem hf) e.1 (List.mem_singleton.2 rfl)
    rw [fromEntries_append, ih hin]
    refine setOwn_append (fun hmem => ?_) fun f hf => (hlast f hf).2
    obtain ⟨f, hf, heq⟩ := List.mem_map.1 hmem
    exact (hlast f hf).1 heq

end OwnNames

end Lynox.Text
