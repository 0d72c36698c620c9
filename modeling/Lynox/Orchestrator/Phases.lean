import Lynox.Orchestrator.Layers

/-!
# The phases are the longest-path layers

The layering takes out, again and again, all the steps that wait for nothing. A step that is still
there after a turn waits for one that was there before the turn (`Layering.Tight`), so it comes no
later than it has to. References to no step count nowhere : they are in no in-degree and no step
that leaves has their id, so the layering is that of the steps without them
(`computePhases_onlyKnown`).

Each turn is decided by the set of what remains, and the order inside a phase by the ids, so the order of
the steps decides nothing (`layer_perm`).
-/

namespace Lynox.Orchestrator

variable {steps steps' : List ManifestStep} {adj adj' : Adjacency} {g g' : Layering} {a : GraphAnalysis}

/-! ## The order of the ids -/

/-- The units of one character. -/
def charUnits (c : Char) : List Nat :=
  if c.toNat < 0x10000 then [c.toNat]
  else [0xd800 + (c.toNat - 0x10000) / 0x400, 0xdc00 + (c.toNat - 0x10000) % 0x400]

theorem toNat_valid (c : Char) : c.toNat < 0xd800 ∨ 0xdfff < c.toNat ∧ c.toNat < 0x110000 := by
  have hvalid := c.valid
  simpa [UInt32.isValidChar, Nat.isValidChar] using hvalid

theorem charUnits_append {c d : Char} {us vs : List Nat} (h : charUnits c ++ us = charUnits d ++ vs) :
    c = d ∧ us = vs := by
  have hc := toNat_valid c
  have hd := toNat_valid d
  unfold charUnits at h
  have heq : c.toNat = d.toNat ∧ us = vs := by
    split_ifs at h with h1 h2 h2
    · exact ⟨(List.cons.inj h).1, (List.cons.inj h).2⟩
    · have hhead := (List.cons.inj h).1
      omega
    · have hhead := (List.cons.inj h).1
      omega
    · obtain ⟨hhigh, h⟩ := List.cons.inj h
      obtain ⟨hlow, h⟩ := List.cons.inj h
      exact ⟨by omega, h⟩
  exact ⟨Char.toNat_inj.mp heq.1, heq.2⟩

theorem charUnits_ne_nil (c : Char) : charUnits c ≠ [] := by
  unfold charUnits
  split_ifs <;> simp

theorem flatMap_charUnits_inj : ∀ {cs ds : List Char},
    cs.flatMap charUnits = ds.flatMap charUnits → cs = ds
  | [], [], _ => rfl
  | [], d :: ds, h => by
    rw [List.flatMap_cons] at h
    exact absurd (List.append_eq_nil_iff.mp h.symm).1 (charUnits_ne_nil d)
  | c :: cs, [], h => by
    rw [List.flatMap_cons] at h
    exact absurd (List.append_eq_nil_iff.mp h).1 (charUnits_ne_nil c)
  | c :: cs, d :: ds, h => by
    rw [List.flatMap_cons, List.flatMap_cons] at h
    obtain ⟨rfl, hrest⟩ := charUnits_append h
    rw [flatMap_charUnits_inj hrest]

theorem codeUnits_inj {s t : String} (h : codeUnits s = codeUnits t) : s = t :=
  String.toList_inj.mp (flatMap_charUnits_inj h)

/-- The same ids come out in the same order. -/
theorem sort_perm {ids ids' : List String} (h : ids.Perm ids') : sort ids = sort ids' := by
  have : Std.Total fun a b : String => codeUnits a ≤ codeUnits b := ⟨fun a b => le_total _ _⟩
  have : IsTrans String fun a b => codeUnits a ≤ codeUnits b := ⟨fun a b c => le_trans⟩
  refine List.Perm.eq_of_pairwise (fun a b _ _ hab hba => codeUnits_inj (le_antisymm hab hba))
    (List.pairwise_insertionSort (fun a b => codeUnits a ≤ codeUnits b) _)
    (List.pairwise_insertionSort _ _) ?_
  exact ((List.perm_insertionSort _ ids).trans h).trans (List.perm_insertionSort _ ids').symm

/-! ## References to no step -/

/-- The steps with the references to steps only. -/
def onlyKnown (steps : List ManifestStep) : List ManifestStep :=
  steps.map fun step => { step with inputFrom := some (step.inputs.filter (· ∈ steps.map (·.id))) }

theorem map_id_onlyKnown : (onlyKnown steps).map (·.id) = steps.map (·.id) := by
  rw [onlyKnown, List.map_map]
  rfl

theorem inDegrees_onlyKnown (ids : List String) (hids : ∀ id, id ∈ ids ↔ id ∈ steps.map (·.id)) :
    inDegrees ids (onlyKnown steps) = inDegrees ids steps := by
  rw [inDegrees, inDegrees, onlyKnown, List.foldl_map]
  congr 1
  funext inDegree step
  have hcount : (step.inputs.filter (· ∈ steps.map (·.id))).countP (· ∈ ids) =
      step.inputs.countP (· ∈ ids) := by
    rw [List.countP_filter]
    refine List.countP_congr fun dep _ => ?_
    simp [hids]
  show Assoc.set inDegree step.id _ = _
  rw [← hcount]
  rfl

theorem mem_deps_onlyKnown (hnodup : (steps.map (·.id)).Nodup) {id r : String}
    (hr : r ∈ steps.map (·.id)) (hid : id ∈ steps.map (·.id)) :
    r ∈ (buildDependencyGraph (onlyKnown steps)).deps id ↔ r ∈ (buildDependencyGraph steps).deps id := by
  obtain ⟨step, hstep, rfl⟩ := List.mem_map.mp hid
  have hstep' : ({ step with inputFrom := some (step.inputs.filter (· ∈ steps.map (·.id))) } : ManifestStep)
      ∈ onlyKnown steps := List.mem_map_of_mem hstep
  rw [deps_buildDependencyGraph hnodup hstep]
  have hdeps := deps_buildDependencyGraph (by rw [map_id_onlyKnown]; exact hnodup) hstep'
  rw [hdeps, List.mem_eraseDups, List.mem_eraseDups]
  refine List.mem_filter.trans (and_iff_left (decide_eq_true hr))

/-! ## What decides a turn -/

/-- Two graphs that say the same of what remains. -/
def Layering.SameDeps (g : Layering) (adj adj' : Adjacency) : Prop :=
  ∀ id ∈ g.remaining, ∀ r ∈ g.remaining, r ∈ adj.deps id ↔ r ∈ adj'.deps id

theorem peel_congr (h : g.SameDeps adj adj') : g.peel adj = g.peel adj' := by
  have hlower : ∀ id ∈ g.remaining, ∀ inDegree, lower adj id inDegree (sort g.ready) =
      lower adj' id inDegree (sort g.ready) := by
    intro id hid inDegree
    refine List.foldl_ext _ _ _ fun inDegree r hr => ?_
    have hr' : r ∈ g.remaining := List.mem_of_mem_filter (mem_sort.mp hr)
    by_cases hdep : r ∈ adj.deps id
    · rw [if_pos hdep, if_pos ((h id hid r hr').mp hdep)]
    · rw [if_neg hdep, if_neg fun hdep' => hdep ((h id hid r hr').mpr hdep')]
  unfold Layering.peel
  dsimp only
  congr 1
  refine List.foldl_ext _ _ _ fun inDegree id hid => ?_
  exact hlower id (List.mem_of_mem_filter hid) inDegree

theorem layer_congr (hsame : g.SameDeps adj adj') (h : layer adj g = .ok a) : layer adj' g = .ok a := by
  fun_induction layer adj g with
  | case1 g hempty =>
    rw [layer, if_pos hempty]
    exact h
  | case2 => simp at h
  | case3 g hne hready ih =>
    rw [layer, if_neg hne, dif_neg hready, ← peel_congr hsame]
    refine ih (fun id hid r hr => ?_) h
    exact hsame id (mem_remaining_peel.mp hid).1 r (mem_remaining_peel.mp hr).1

/-- The layering starts from the same of both lists, and the graphs say the same of it. -/
theorem computePhases_onlyKnown (hnodup : (steps.map (·.id)).Nodup) :
    computePhases (some (onlyKnown steps)) = .ok a ↔ computePhases (some steps) = .ok a := by
  have hids : (steps.map (·.id)).eraseDups = steps.map (·.id) := Assoc.eraseDups_of_nodup hnodup
  have hsame : ∀ id ∈ steps.map (·.id), ∀ r ∈ steps.map (·.id),
      r ∈ (buildDependencyGraph (onlyKnown steps)).deps id ↔ r ∈ (buildDependencyGraph steps).deps id :=
    fun id hid r hr => mem_deps_onlyKnown hnodup hr hid
  rw [computePhases_eq_layer, computePhases_eq_layer, map_id_onlyKnown, hids,
    inDegrees_onlyKnown _ fun id => Iff.rfl]
  exact ⟨layer_congr hsame, layer_congr fun id hid r hr => (hsame id hid r hr).symm⟩

/-! ## No phase is later than it has to be -/

/-- What else holds at every turn : each step is in one phase or remains, and what remains after a
turn waits for what was there before it. -/
structure Layering.Tight (steps : List ManifestStep) (g : Layering) : Prop where
  all : (g.phases.flatMap (·.stepIds) ++ g.remaining).Perm (steps.map (·.id))
  order : g.stepOrder = g.phases.flatMap (·.stepIds)
  index : ∀ pre p post, g.phases = pre ++ p :: post → p.phaseIndex = pre.length
  next : ∀ pre q p post, g.phases = pre ++ q :: p :: post → ∀ step ∈ steps, step.id ∈ p.stepIds →
    ∃ dep ∈ step.inputs, dep ∈ q.stepIds
  waits : ∀ pre q, g.phases = pre ++ [q] → ∀ step ∈ steps, step.id ∈ g.remaining → step.inputs.Nodup →
    ∃ dep ∈ step.inputs, dep ∈ q.stepIds ∨ dep ∈ g.remaining

/-- The last phase, or one before it. -/
theorem append_eq_split {α : Type*} {l pre post : List α} {x y : α} (h : l ++ [x] = pre ++ y :: post) :
    (pre = l ∧ y = x ∧ post = []) ∨ ∃ post', post = post' ++ [x] ∧ l = pre ++ y :: post' := by
  rcases List.eq_nil_or_concat post with rfl | ⟨post', z, rfl⟩
  · obtain ⟨h1, h2⟩ := List.append_inj' h rfl
    exact Or.inl ⟨h1.symm, (List.singleton_inj.mp h2).symm, rfl⟩
  · have h' : l ++ [x] = (pre ++ y :: post') ++ [z] := by simpa using h
    obtain ⟨h1, h2⟩ := List.append_inj' h' rfl
    obtain rfl := List.singleton_inj.mp h2
    exact Or.inr ⟨post', by simp, h1⟩

/-- What remains is what is ready and what remains after it. -/
theorem remaining_perm (adj : Adjacency) (g : Layering) :
    (sort g.ready ++ (g.peel adj).remaining).Perm g.remaining := by
  have hrest : (g.peel adj).remaining =
      g.remaining.filter fun id => !decide ((Assoc.get g.inDegree id).getD 0 = 0) := by
    refine List.filter_congr fun id hid => ?_
    simp [mem_sort, Layering.ready, hid]
  rw [hrest]
  exact ((List.perm_insertionSort _ _).append_right _).trans (List.filter_append_perm _ _)

theorem Layering.Tight.peel (h : g.Tight steps) (hg : g.Counted steps) : (g.peel adj).Tight steps := by
  refine ⟨?_, ?_, ?_, ?_, ?_⟩
  · show ((g.phases ++ [(⟨g.phases.length, sort g.ready⟩ : ExecutionPhase)]).flatMap (·.stepIds) ++
      _).Perm _
    rw [List.flatMap_append, List.append_assoc]
    refine (List.Perm.append_left _ ?_).trans h.all
    simpa using remaining_perm adj g
  · show g.stepOrder ++ sort g.ready =
      (g.phases ++ [(⟨g.phases.length, sort g.ready⟩ : ExecutionPhase)]).flatMap (·.stepIds)
    rw [h.order, List.flatMap_append]
    simp
  · intro pre p post hsplit
    rcases append_eq_split hsplit with ⟨rfl, rfl, rfl⟩ | ⟨post', rfl, hphases⟩
    · rfl
    · exact h.index pre p post' hphases
  · intro pre q p post hsplit step hstep hid
    have hsplit' : g.phases ++ [⟨g.phases.length, sort g.ready⟩] = (pre ++ [q]) ++ p :: post := by
      rw [List.append_assoc]
      exact hsplit
    rcases append_eq_split hsplit' with ⟨hphases, rfl, rfl⟩ | ⟨post', rfl, hphases⟩
    · obtain ⟨hrem, hnodup, hnone⟩ := (hg.mem_ready hstep).mp (mem_sort.mp hid)
      obtain ⟨dep, hdep, hq | hremains⟩ := h.waits pre q hphases.symm step hstep hrem hnodup
      · exact ⟨dep, hdep, hq⟩
      · exact absurd hremains (hnone dep hdep)
    · exact h.next pre q p post' (by simpa using hphases) step hstep hid
  · intro pre q hsplit step hstep hid hnodup
    obtain ⟨rfl, hq⟩ := List.append_inj' hsplit rfl
    obtain rfl := List.singleton_inj.mp hq
    obtain ⟨hrem, hnot⟩ := mem_remaining_peel.mp hid
    rw [hg.mem_ready hstep] at hnot
    obtain ⟨dep, hdep, hdeprem⟩ : ∃ dep ∈ step.inputs, dep ∈ g.remaining := by
      by_contra hnone
      exact hnot ⟨hrem, hnodup, fun dep hdep hdeprem => hnone ⟨dep, hdep, hdeprem⟩⟩
    refine ⟨dep, hdep, ?_⟩
    by_cases hready : dep ∈ g.ready
    · exact Or.inl (mem_sort.mpr hready)
    · exact Or.inr (mem_remaining_peel.mpr ⟨hdeprem, hready⟩)

/-- A layering that returns leaves nothing. -/
theorem layer_tight (hnodup : (steps.map (·.id)).Nodup)
    (hknown : ∀ step ∈ steps, ∀ dep ∈ step.inputs, dep ∈ steps.map (·.id)) (ht : g.Tight steps)
    (hg : g.Counted steps) (hl : Layered steps g.phases)
    (h : layer (buildDependencyGraph steps) g = .ok a) :
    Layered steps a.phases ∧
      Layering.Tight steps ⟨[], a.phases, a.stepOrder, []⟩ := by
  fun_induction layer (buildDependencyGraph steps) g with
  | case1 g hempty =>
    obtain rfl : ⟨g.phases, g.stepOrder⟩ = a := by simpa using h
    rw [← hempty]
    exact ⟨hl, ht.all, ht.order, ht.index, ht.next, ht.waits⟩
  | case2 => simp at h
  | case3 g hne hready ih => exact ih (ht.peel hg) (hg.peel hnodup) (hg.layered_peel hknown hl) h

/-! ## The order of the steps decides nothing -/

theorem Layering.Counted.mem_ready_iff (hg : g.Counted steps) {id : String} : id ∈ g.ready ↔
    ∃ step ∈ steps, step.id = id ∧ id ∈ g.remaining ∧ step.inputs.Nodup ∧
      ∀ dep ∈ step.inputs, dep ∉ g.remaining := by
  constructor
  · intro hid
    obtain ⟨step, hstep, rfl⟩ := hg.known id (List.mem_of_mem_filter hid)
    exact ⟨step, hstep, rfl, (hg.mem_ready hstep).mp hid⟩
  · rintro ⟨step, hstep, rfl, hready⟩
    exact (hg.mem_ready hstep).mpr hready

theorem ready_perm (hperm : steps'.Perm steps) (hg : g.Counted steps) (hg' : g'.Counted steps')
    (hremaining : g'.remaining.Perm g.remaining) : g'.ready.Perm g.ready := by
  have hnodup : g.ready.Nodup := hg.nodup.filter _
  have hnodup' : g'.ready.Nodup := hg'.nodup.filter _
  refine (List.perm_ext_iff_of_nodup hnodup' hnodup).mpr fun id => ?_
  rw [hg.mem_ready_iff, hg'.mem_ready_iff]
  simp only [hperm.mem_iff, hremaining.mem_iff]

/-- The same steps in another order are layered the same. -/
theorem layer_perm (hnodup : (steps.map (·.id)).Nodup) (hperm : steps'.Perm steps) (hg : g.Counted steps)
    (hg' : g'.Counted steps') (hremaining : g'.remaining.Perm g.remaining) (hphases : g'.phases = g.phases)
    (horder : g'.stepOrder = g.stepOrder) (h : layer (buildDependencyGraph steps) g = .ok a) :
    layer (buildDependencyGraph steps') g' = .ok a := by
  fun_induction layer (buildDependencyGraph steps) g generalizing g' with
  | case1 g hempty =>
    rw [hempty] at hremaining
    rw [layer, if_pos hremaining.eq_nil, hphases, horder]
    exact h
  | case2 => simp at h
  | case3 g hne hready ih =>
    have hnodup' : (steps'.map (·.id)).Nodup := (hperm.map _).nodup_iff.mpr hnodup
    have hsame := ready_perm hperm hg hg' hremaining
    have hsort := sort_perm hsame
    have hrest : (g'.peel (buildDependencyGraph steps')).remaining.Perm
        (g.peel (buildDependencyGraph steps)).remaining := by
      refine (List.perm_ext_iff_of_nodup (hg'.peel hnodup').nodup (hg.peel hnodup).nodup).mpr fun id => ?_
      rw [mem_remaining_peel, mem_remaining_peel, hsame.mem_iff, hremaining.mem_iff]
    rw [layer, if_neg fun hnil => hne (by rw [hnil] at hremaining; exact hremaining.nil_eq.symm),
      dif_neg fun hnil => hready (by rw [hnil] at hsame; exact hsame.nil_eq.symm)]
    refine ih (hg.peel hnodup) (hg'.peel hnodup') hrest ?_ ?_ h
    · simp only [Layering.peel, hphases, hsort]
    · simp only [Layering.peel, horder, hsort]

/-! ## The phases of any list of steps -/

theorem tight_start (hnodup : (steps.map (·.id)).Nodup) : Layering.Tight steps
    ⟨inDegrees (steps.map (·.id)).eraseDups steps, [], [], (steps.map (·.id)).eraseDups⟩ := by
  refine ⟨?_, rfl, fun pre p post hsplit => ?_, fun pre q p post hsplit => ?_, fun pre q hsplit => ?_⟩
  · rw [Assoc.eraseDups_of_nodup hnodup]
    exact List.Perm.refl _
  · simp at hsplit
  · simp at hsplit
  · simp at hsplit

theorem onlyKnown_known : ∀ step ∈ onlyKnown steps, ∀ dep ∈ step.inputs,
    dep ∈ (onlyKnown steps).map (·.id) := by
  intro step hstep dep hdep
  obtain ⟨step', -, rfl⟩ := List.mem_map.mp hstep
  rw [map_id_onlyKnown]
  exact of_decide_eq_true (List.mem_filter.mp hdep).2

theorem onlyKnown_perm (hperm : steps'.Perm steps) : (onlyKnown steps').Perm (onlyKnown steps) := by
  have hids : ∀ id, id ∈ steps'.map (·.id) ↔ id ∈ steps.map (·.id) := fun id => (hperm.map _).mem_iff
  unfold onlyKnown
  simp only [hids]
  exact hperm.map _

/-- Where phases are computed, each step is in one of them, after the steps it takes input from, and
right after the phase of one of those, unless it is in the first. The order of the steps decides
nothing. -/
theorem phases_are_longest_path_layers (hnodup : (steps.map (·.id)).Nodup)
    (h : computePhases (some steps) = .ok a) :
    (a.phases.flatMap (·.stepIds)).Perm (steps.map (·.id)) ∧
    a.stepOrder = a.phases.flatMap (·.stepIds) ∧
    (∀ pre p post, a.phases = pre ++ p :: post → p.phaseIndex = pre.length ∧
      ∀ step ∈ steps, step.id ∈ p.stepIds → ∀ dep ∈ step.inputs, dep ∈ steps.map (·.id) →
        ∃ q ∈ pre, dep ∈ q.stepIds) ∧
    (∀ pre q p post, a.phases = pre ++ q :: p :: post → ∀ step ∈ steps, step.id ∈ p.stepIds →
      ∃ dep ∈ step.inputs, dep ∈ q.stepIds) ∧
    ∀ steps', steps'.Perm steps → computePhases (some steps') = .ok a := by
  have hknown := (computePhases_onlyKnown hnodup).mpr h
  have hnodup' : ((onlyKnown steps).map (·.id)).Nodup := by rwa [map_id_onlyKnown]
  have hstart := counted_start hnodup' onlyKnown_known
  rw [computePhases_eq_layer] at hknown
  obtain ⟨hlayered, hall, horder, hindex, hnext, -⟩ := layer_tight hnodup' onlyKnown_known
    (tight_start hnodup') hstart (fun pre p post hsplit => by simp at hsplit) hknown
  rw [map_id_onlyKnown, List.append_nil] at hall
  refine ⟨hall, horder, fun pre p post hsplit => ⟨hindex pre p post hsplit, ?_⟩, ?_, fun steps' hperm => ?_⟩
  · intro step hstep hid dep hdep hdepknown
    refine hlayered pre p post hsplit _ (List.mem_map_of_mem hstep) hid dep ?_
    exact List.mem_filter.mpr ⟨hdep, decide_eq_true hdepknown⟩
  · intro pre q p post hsplit step hstep hid
    obtain ⟨dep, hdep, hq⟩ := hnext pre q p post hsplit _ (List.mem_map_of_mem hstep) hid
    exact ⟨dep, List.mem_of_mem_filter hdep, hq⟩
  · have hnodup₁ : (steps'.map (·.id)).Nodup := (hperm.map _).nodup_iff.mpr hnodup
    have hnodup₁' : ((onlyKnown steps').map (·.id)).Nodup := by rwa [map_id_onlyKnown]
    refine (computePhases_onlyKnown hnodup₁).mp ?_
    rw [computePhases_eq_layer]
    refine layer_perm hnodup' (onlyKnown_perm hperm) hstart
      (counted_start hnodup₁' onlyKnown_known) ?_ rfl rfl
      hknown
    dsimp only
    rw [Assoc.eraseDups_of_nodup hnodup', Assoc.eraseDups_of_nodup hnodup₁']
    exact (onlyKnown_perm hperm).map _

/-- The phases of the diamond. -/
def diamondPhases : GraphAnalysis :=
  ⟨[⟨0, ["fetch"]⟩, ⟨1, ["left", "right"]⟩, ⟨2, ["join"]⟩], ["fetch", "left", "right", "join"]⟩

theorem diamond_in_any_order : computePhases (some diamond) = .ok diamondPhases ∧
    computePhases (some diamond.reverse) = .ok diamondPhases := by
  have h : computePhases (some diamond) = .ok diamondPhases := by decide +kernel
  obtain ⟨-, -, -, -, hperm⟩ := phases_are_longest_path_layers (by decide) h
  exact ⟨h, hperm _ (List.reverse_perm _)⟩

end Lynox.Orchestrator
