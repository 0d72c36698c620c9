import Lynox.Orchestrator.Graph

/-!
# What validation accepts, layered

A search that finds no cycle has shown every step to rest on finitely many others : the
dependency relation is accessible at each key (`acc_of_detectCycle`). The invariant of the
search is `Search.Safe` : a black node is accessible, and whatever a gray node depends on is
black or lies above it on the stack.

The layering counts. A step's in-degree is the number of its references, less the
dependencies peeled off already (`Layering.Counted`). The references are counted as written
and the dependencies as a set, so the count comes down to 0 when the last dependency leaves
only if no reference is written twice. Hence `computePhases` returns on an accepted list of
steps exactly when no step repeats a reference, and whenever it returns, every step comes in
a later phase than what it takes input from (`inputs_in_earlier_phase`).
-/

namespace Lynox.Orchestrator

/-- The step `id` takes input from the known step `dep`. -/
def Adjacency.DependsOn (adj : Adjacency) (dep id : String) : Prop :=
  dep ∈ adj.deps id ∧ dep ∈ adj.map Prod.fst

/-! ## The search is sound -/

/-- What holds at every turn of the search. -/
structure Search.Safe (adj : Adjacency) (s : Search) : Prop where
  black : ∀ n, Assoc.get s.color n = some .black → Acc adj.DependsOn n
  /-- What a gray node depends on is black or lies above it. -/
  gray : ∀ n, Assoc.get s.color n = some .gray → ∃ above below, s.stack = above ++ n :: below ∧
    n ∉ above ∧ ∀ d, adj.DependsOn d n → Assoc.get s.color d = some .black ∨ d ∈ above

theorem Search.Safe.scan {adj : Adjacency} {s s' : Search} {node : String} {rest : List String}
    (hs : s.Safe adj) (hstack : s.stack = node :: rest)
    (hkeys : ∀ n, n ∈ adj.map Prod.fst → ∃ c, Assoc.get s.color n = some c)
    (hnode : Assoc.get s.color node = some .white)
    (h : scan adj node (adj.deps node) { s with color := Assoc.set s.color node .gray } = .ok s') :
    s'.Safe adj := by
  obtain ⟨hcolor, hngray, pushed, hstack', -, hwhite, hall⟩ := scan_ok h
  simp only at hcolor hngray hstack' hwhite hall
  have hpushed : ∀ n, Assoc.get s'.color n = some .gray → n ∉ pushed := by
    intro n hn hmem
    have := (hwhite n hmem).2
    rw [← hcolor, hn] at this
    simp at this
  refine ⟨fun n hn => ?_, fun n hn => ?_⟩
  · by_cases he : n = node
    · rw [hcolor, he, Assoc.get_set_self] at hn
      simp at hn
    · rw [hcolor, Assoc.get_set_of_ne he] at hn
      exact hs.black n hn
  · by_cases he : n = node
    · subst he
      refine ⟨pushed, rest, by rw [hstack', hstack], hpushed n hn, fun d hd => ?_⟩
      obtain ⟨c, hc⟩ : ∃ c, Assoc.get s'.color d = some c := by
        rw [hcolor]
        by_cases hdn : d = n
        · exact ⟨_, by rw [hdn, Assoc.get_set_self]⟩
        · rw [Assoc.get_set_of_ne hdn]
          exact hkeys d hd.2
      cases c with
      | black => exact Or.inl hc
      | gray => exact absurd (hcolor ▸ hc) (hngray d hd.1 hd.2)
      | white => exact Or.inr (hall d hd.1 hd.2 (hcolor ▸ hc))
    · have hn' := hn
      rw [hcolor, Assoc.get_set_of_ne he] at hn'
      obtain ⟨above, below, hsplit, hnotin, hdeps⟩ := hs.gray n hn'
      refine ⟨pushed ++ above, below, by rw [hstack', hsplit, List.append_assoc], ?_, ?_⟩
      · exact fun hm => (List.mem_append.mp hm).elim (hpushed n hn) hnotin
      · intro d hd
        rcases hdeps d hd with hb | hm
        · refine Or.inl ?_
          have hdn : d ≠ node := fun hdn => by
            rw [hdn, hnode] at hb
            simp at hb
          rw [hcolor, Assoc.get_set_of_ne hdn, hb]
        · exact Or.inr (List.mem_append_right _ hm)

/-- A node that is popped rests on black ones only. -/
theorem Search.Safe.pop {adj : Adjacency} {s : Search} {node : String} {rest : List String}
    (hs : s.Safe adj) (hstack : s.stack = node :: rest)
    (hnode : ∃ c, Assoc.get s.color node = some c)
    (hwhite : Assoc.get s.color node ≠ some .white) :
    Search.Safe adj { s with color := Assoc.set s.color node .black, stack := rest } := by
  have hacc : Acc adj.DependsOn node := by
    obtain ⟨c, hc⟩ := hnode
    cases c with
    | white => exact absurd hc hwhite
    | black => exact hs.black node hc
    | gray =>
      obtain ⟨above, below, hsplit, hnotin, hdeps⟩ := hs.gray node hc
      obtain rfl : above = [] := by
        rcases above with _ | ⟨a, above⟩
        · rfl
        · rw [hstack, List.cons_append, List.cons.injEq] at hsplit
          exact absurd (hsplit.1 ▸ List.mem_cons_self) hnotin
      refine Acc.intro node fun d hd => ?_
      rcases hdeps d hd with hb | hm
      · exact hs.black d hb
      · simp at hm
  refine ⟨fun n hn => ?_, fun n hn => ?_⟩
  · by_cases he : n = node
    · exact he ▸ hacc
    · rw [Assoc.get_set_of_ne he] at hn
      exact hs.black n hn
  · have he : n ≠ node := fun he => by
      rw [he, Assoc.get_set_self] at hn
      simp at hn
    rw [Assoc.get_set_of_ne he] at hn
    obtain ⟨above, below, hsplit, hnotin, hdeps⟩ := hs.gray n hn
    -- the popped node is the top, and `n` is another node, so it was above `n`
    rcases above with _ | ⟨a, above⟩
    · rw [hstack, List.nil_append, List.cons.injEq] at hsplit
      exact absurd hsplit.1.symm he
    · rw [hstack, List.cons_append, List.cons.injEq] at hsplit
      obtain ⟨rfl, hrest⟩ := hsplit
      refine ⟨above, below, hrest, fun hm => hnotin (List.mem_cons_of_mem _ hm), fun d hd => ?_⟩
      by_cases hdn : d = node
      · exact Or.inl (by rw [hdn, Assoc.get_set_self])
      · rw [Assoc.get_set_of_ne hdn]
        refine (hdeps d hd).imp_right fun hm => ?_
        exact (List.mem_cons.mp hm).resolve_left hdn

/-- Every key and every node on the stack has a colour. -/
def Search.Colored (adj : Adjacency) (s : Search) : Prop :=
  (∀ n ∈ adj.map Prod.fst, ∃ c, Assoc.get s.color n = some c) ∧
    ∀ n ∈ s.stack, ∃ c, Assoc.get s.color n = some c

theorem Search.Colored.set {adj : Adjacency} {s s' : Search} {node : String} {c : Color}
    (hc : s.Colored adj) (hcolor : s'.color = Assoc.set s.color node c)
    (hstack : ∀ n ∈ s'.stack, n ∈ s.stack ∨ n ∈ adj.map Prod.fst) : s'.Colored adj := by
  have hkeep : ∀ n, (∃ c, Assoc.get s.color n = some c) → ∃ c, Assoc.get s'.color n = some c := by
    rintro n ⟨c', hn⟩
    rw [hcolor, Assoc.get_set]
    split
    · exact ⟨_, rfl⟩
    · exact ⟨c', hn⟩
  refine ⟨fun n hn => hkeep n (hc.1 n hn), fun n hn => ?_⟩
  rcases hstack n hn with h | h
  · exact hkeep n (hc.2 n h)
  · exact hkeep n (hc.1 n h)

/-- The search from one start : what was not white stays so, and what lay on the stack is
not white any more. -/
theorem descend_ok {adj : Adjacency} {s s' : Search} (hs : s.Safe adj) (hc : s.Colored adj)
    (h : descend adj s = .ok s') :
    s'.Safe adj ∧ s'.Colored adj ∧ s'.stack = [] ∧
      ∀ n, Assoc.get s.color n ≠ some .white ∨ n ∈ s.stack →
        Assoc.get s'.color n ≠ some .white := by
  fun_induction descend adj s with
  | case1 s hstack =>
    obtain rfl : s = s' := by simpa using h
    refine ⟨hs, hc, hstack, fun n hn => hn.elim id fun hm => ?_⟩
    simp [hstack] at hm
  | case2 => simp at h
  | case3 s node rest hstack hnode s₁ hscan ih =>
    obtain ⟨hcolor, -, pushed, hstack₁, -, hwhite, -⟩ := scan_ok hscan
    have hs₁ := hs.scan hstack hc.1 hnode hscan
    have hc₁ : s₁.Colored adj := hc.set hcolor fun n hn => by
      rw [hstack₁] at hn
      exact (List.mem_append.mp hn).elim (fun hm => Or.inr (hwhite n hm).1) Or.inl
    obtain ⟨hs', hc', hempty, hrest⟩ := ih hs₁ hc₁ h
    refine ⟨hs', hc', hempty, fun n hn => hrest n ?_⟩
    rcases hn with hn | hn
    · left
      rw [hcolor, Assoc.get_set]
      split
      · simp
      · exact hn
    · exact Or.inr (hstack₁ ▸ List.mem_append_right _ hn)
  | case4 s node rest hstack hnode ih =>
    have hnode' := hc.2 node (hstack ▸ List.mem_cons_self)
    have hs₁ := hs.pop hstack hnode' hnode
    have hc₁ : Search.Colored adj
        { s with color := Assoc.set s.color node .black, stack := rest } :=
      hc.set rfl fun n hn => Or.inl (hstack ▸ List.mem_cons_of_mem _ hn)
    obtain ⟨hs', hc', hempty, hrest⟩ := ih hs₁ hc₁ h
    refine ⟨hs', hc', hempty, fun n hn => hrest n ?_⟩
    by_cases he : n = node
    · exact Or.inl (by simp [he])
    · rcases hn with hn | hn
      · exact Or.inl (by rwa [Assoc.get_set_of_ne he])
      · rw [hstack] at hn
        exact Or.inr ((List.mem_cons.mp hn).resolve_left he)

theorem searchFrom_ok {adj : Adjacency} {starts : List String} {s s' : Search}
    (hs : s.Safe adj) (hc : s.Colored adj) (hempty : s.stack = [])
    (hkeys : ∀ n ∈ starts, n ∈ adj.map Prod.fst) (h : searchFrom adj starts s = .ok s') :
    s'.Safe adj ∧ s'.Colored adj ∧ s'.stack = [] ∧
      ∀ n, Assoc.get s.color n ≠ some .white ∨ n ∈ starts →
        Assoc.get s'.color n ≠ some .white := by
  induction starts generalizing s with
  | nil =>
    obtain rfl : s = s' := by simpa [searchFrom] using h
    exact ⟨hs, hc, hempty, fun n hn => hn.elim id fun hm => by simp at hm⟩
  | cons start starts ih =>
    unfold searchFrom at h
    split at h
    · rename_i hstart
      obtain ⟨hs', hc', hempty', hrest⟩ :=
        ih hs hc hempty (fun n hn => hkeys n (List.mem_cons_of_mem _ hn)) h
      refine ⟨hs', hc', hempty', fun n hn => hrest n ?_⟩
      rcases hn with hn | hn
      · exact Or.inl hn
      · rcases List.mem_cons.mp hn with rfl | hn
        · exact Or.inl hstart
        · exact Or.inr hn
    · split at h
      · simp at h
      · rename_i s₁ hdescend
        have hs₀ : Search.Safe adj
            { s with parent := Assoc.set s.parent start none, stack := [start] } := by
          refine ⟨hs.black, fun n hn => ?_⟩
          obtain ⟨above, below, hsplit, -⟩ := hs.gray n hn
          simp [hempty] at hsplit
        have hc₀ : Search.Colored adj
            { s with parent := Assoc.set s.parent start none, stack := [start] } := by
          refine ⟨hc.1, fun n hn => hc.1 n ?_⟩
          exact hkeys n (List.mem_singleton.mp hn ▸ List.mem_cons_self)
        obtain ⟨hs₁, hc₁, hempty₁, hcolor₁⟩ := descend_ok hs₀ hc₀ hdescend
        obtain ⟨hs', hc', hempty', hrest⟩ :=
          ih hs₁ hc₁ hempty₁ (fun n hn => hkeys n (List.mem_cons_of_mem _ hn)) h
        refine ⟨hs', hc', hempty', fun n hn => hrest n ?_⟩
        rcases hn with hn | hn
        · exact Or.inl (hcolor₁ n (Or.inl hn))
        · rcases List.mem_cons.mp hn with rfl | hn
          · exact Or.inl (hcolor₁ n (Or.inr (List.mem_singleton.mpr rfl)))
          · exact Or.inr hn

/-- Before the search every key is white. -/
theorem safe_start (adj : Adjacency) :
    Search.Safe adj ⟨adj.map fun e => (e.1, .white), [], []⟩ := by
  have hwhite : ∀ n c, Assoc.get (adj.map fun e => (e.1, Color.white)) n = some c → c = .white := by
    intro n c hc
    obtain ⟨e, -, he⟩ := List.mem_map.mp (Assoc.mem_of_get hc)
    exact (Prod.mk.inj he).2.symm
  exact ⟨fun n hn => by simpa using hwhite n _ hn, fun n hn => by simpa using hwhite n _ hn⟩

theorem colored_start (adj : Adjacency) :
    Search.Colored adj ⟨adj.map fun e => (e.1, .white), [], []⟩ := by
  refine ⟨fun n hn => Assoc.exists_get.mpr ?_, by simp⟩
  simpa [List.map_map, Function.comp_def] using hn

/-- Where no cycle is found, every step rests on finitely many others. -/
theorem acc_of_detectCycle {adj : Adjacency} (h : detectCycle adj = none) :
    ∀ n ∈ adj.map Prod.fst, Acc adj.DependsOn n := by
  intro n hn
  unfold detectCycle at h
  split at h
  · simp at h
  · rename_i s' hsearch
    obtain ⟨hs', hc', hempty, hcolor⟩ :=
      searchFrom_ok (safe_start adj) (colored_start adj) rfl (fun _ h => h) hsearch
    obtain ⟨c, hc⟩ := hc'.1 n hn
    cases c with
    | white => exact absurd hc (hcolor n (Or.inr hn))
    | black => exact hs'.black n hc
    | gray =>
      obtain ⟨above, below, hsplit, -⟩ := hs'.gray n hc
      simp [hempty] at hsplit

/-! ## What validation says -/

theorem duplicateIn_eq_none {steps : List ManifestStep} {ids : List String} :
    duplicateIn steps ids = none ↔
      (steps.map (·.id)).Nodup ∧ ∀ step ∈ steps, step.id ∉ ids := by
  induction steps generalizing ids with
  | nil => simp [duplicateIn]
  | cons step steps ih =>
    unfold duplicateIn
    split
    · rename_i h
      simp [h]
    · rename_i h
      rw [ih, List.map_cons, List.nodup_cons]
      constructor
      · rintro ⟨hnodup, hnew⟩
        refine ⟨⟨fun hm => ?_, hnodup⟩, ?_⟩
        · obtain ⟨step', hstep', hid⟩ := List.mem_map.mp hm
          exact hnew step' hstep' (by simp [hid])
        · rintro step' (_ | ⟨_, hstep'⟩)
          · exact h
          · exact fun hm => hnew step' hstep' (List.mem_append_left _ hm)
      · rintro ⟨⟨hnew, hnodup⟩, hids⟩
        refine ⟨hnodup, fun step' hstep' hm => ?_⟩
        rcases List.mem_append.mp hm with hm | hm
        · exact hids step' (List.mem_cons_of_mem _ hstep') hm
        · exact hnew (List.mem_singleton.mp hm ▸ List.mem_map_of_mem hstep')

/-- What an accepted list of steps satisfies. -/
structure Validated (steps : List ManifestStep) : Prop where
  nodup : (steps.map (·.id)).Nodup
  known : ∀ step ∈ steps, ∀ dep ∈ step.inputs, dep ∈ steps.map (·.id)
  acc : ∀ step ∈ steps, Acc (buildDependencyGraph steps).DependsOn step.id

theorem buildDependencyGraph_eq {steps : List ManifestStep} (h : (steps.map (·.id)).Nodup) :
    buildDependencyGraph steps = steps.map fun step => (step.id, step.inputs.eraseDups) := by
  simpa [buildDependencyGraph] using Assoc.foldl_set (·.id) (·.inputs.eraseDups) steps [] h (by simp)

theorem deps_buildDependencyGraph {steps : List ManifestStep} {step : ManifestStep}
    (h : (steps.map (·.id)).Nodup) (hstep : step ∈ steps) :
    (buildDependencyGraph steps).deps step.id = step.inputs.eraseDups := by
  rw [Adjacency.deps, buildDependencyGraph, Assoc.get_foldl_set (·.id) (·.inputs.eraseDups) h hstep,
    Option.getD_some]

theorem validated_of_validateGraph {steps : List ManifestStep} (h : validateGraph steps = .ok ()) :
    Validated steps := by
  unfold validateGraph at h
  split at h
  · simp at h
  rename_i hdup
  split at h
  · simp at h
  split at h
  · simp at h
  rename_i horphan
  split at h
  · simp at h
  rename_i hcycle
  have hnodup := (duplicateIn_eq_none.mp hdup).1
  refine ⟨hnodup, fun step hstep dep hdep => ?_, fun step hstep => ?_⟩
  · by_contra hunknown
    have hnone := List.findSome?_eq_none_iff.mp horphan step hstep
    rw [Option.map_eq_none_iff, List.find?_eq_none] at hnone
    exact hnone dep hdep (by simpa using hunknown)
  · refine acc_of_detectCycle hcycle _ ?_
    rw [buildDependencyGraph_eq hnodup, List.map_map]
    exact List.mem_map_of_mem hstep

/-! ## The layering counts -/

theorem get_lower {adj : Adjacency} {id id' : String} {inDegree : List (String × Int)}
    {ready : List String} {n : Int} (h : Assoc.get inDegree id = some n) :
    Assoc.get (lower adj id inDegree ready) id' =
      if id' = id then some (n - ready.countP (· ∈ adj.deps id)) else Assoc.get inDegree id' := by
  induction ready generalizing inDegree n with
  | nil => by_cases he : id' = id <;> simp [lower, he, h]
  | cons r ready ih =>
    rw [lower, List.foldl_cons]
    by_cases hr : r ∈ adj.deps id
    · rw [if_pos hr, h, Option.getD_some]
      have hset : Assoc.get (Assoc.set inDegree id (n - 1)) id = some (n - 1) := by simp
      refine (ih hset).trans ?_
      by_cases he : id' = id
      · simp only [if_pos he, List.countP_cons, hr, decide_true, if_true, Option.some.injEq]
        omega
      · simp only [if_neg he, Assoc.get_set_of_ne he]
    · rw [if_neg hr]
      refine (ih h).trans ?_
      simp [hr]

theorem get_lowerAll (adj : Adjacency) (ready : List String) {ids : List String} {id : String} {n : Int}
    {inDegree : List (String × Int)} (hnodup : ids.Nodup)
    (hall : ∀ id ∈ ids, ∃ n, Assoc.get inDegree id = some n) (hid : id ∈ ids)
    (h : Assoc.get inDegree id = some n) :
    Assoc.get (ids.foldl (fun inDegree id => lower adj id inDegree ready) inDegree) id =
      some (n - ready.countP (· ∈ adj.deps id)) := by
  have hother : ∀ (ids : List String) (inDegree : List (String × Int)), id ∉ ids →
      (∀ id ∈ ids, ∃ n, Assoc.get inDegree id = some n) →
      Assoc.get (ids.foldl (fun inDegree id => lower adj id inDegree ready) inDegree) id =
        Assoc.get inDegree id := by
    intro ids
    induction ids with
    | nil => simp
    | cons i ids ih =>
      intro inDegree hnot hall
      rw [List.mem_cons, not_or] at hnot
      obtain ⟨m, hm⟩ := hall i List.mem_cons_self
      rw [List.foldl_cons, ih _ hnot.2 fun j hj => ?_, get_lower hm, if_neg hnot.1]
      rw [get_lower hm]
      split
      · exact ⟨_, rfl⟩
      · exact hall j (List.mem_cons_of_mem _ hj)
  induction ids generalizing inDegree with
  | nil => simp at hid
  | cons i ids ih =>
    rw [List.nodup_cons] at hnodup
    obtain ⟨m, hm⟩ := hall i List.mem_cons_self
    have hall' : ∀ j ∈ ids, ∃ n, Assoc.get (lower adj i inDegree ready) j = some n := by
      intro j hj
      rw [get_lower hm]
      split
      · exact ⟨_, rfl⟩
      · exact hall j (List.mem_cons_of_mem _ hj)
    rw [List.foldl_cons]
    by_cases he : id = i
    · subst he
      rw [hother ids _ hnodup.1 hall', get_lower h, if_pos rfl]
    · refine ih hnodup.2 hall' ((List.mem_cons.mp hid).resolve_left he) ?_
      rw [get_lower hm, if_neg he, h]

/-- What holds at every turn of the layering. -/
structure Layering.Counted (steps : List ManifestStep) (g : Layering) : Prop where
  nodup : g.remaining.Nodup
  known : ∀ id ∈ g.remaining, ∃ step ∈ steps, step.id = id
  /-- References as written, less the dependencies that have left. -/
  count : ∀ step ∈ steps, step.id ∈ g.remaining → Assoc.get g.inDegree step.id =
    some ((step.inputs.length : Int) - (step.inputs.eraseDups.countP (· ∉ g.remaining) : Nat))
  left : ∀ step ∈ steps, step.id ∉ g.remaining → ∃ p ∈ g.phases, step.id ∈ p.stepIds

/-- A step is ready when it repeats no reference and nothing it references remains. -/
theorem Layering.Counted.mem_ready {steps : List ManifestStep} {g : Layering}
    {step : ManifestStep} (hg : g.Counted steps) (hstep : step ∈ steps) :
    step.id ∈ g.ready ↔ step.id ∈ g.remaining ∧ step.inputs.Nodup ∧
      ∀ dep ∈ step.inputs, dep ∉ g.remaining := by
  rw [Layering.ready, List.mem_filter]
  refine and_congr_right fun hrem => ?_
  rw [hg.count step hstep hrem, Option.getD_some, decide_eq_true_eq]
  have hle := List.countP_le_length (p := fun d => decide (d ∉ g.remaining))
    (l := step.inputs.eraseDups)
  have hle' := Assoc.length_eraseDups_le step.inputs
  constructor
  · intro hzero
    refine ⟨Assoc.length_eraseDups_eq_iff.mp (by omega), fun dep hdep => ?_⟩
    have hall := List.countP_eq_length.mp
      (show step.inputs.eraseDups.countP (fun d => decide (d ∉ g.remaining)) =
        step.inputs.eraseDups.length by omega)
    simpa using hall dep (List.mem_eraseDups.mpr hdep)
  · rintro ⟨hnodup, hall⟩
    have hcount : step.inputs.eraseDups.countP (fun d => decide (d ∉ g.remaining)) =
        step.inputs.eraseDups.length :=
      List.countP_eq_length.mpr fun d hd => by simpa using hall d (List.mem_eraseDups.mp hd)
    have := Assoc.length_eraseDups_eq_iff.mpr hnodup
    omega

theorem mem_remaining_peel {adj : Adjacency} {g : Layering} {id : String} :
    id ∈ (g.peel adj).remaining ↔ id ∈ g.remaining ∧ id ∉ g.ready := by
  simp [Layering.peel, mem_sort]

theorem Layering.Counted.peel {steps : List ManifestStep} {g : Layering}
    (hnodup : (steps.map (·.id)).Nodup) (hg : g.Counted steps) :
    (g.peel (buildDependencyGraph steps)).Counted steps := by
  refine ⟨hg.nodup.filter _, fun id hid => hg.known id (List.mem_of_mem_filter hid), ?_, ?_⟩
  · intro step hstep hrem
    have hrem' := (mem_remaining_peel.mp hrem).1
    have hready : (sort g.ready).Nodup :=
      (List.perm_insertionSort ..).nodup_iff.mpr (hg.nodup.filter _)
    have hget := get_lowerAll (buildDependencyGraph steps) (sort g.ready)
      (hg.nodup.filter _) (fun id hid => ?_) hrem (hg.count step hstep hrem')
    · refine hget.trans ?_
      rw [deps_buildDependencyGraph hnodup hstep, Option.some.injEq,
        Assoc.countP_mem_comm hready (Assoc.nodup_eraseDups _)]
      -- what has left after the phase is what had left before, and the phase
      have hsplit : ∀ deps : List String,
          deps.countP (· ∉ (g.peel (buildDependencyGraph steps)).remaining) =
            deps.countP (· ∉ g.remaining) + deps.countP (· ∈ sort g.ready) := by
        intro deps
        induction deps with
        | nil => rfl
        | cons d deps ih =>
          rw [List.countP_cons, List.countP_cons, List.countP_cons, ih]
          simp only [mem_remaining_peel, mem_sort, decide_eq_true_eq]
          by_cases hrem : d ∈ g.remaining
          · by_cases hr : d ∈ g.ready <;> simp [hrem, hr]
            omega
          · have hr : d ∉ g.ready := fun hr => hrem (List.mem_of_mem_filter hr)
            simp [hrem, hr]
            omega
      rw [hsplit]
      omega
    · obtain ⟨step', hstep', rfl⟩ := hg.known id (List.mem_of_mem_filter hid)
      exact ⟨_, hg.count step' hstep' (List.mem_of_mem_filter hid)⟩
  · intro step hstep hrem
    rw [mem_remaining_peel, not_and, not_not] at hrem
    by_cases h : step.id ∈ g.remaining
    · exact ⟨⟨g.phases.length, sort g.ready⟩, by simp [Layering.peel], mem_sort.mpr (hrem h)⟩
    · obtain ⟨p, hp, hid⟩ := hg.left step hstep h
      exact ⟨p, List.mem_append_left _ hp, hid⟩

/-- Every step of a phase takes its input from earlier phases. -/
def Layered (steps : List ManifestStep) (phases : List ExecutionPhase) : Prop :=
  ∀ pre p post, phases = pre ++ p :: post → ∀ step ∈ steps, step.id ∈ p.stepIds →
    ∀ dep ∈ step.inputs, ∃ q ∈ pre, dep ∈ q.stepIds

theorem Layered.snoc {steps : List ManifestStep} {phases : List ExecutionPhase}
    {p : ExecutionPhase} (h : Layered steps phases)
    (hp : ∀ step ∈ steps, step.id ∈ p.stepIds → ∀ dep ∈ step.inputs,
      ∃ q ∈ phases, dep ∈ q.stepIds) : Layered steps (phases ++ [p]) := by
  intro pre p' post hsplit
  rcases List.eq_nil_or_concat post with rfl | ⟨post', q, rfl⟩
  · obtain ⟨rfl, hq⟩ := List.append_inj' hsplit rfl
    obtain rfl := List.singleton_inj.mp hq
    exact hp
  · have hsplit' : phases ++ [p] = (pre ++ p' :: post') ++ [q] := by simpa using hsplit
    exact h pre p' post' (List.append_inj' hsplit' rfl).1

/-- One turn of the layering puts the new phase after what it rests on. -/
theorem Layering.Counted.layered_peel {steps : List ManifestStep} {g : Layering}
    {adj : Adjacency} (hknown : ∀ step ∈ steps, ∀ dep ∈ step.inputs, dep ∈ steps.map (·.id))
    (hg : g.Counted steps) (h : Layered steps g.phases) :
    Layered steps (g.peel adj).phases := by
  refine h.snoc fun step hstep hid dep hdep => ?_
  have hrem := ((hg.mem_ready hstep).mp (mem_sort.mp hid)).2.2 dep hdep
  obtain ⟨step', hstep', rfl⟩ := List.mem_map.mp (hknown step hstep dep hdep)
  exact hg.left step' hstep' hrem

/-- The layering, when it returns : the steps that remained repeat no reference, the phases
are in order and every phase holds known steps only. -/
theorem layer_ok {steps : List ManifestStep} {g : Layering} {a : GraphAnalysis}
    (hv : Validated steps) (hg : g.Counted steps) (hl : Layered steps g.phases)
    (hids : ∀ p ∈ g.phases, ∀ id ∈ p.stepIds, id ∈ steps.map (·.id))
    (h : layer (buildDependencyGraph steps) g = .ok a) :
    Layered steps a.phases ∧ (∀ p ∈ a.phases, ∀ id ∈ p.stepIds, id ∈ steps.map (·.id)) ∧
      ∀ step ∈ steps, step.id ∈ g.remaining → step.inputs.Nodup := by
  fun_induction layer (buildDependencyGraph steps) g with
  | case1 g hempty =>
    obtain rfl : ⟨g.phases, g.stepOrder⟩ = a := by simpa using h
    exact ⟨hl, hids, fun step _ hrem => by simp [hempty] at hrem⟩
  | case2 => simp at h
  | case3 g hne hready ih =>
    have hids' : ∀ p ∈ (g.peel (buildDependencyGraph steps)).phases, ∀ id ∈ p.stepIds,
        id ∈ steps.map (·.id) := by
      intro p hp id hid
      rcases List.mem_append.mp hp with hp | hp
      · exact hids p hp id hid
      · obtain rfl := List.mem_singleton.mp hp
        obtain ⟨step, hstep, rfl⟩ := hg.known id (List.mem_of_mem_filter (mem_sort.mp hid))
        exact List.mem_map_of_mem hstep
    obtain ⟨hlayered, hall, hnodup⟩ := ih (hg.peel hv.nodup) (hg.layered_peel hv.known hl) hids' h
    refine ⟨hlayered, hall, fun step hstep hrem => ?_⟩
    by_cases hr : step.id ∈ g.ready
    · exact ((hg.mem_ready hstep).mp hr).2.1
    · exact hnodup step hstep (mem_remaining_peel.mpr ⟨hrem, hr⟩)

/-- Something is always ready : a remaining step that rests on no other remaining one. -/
theorem Layering.Counted.ready_ne_nil {steps : List ManifestStep} {g : Layering}
    (hv : Validated steps) (hg : g.Counted steps) (hnodup : ∀ step ∈ steps, step.inputs.Nodup)
    (hne : g.remaining ≠ []) : g.ready ≠ [] := by
  obtain ⟨id, hid⟩ := List.exists_mem_of_ne_nil _ hne
  obtain ⟨step, hstep, rfl⟩ := hg.known id hid
  have hacc := hv.acc step hstep
  generalize hn : step.id = n at hacc hid
  induction hacc generalizing step with
  | intro n _ ih =>
    subst hn
    by_cases hdeps : ∀ dep ∈ step.inputs, dep ∉ g.remaining
    · exact List.ne_nil_of_mem ((hg.mem_ready hstep).mpr ⟨hid, hnodup step hstep, hdeps⟩)
    · simp only [not_forall, not_not] at hdeps
      obtain ⟨dep, hdep, hrem⟩ := hdeps
      obtain ⟨step', hstep', rfl⟩ := hg.known dep hrem
      refine ih step'.id ⟨?_, ?_⟩ step' hstep' rfl hrem
      · rw [deps_buildDependencyGraph hv.nodup hstep]
        exact List.mem_eraseDups.mpr hdep
      · rw [buildDependencyGraph_eq hv.nodup, List.map_map]
        exact List.mem_map_of_mem hstep'

theorem layer_isOk {steps : List ManifestStep} {g : Layering} (hv : Validated steps)
    (hg : g.Counted steps) (hnodup : ∀ step ∈ steps, step.inputs.Nodup) :
    ∃ a, layer (buildDependencyGraph steps) g = .ok a := by
  fun_induction layer (buildDependencyGraph steps) g with
  | case1 => exact ⟨_, rfl⟩
  | case2 g hne hready => exact absurd hready (hg.ready_ne_nil hv hnodup hne)
  | case3 g hne hready ih => exact ih (hg.peel hv.nodup)

/-! ## Phases of an accepted list -/

/-- Where the layering starts from steps with references to steps only. -/
theorem counted_start {steps : List ManifestStep} (hnodup : (steps.map (·.id)).Nodup)
    (hknown : ∀ step ∈ steps, ∀ dep ∈ step.inputs, dep ∈ steps.map (·.id)) :
    Layering.Counted steps
      ⟨inDegrees (steps.map (·.id)).eraseDups steps, [], [], (steps.map (·.id)).eraseDups⟩ := by
  rw [Assoc.eraseDups_of_nodup hnodup]
  refine ⟨hnodup, fun id hid => List.mem_map.mp hid, fun step hstep _ => ?_, ?_⟩
  · have hall : step.inputs.countP (fun dep => decide (dep ∈ steps.map (·.id))) =
        step.inputs.length :=
      List.countP_eq_length.mpr fun dep hdep => decide_eq_true (hknown step hstep dep hdep)
    have hnone : step.inputs.eraseDups.countP (fun dep => decide (dep ∉ steps.map (·.id))) = 0 := by
      refine List.countP_eq_zero.mpr fun dep hdep => ?_
      simpa using hknown step hstep dep (List.mem_eraseDups.mp hdep)
    rw [inDegrees, Assoc.get_foldl_set (·.id)
      (fun step => (step.inputs.countP (fun dep => decide (dep ∈ steps.map (·.id))) : Int))
      hnodup hstep, hall, hnone]
    simp
  · exact fun step hstep hrem => absurd (List.mem_map_of_mem hstep) hrem

theorem computePhases_eq_layer {steps : List ManifestStep} :
    computePhases (some steps) = layer (buildDependencyGraph steps)
      ⟨inDegrees (steps.map (·.id)).eraseDups steps, [], [], (steps.map (·.id)).eraseDups⟩ := by
  rcases steps with _ | ⟨step, steps⟩
  · simp [computePhases, layer]
  · rfl

/-- On an accepted list of steps, phases come out exactly when no step names an input
twice. -/
theorem computePhases_returns_iff {steps : List ManifestStep} (h : validateGraph steps = .ok ()) :
    (∃ a, computePhases (some steps) = .ok a) ↔ ∀ step ∈ steps, step.inputs.Nodup := by
  have hv := validated_of_validateGraph h
  rw [computePhases_eq_layer]
  constructor
  · rintro ⟨a, ha⟩ step hstep
    refine (layer_ok hv (counted_start hv.nodup hv.known) (fun pre p post hp => by simp at hp)
      (by simp) ha).2.2
      step hstep ?_
    exact List.mem_eraseDups.mpr (List.mem_map_of_mem hstep)
  · exact layer_isOk hv (counted_start hv.nodup hv.known)

/-- Four steps, the last resting on two that rest on the first. -/
def diamond : List ManifestStep :=
  [⟨"fetch", "reader", .mock, none⟩, ⟨"left", "writer", .mock, some ["fetch"]⟩,
    ⟨"right", "writer", .mock, some ["fetch"]⟩, ⟨"join", "writer", .mock, some ["right", "left"]⟩]

theorem diamond_layers :
    validateGraph diamond = .ok () ∧ ∃ a, computePhases (some diamond) = .ok a := by
  have hvalid : validateGraph diamond = .ok () := by decide +kernel
  exact ⟨hvalid, (computePhases_returns_iff hvalid).mpr (by decide)⟩

/-- Two steps, the second naming the first twice. -/
def namedTwice : List ManifestStep :=
  [⟨"fetch", "reader", .mock, none⟩, ⟨"join", "writer", .mock, some ["fetch", "fetch"]⟩]

/-- Both references count in the in-degree and only one is taken off, so the step that is
left looks like a cycle. -/
theorem named_twice_throws : validateGraph namedTwice = .ok () ∧
    computePhases (some namedTwice) = .error (.cycle ["join"]) := by
  constructor <;> decide +kernel

/-- Every step of a phase is a known step that takes its input from earlier phases. -/
theorem inputs_in_earlier_phase {steps : List ManifestStep} {a : GraphAnalysis}
    (h : validateGraph steps = .ok ()) (ha : computePhases (some steps) = .ok a) :
    Layered steps a.phases ∧ ∀ p ∈ a.phases, ∀ id ∈ p.stepIds, id ∈ steps.map (·.id) := by
  have hv := validated_of_validateGraph h
  rw [computePhases_eq_layer] at ha
  have hl : Layered steps [] := fun pre p post hp => by simp at hp
  obtain ⟨hlayered, hids, -⟩ := layer_ok hv (counted_start hv.nodup hv.known) hl (by simp) ha
  exact ⟨hlayered, hids⟩

end Lynox.Orchestrator
