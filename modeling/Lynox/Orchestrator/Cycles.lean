import Lynox.Orchestrator.Layers
import Mathlib.Data.List.Chain

/-!
# The cycle that is named

A search that ends at a gray node names the way back to it over the parents. Parents are overwritten
while a node lies on the stack in several places, but the gray nodes are a chain of them : the stack
falls into frames, one for each gray node, of what that node pushed and what is left of it, and a
white node has the node of its topmost frame as its parent (`Search.Woven`). So the climb ends where
it was to end, after one step for each node on the way (`climb_path`).

With the soundness of the search, a cycle is named where there is one, and what is named is one
(`detectCycle_exact`).
-/

namespace Lynox.Orchestrator

variable {adj : Adjacency} {s s' : Search} {node dep : String} {deps path : List String}

/-- A walk along the dependencies back to where it began. -/
structure Adjacency.ClosedWalk (adj : Adjacency) (path : List String) : Prop where
  length : 2 ≤ path.length
  closed : path.head? = path.getLast?
  edges : path.IsChain fun a b => adj.DependsOn b a

/-! ## The climb -/

/-- The parents of nodes on a path lead to its end. -/
theorem climb_path {parent : List (String × Option String)} : ∀ {pre : List String} {fuel : Nat}
    {cur : String} {rest : List String}, cur :: rest = pre ++ [dep] → dep ∉ pre → pre.length ≤ fuel →
      (cur :: rest).IsChain (fun n p => Assoc.get parent n = some (some p)) → ∀ cycle,
        climb parent dep fuel cur cycle = cycle ++ rest
  | [], fuel, cur, rest, h, _, _, _, cycle => by
    obtain ⟨rfl, rfl⟩ := List.cons.inj h
    cases fuel with
    | zero => rw [climb, List.append_nil]
    | succ n => rw [climb, if_pos rfl, List.append_nil]
  | c :: pre, fuel, cur, rest, h, hdep, hfuel, hchain, cycle => by
    obtain ⟨rfl, rfl⟩ := List.cons.inj h
    rw [List.mem_cons, not_or] at hdep
    obtain ⟨n, rfl⟩ : ∃ n, fuel = n + 1 := ⟨fuel - 1, by rw [List.length_cons] at hfuel; omega⟩
    rw [List.append_eq] at *
    rcases hsplit : pre ++ [dep] with _ | ⟨p, rest⟩
    · simp at hsplit
    · rw [hsplit, List.isChain_cons_cons] at hchain
      rw [climb, if_neg (Ne.symm hdep.1), hchain.1]
      dsimp only
      rw [climb_path hsplit.symm hdep.2 (by rw [List.length_cons] at hfuel; omega) hchain.2]
      simp

/-- The parents that a path follows are as many as it has steps. -/
theorem length_le_of_parents {parent : List (String × Option String)} {pre : List String}
    (hnodup : pre.Nodup) (h : ∀ n ∈ pre, ∃ p, Assoc.get parent n = some p) :
    pre.length ≤ parent.length := by
  have hsub : pre ⊆ parent.map Prod.fst := fun n hn => Assoc.exists_get.mp (h n hn)
  have hle := (List.subperm_of_subset hnodup hsub).length_le
  rwa [List.length_map] at hle

/-- A chain of parents from `node` with the gray node in it is a closed walk. -/
theorem closedWalk_cyclePath {parent : List (String × Option String)} (hnodup : path.Nodup)
    (hchain : path.IsChain fun n p => Assoc.get parent n = some (some p) ∧ adj.DependsOn n p)
    (hhead : path.head? = some node) (hmem : dep ∈ path) (hedge : adj.DependsOn dep node) :
    adj.ClosedWalk (cyclePath parent dep node) := by
  obtain ⟨pre, post, rfl⟩ := List.append_of_mem hmem
  have hdep : dep ∉ pre := by
    rw [List.nodup_append] at hnodup
    exact fun hpre => hnodup.2.2 dep hpre dep List.mem_cons_self rfl
  have hsplit : pre ++ dep :: post = (pre ++ [dep]) ++ post := by simp
  rw [hsplit] at hchain hhead hnodup
  have hway := hchain.left_of_append
  rcases hcons : pre ++ [dep] with _ | ⟨cur, rest⟩
  · simp at hcons
  · rw [hcons] at hway hhead
    obtain rfl : cur = node := by simpa using hhead
    have hfuel : pre.length ≤ parent.length := by
      refine length_le_of_parents (hnodup.sublist ?_) fun n hn => ?_
      · rw [List.append_assoc]
        exact List.sublist_append_left _ _
      · obtain ⟨before, after, rfl⟩ := List.append_of_mem hn
        rw [← hcons, List.append_assoc] at hway
        have hnext := hway.right_of_append
        rcases hafter : after ++ [dep] with _ | ⟨p, after'⟩
        · simp at hafter
        · rw [List.cons_append, hafter, List.isChain_cons_cons] at hnext
          exact ⟨_, hnext.1.1⟩
    have hclimb := climb_path hcons.symm hdep hfuel (hway.imp fun _ _ h => h.1) [dep, cur]
    have hpath : cyclePath parent dep cur = (dep :: cur :: rest).reverse := by
      rw [cyclePath, hclimb]
      rfl
    rw [hpath]
    refine ⟨by simp, ?_, ?_⟩
    · rw [← hcons, List.reverse_cons, List.getLast?_concat]
      simp
    · rw [List.isChain_reverse, List.isChain_cons_cons]
      exact ⟨hedge, hway.imp fun _ _ h => h.2⟩

/-! ## The frames of the stack -/

/-- A gray node, and what it pushed that still lies above it. -/
abbrev Frame := String × List String

/-- The stack that the frames are, top first. -/
def stackOf (frames : List Frame) : List String :=
  frames.flatMap fun f => f.2 ++ [f.1]

/-- The gray nodes are those of the frames, each pushed by the next one, which is its parent. -/
structure Search.Framed (adj : Adjacency) (s : Search) (frames : List Frame) : Prop where
  nodup : (frames.map Prod.fst).Nodup
  gray : ∀ n, Assoc.get s.color n = some .gray ↔ n ∈ frames.map Prod.fst
  chain : (frames.map Prod.fst).IsChain fun n p =>
    Assoc.get s.parent n = some (some p) ∧ adj.DependsOn n p
  pushed : ∀ f ∈ frames, ∀ d ∈ f.2, adj.DependsOn d f.1
  /-- No gray node was pushed again. -/
  once : ∀ f ∈ frames, f.1 ∉ f.2
  above : frames.Pairwise fun f f' => f'.1 ∉ f.2

/-- A white node that lies on the stack has the node of its topmost frame as its parent. -/
def Search.Parented (s : Search) (frames : List Frame) (d : String) : Prop :=
  Assoc.get s.color d = some .white → ∀ f, frames.find? (fun f => d ∈ f.2) = some f →
    Assoc.get s.parent d = some (some f.1)

structure Search.Woven (adj : Adjacency) (s : Search) (frames : List Frame) : Prop
    extends Search.Framed adj s frames where
  parent : ∀ d, s.Parented frames d

theorem scan_parent (h : scan adj node deps s = .ok s') : ∃ pushed, s'.stack = pushed ++ s.stack ∧
    (∀ d ∈ pushed, d ∈ deps) ∧
    ∀ n, Assoc.get s'.parent n = if n ∈ pushed then some (some node) else Assoc.get s.parent n := by
  induction deps generalizing s with
  | nil =>
    obtain rfl : s = s' := by simpa [scan] using h
    exact ⟨[], rfl, by simp, by simp⟩
  | cons dep deps ih =>
    unfold scan at h
    split at h
    · obtain ⟨pushed, hstack, hdeps, hparent⟩ := ih h
      exact ⟨pushed, hstack, fun d hd => List.mem_cons_of_mem _ (hdeps d hd), hparent⟩
    · split at h
      · simp at h
      · obtain ⟨pushed, hstack, hdeps, hparent⟩ := ih h
        refine ⟨pushed ++ [dep], by simp [hstack], fun d hd => ?_, fun n => ?_⟩
        · rcases List.mem_append.mp hd with hd | hd
          · exact List.mem_cons_of_mem _ (hdeps d hd)
          · exact List.mem_singleton.mp hd ▸ List.mem_cons_self
        · rw [hparent n]
          by_cases hn : n ∈ pushed
          · rw [if_pos hn, if_pos (List.mem_append_left _ hn)]
          · rw [if_neg hn]
            dsimp only
            rw [Assoc.get_set]
            by_cases hdep : n = dep
            · rw [if_pos hdep, if_pos (by simp [hdep])]
            · rw [if_neg hdep, if_neg (by simp [hn, hdep])]
      · obtain ⟨pushed, hstack, hdeps, hparent⟩ := ih h
        exact ⟨pushed, hstack, fun d hd => List.mem_cons_of_mem _ (hdeps d hd), hparent⟩

/-- Where the search ends : at a gray node, and the parents of what is not white are as they were. -/
theorem scan_error (h : scan adj node deps s = .error path) : ∃ dep parent,
    (dep ∈ deps ∧ dep ∈ adj.map Prod.fst) ∧ Assoc.get s.color dep = some .gray ∧
    path = cyclePath parent dep node ∧
    ∀ n, Assoc.get s.color n ≠ some .white → Assoc.get parent n = Assoc.get s.parent n := by
  induction deps generalizing s with
  | nil => simp [scan] at h
  | cons dep deps ih =>
    unfold scan at h
    split at h
    · obtain ⟨d, parent, hd, hrest⟩ := ih h
      exact ⟨d, parent, ⟨List.mem_cons_of_mem _ hd.1, hd.2⟩, hrest⟩
    · rename_i hkey
      rw [not_not] at hkey
      split at h
      · rename_i hgray
        exact ⟨dep, s.parent, ⟨List.mem_cons_self, hkey⟩, hgray, (Except.error.inj h).symm, fun _ _ => rfl⟩
      · rename_i hwhite
        obtain ⟨d, parent, hd, hgray, hpath, hparent⟩ := ih h
        refine ⟨d, parent, ⟨List.mem_cons_of_mem _ hd.1, hd.2⟩, hgray, hpath, fun n hn => ?_⟩
        rw [hparent n hn]
        refine Assoc.get_set_of_ne fun he => hn ?_
        rw [he, hwhite]
      · obtain ⟨d, parent, hd, hrest⟩ := ih h
        exact ⟨d, parent, ⟨List.mem_cons_of_mem _ hd.1, hd.2⟩, hrest⟩

variable {frames : List Frame}

/-- What the node on top of the stack was pushed by. -/
def Search.PushedBy (adj : Adjacency) (s : Search) (node : String) (frames : List Frame) : Prop :=
  ∀ f ∈ frames.head?, Assoc.get s.parent node = some (some f.1) ∧ adj.DependsOn node f.1

/-- The node on top turns gray : its chain of parents. -/
theorem Search.Framed.chain_cons (h : s.Framed adj frames) (hby : s.PushedBy adj node frames) :
    (node :: frames.map Prod.fst).IsChain fun n p =>
      Assoc.get s.parent n = some (some p) ∧ adj.DependsOn n p := by
  cases frames with
  | nil => exact List.isChain_singleton _
  | cons f frames =>
    rw [List.map_cons, List.isChain_cons_cons]
    exact ⟨hby f rfl, h.chain⟩

/-- A white node is scanned : it and what it pushed are a new frame. -/
theorem Search.Framed.scan (h : s.Framed adj frames) (hothers : ∀ d, d ≠ node → s.Parented frames d)
    (hnode : Assoc.get s.color node = some .white)
    (hby : s.PushedBy adj node frames) (hstack : s.stack = node :: stackOf frames)
    (hscan : scan adj node (adj.deps node) { s with color := Assoc.set s.color node .gray } = .ok s') :
    ∃ pushed, s'.stack = stackOf ((node, pushed) :: frames) ∧ s'.Woven adj ((node, pushed) :: frames) := by
  obtain ⟨hcolor, -, pushed, hstack', -, hwhite, -⟩ := scan_ok hscan
  obtain ⟨pushed', hstack'', hdeps, hparent⟩ := scan_parent hscan
  obtain rfl : pushed = pushed' := List.append_cancel_right (hstack'.symm.trans hstack'')
  dsimp only at hcolor hwhite hstack' hparent
  have hkept : ∀ n, n = node ∨ Assoc.get s.color n = some .gray → n ∉ pushed := by
    rintro n hn hmem
    have hw := (hwhite n hmem).2
    rcases hn with rfl | hn
    · rw [Assoc.get_set_self] at hw
      simp at hw
    · rw [Assoc.get_set, hn] at hw
      split at hw <;> simp at hw
  have hnot : node ∉ frames.map Prod.fst := fun hmem => by
    rw [(h.gray node).mpr hmem] at hnode
    simp at hnode
  refine ⟨pushed, ?_, ⟨?_, fun n => ?_, ?_, ?_, ?_, ?_⟩, fun d hd f hfind => ?_⟩
  · rw [hstack', hstack, stackOf, stackOf, List.flatMap_cons, List.append_assoc]
    rfl
  · exact List.nodup_cons.mpr ⟨hnot, h.nodup⟩
  · rw [hcolor, Assoc.get_set, List.map_cons, List.mem_cons]
    by_cases hn : n = node
    · simp [hn]
    · rw [if_neg hn, h.gray n]
      simp [hn]
  · have hchain := h.chain_cons hby
    refine List.IsChain.imp_of_mem_imp (fun n p hn _ hnp => ?_) hchain
    rw [hparent, if_neg (hkept n ((List.mem_cons.mp hn).imp id (h.gray n).mpr))]
    exact hnp
  · rintro f hf d hd
    rcases List.mem_cons.mp hf with rfl | hf
    · exact ⟨hdeps d hd, (hwhite d hd).1⟩
    · exact h.pushed f hf d hd
  · rintro f hf
    rcases List.mem_cons.mp hf with rfl | hf
    · exact hkept node (.inl rfl)
    · exact h.once f hf
  · refine List.pairwise_cons.mpr ⟨fun f hf => ?_, h.above⟩
    exact hkept f.1 (.inr ((h.gray f.1).mpr (List.mem_map_of_mem hf)))
  · rw [hparent]
    by_cases hmem : d ∈ pushed
    · rw [if_pos hmem]
      have hfirst : f = (node, pushed) := by simpa [hmem] using hfind.symm
      rw [hfirst]
    · rw [if_neg hmem]
      rw [hcolor, Assoc.get_set] at hd
      split at hd
      · simp at hd
      · rename_i hne
        exact hothers d hne hd f (by simpa [hmem] using hfind)

/-- One less of what a node pushed. -/
theorem Search.Framed.left {g : String} {left : List String}
    (h : s.Framed adj ((g, node :: left) :: frames)) : s.Framed adj ((g, left) :: frames) := by
  refine ⟨h.nodup, h.gray, h.chain, ?_, ?_, ?_⟩
  · rintro f hf d hd
    rcases List.mem_cons.mp hf with rfl | hf
    · exact h.pushed (g, node :: left) List.mem_cons_self d (List.mem_cons_of_mem _ hd)
    · exact h.pushed f (List.mem_cons_of_mem _ hf) d hd
  · rintro f hf
    rcases List.mem_cons.mp hf with rfl | hf
    · exact fun hmem => h.once (g, node :: left) List.mem_cons_self (List.mem_cons_of_mem _ hmem)
    · exact h.once f (List.mem_cons_of_mem _ hf)
  · obtain ⟨hfirst, hrest⟩ := List.pairwise_cons.mp h.above
    exact List.pairwise_cons.mpr ⟨fun f hf hmem => hfirst f hf (List.mem_cons_of_mem _ hmem), hrest⟩

theorem Search.Parented.left {g d : String} {left : List String}
    (h : s.Parented ((g, node :: left) :: frames) d) (hne : d ≠ node) :
    s.Parented ((g, left) :: frames) d := by
  intro hd f hfind
  rw [List.find?_cons] at hfind
  by_cases hmem : d ∈ left
  · have hfirst : f = (g, left) := by simpa [hmem] using hfind.symm
    rw [hfirst]
    exact h hd (g, node :: left) (by simp [hmem])
  · refine h hd f ?_
    rw [List.find?_cons]
    simpa [hmem, hne] using hfind

/-- A node turned black is not white. -/
theorem Search.Parented.black {d : String} {stack : List String} (h : d ≠ node → s.Parented frames d) :
    Search.Parented { s with color := Assoc.set s.color node .black, stack := stack } frames d := by
  intro hd
  dsimp only at hd
  have hne : d ≠ node := fun he => by
    rw [he, Assoc.get_set_self] at hd
    simp at hd
  rw [Assoc.get_set_of_ne hne] at hd
  exact h hne hd

/-- A node that is not white is popped from among what its frame pushed : it is not gray. -/
theorem Search.Woven.pop_pushed {g : String} {left : List String}
    (h : s.Woven adj ((g, node :: left) :: frames)) (stack : List String) :
    Search.Woven adj { s with color := Assoc.set s.color node .black, stack := stack }
      ((g, left) :: frames) := by
  have hnot : node ∉ g :: frames.map Prod.fst := by
    rw [List.mem_cons, not_or]
    refine ⟨fun he => h.once _ List.mem_cons_self (he ▸ List.mem_cons_self), fun hmem => ?_⟩
    obtain ⟨f, hf, rfl⟩ := List.mem_map.mp hmem
    exact (List.pairwise_cons.mp h.above).1 f hf List.mem_cons_self
  have hleft := h.toFramed.left
  refine ⟨⟨hleft.nodup, fun n => ?_, hleft.chain, hleft.pushed, hleft.once, hleft.above⟩,
    fun d => .black (h.parent d).left⟩
  dsimp only
  rw [Assoc.get_set]
  by_cases hn : n = node
  · rw [if_pos hn, hn]
    simpa using hnot
  · rw [if_neg hn]
    exact hleft.gray n

/-- A gray node is popped, with nothing left above it. -/
theorem Search.Woven.pop_gray (h : s.Woven adj ((node, []) :: frames)) (stack : List String) :
    Search.Woven adj { s with color := Assoc.set s.color node .black, stack := stack } frames := by
  obtain ⟨hnot, hnodup⟩ := List.nodup_cons.mp h.nodup
  refine ⟨⟨hnodup, fun n => ?_, h.chain.tail, fun f hf => h.pushed f (List.mem_cons_of_mem _ hf),
    fun f hf => h.once f (List.mem_cons_of_mem _ hf), (List.pairwise_cons.mp h.above).2⟩,
    fun d => .black fun _ hd f hfind => h.parent d hd f (by simpa using hfind)⟩
  dsimp only
  rw [Assoc.get_set]
  by_cases hn : n = node
  · rw [if_pos hn, hn]
    simpa using hnot
  · rw [if_neg hn, h.gray n]
    simp [hn]

/-- A scan that meets a gray node names a closed walk. -/
theorem Search.Framed.error (h : s.Framed adj frames) (hnode : Assoc.get s.color node = some .white)
    (hby : s.PushedBy adj node frames)
    (hscan : Orchestrator.scan adj node (adj.deps node) { s with color := Assoc.set s.color node .gray } =
      .error path) : adj.ClosedWalk path := by
  obtain ⟨dep, parent, hdep, hgray, rfl, hparent⟩ := scan_error hscan
  dsimp only at hgray hparent
  have hpath : ∀ n, n ∈ node :: frames.map Prod.fst ↔
      Assoc.get (Assoc.set s.color node .gray) n = some .gray := by
    intro n
    rw [Assoc.get_set, List.mem_cons]
    by_cases hn : n = node
    · simp [hn]
    · rw [if_neg hn, h.gray n]
      simp [hn]
  refine closedWalk_cyclePath (List.nodup_cons.mpr ⟨fun hmem => ?_, h.nodup⟩)
    (List.IsChain.imp_of_mem_imp (fun n p hn _ hnp => ?_) (h.chain_cons hby)) rfl
      ((hpath dep).mpr hgray) hdep
  · rw [(h.gray node).mpr hmem] at hnode
    simp at hnode
  · rw [hparent n (by rw [(hpath n).mp hn]; simp)]
    exact hnp

/-! ## The search -/

/-- The stack is what the frames are, or holds the white node the search starts from. -/
def Search.Traced (adj : Adjacency) (s : Search) : Prop :=
  ∃ frames, s.Woven adj frames ∧ (s.stack = stackOf frames ∨
    frames = [] ∧ ∃ start, s.stack = [start] ∧ Assoc.get s.color start = some .white)

/-- The white node on top of the stack, and the frames it lies on. -/
theorem Search.Traced.top {rest : List String} (h : s.Traced adj) (hstack : s.stack = node :: rest)
    (hnode : Assoc.get s.color node = some .white) :
    ∃ frames, s.Framed adj frames ∧ (∀ d, d ≠ node → s.Parented frames d) ∧
      s.PushedBy adj node frames ∧ rest = stackOf frames := by
  obtain ⟨frames, hwoven, hframes | ⟨rfl, start, hstart, -⟩⟩ := h
  · rw [hstack] at hframes
    rcases frames with _ | ⟨⟨g, _ | ⟨d, left⟩⟩, frames⟩
    · simp [stackOf] at hframes
    · obtain ⟨rfl, -⟩ := List.cons.inj hframes
      rw [(hwoven.gray node).mpr List.mem_cons_self] at hnode
      simp at hnode
    · obtain ⟨rfl, rfl⟩ := List.cons.inj hframes
      refine ⟨(g, left) :: frames, hwoven.toFramed.left, fun d => (hwoven.parent d).left, ?_, rfl⟩
      rintro f hf
      obtain rfl := Option.some.inj hf
      refine ⟨hwoven.parent node hnode (g, node :: left) (by simp), ?_⟩
      exact hwoven.pushed (g, node :: left) List.mem_cons_self node List.mem_cons_self
  · obtain ⟨rfl, rfl⟩ := List.cons.inj (hstack.symm.trans hstart)
    exact ⟨[], hwoven.toFramed, fun d _ => hwoven.parent d, fun f hf => absurd hf (by simp), rfl⟩

theorem Search.Traced.pop {rest : List String} (h : s.Traced adj) (hstack : s.stack = node :: rest)
    (hnode : Assoc.get s.color node ≠ some .white) :
    Search.Traced adj { s with color := Assoc.set s.color node .black, stack := rest } := by
  obtain ⟨frames, hwoven, hframes | ⟨rfl, start, hstart, hwhite⟩⟩ := h
  · rw [hstack] at hframes
    rcases frames with _ | ⟨⟨g, _ | ⟨d, left⟩⟩, frames⟩
    · simp [stackOf] at hframes
    · obtain ⟨rfl, rfl⟩ := List.cons.inj hframes
      exact ⟨frames, hwoven.pop_gray _, .inl rfl⟩
    · obtain ⟨rfl, rfl⟩ := List.cons.inj hframes
      exact ⟨(g, left) :: frames, hwoven.pop_pushed _, .inl rfl⟩
  · obtain ⟨rfl, -⟩ := List.cons.inj (hstack.symm.trans hstart)
    exact absurd hwhite hnode

theorem closedWalk_of_descend (hs : s.Traced adj) (h : descend adj s = .error path) :
    adj.ClosedWalk path := by
  fun_induction descend adj s with
  | case1 => simp at h
  | case2 s node rest hstack hnode path' hscan =>
    obtain ⟨frames, hframed, -, hby, -⟩ := hs.top hstack hnode
    obtain rfl := Except.error.inj h
    exact hframed.error hnode hby hscan
  | case3 s node rest hstack hnode s₁ hscan ih =>
    obtain ⟨frames, hframed, hothers, hby, rfl⟩ := hs.top hstack hnode
    obtain ⟨pushed, hstack', hwoven'⟩ := hframed.scan hothers hnode hby hstack hscan
    exact ih ⟨_, hwoven', .inl hstack'⟩ h
  | case4 s node rest hstack hnode ih => exact ih (hs.pop hstack hnode) h

/-- Before a start : no node is gray. -/
theorem traced_start {start : String} (hgray : ∀ n, Assoc.get s.color n ≠ some .gray)
    (hstart : Assoc.get s.color start = some .white) :
    Search.Traced adj { s with parent := Assoc.set s.parent start none, stack := [start] } := by
  refine ⟨[], ⟨⟨List.nodup_nil, fun n => ?_, List.isChain_nil, ?_, ?_, List.Pairwise.nil⟩, ?_⟩,
    .inr ⟨rfl, start, rfl, hstart⟩⟩
  · simpa using hgray n
  · simp
  · simp
  · intro d _ f hfind
    simp at hfind

/-- No node of an empty stack is gray. -/
theorem Search.Safe.not_gray (hs : s.Safe adj) (hempty : s.stack = []) (n : String) :
    Assoc.get s.color n ≠ some .gray := by
  intro hn
  obtain ⟨above, below, hsplit, -⟩ := hs.gray n hn
  simp [hempty] at hsplit

theorem closedWalk_of_searchFrom {starts : List String} (hs : s.Safe adj) (hc : s.Colored adj)
    (hempty : s.stack = []) (hkeys : ∀ n ∈ starts, n ∈ adj.map Prod.fst)
    (h : searchFrom adj starts s = .error path) : adj.ClosedWalk path := by
  induction starts generalizing s with
  | nil => simp [searchFrom] at h
  | cons start starts ih =>
    have hrest : ∀ n ∈ starts, n ∈ adj.map Prod.fst := fun n hn => hkeys n (List.mem_cons_of_mem _ hn)
    unfold searchFrom at h
    split at h
    · exact ih hs hc hempty hrest h
    · rename_i hstart
      rw [ne_eq, not_not] at hstart
      split at h
      · rename_i path' hdescend
        obtain rfl := Except.error.inj h
        exact closedWalk_of_descend (traced_start (hs.not_gray hempty) hstart) hdescend
      · rename_i s₁ hdescend
        have hs₀ : Search.Safe adj
            { s with parent := Assoc.set s.parent start none, stack := [start] } :=
          ⟨hs.black, fun n hn => absurd hn (hs.not_gray hempty n)⟩
        have hc₀ : Search.Colored adj
            { s with parent := Assoc.set s.parent start none, stack := [start] } := by
          refine ⟨hc.1, fun n hn => hc.1 n ?_⟩
          exact hkeys n (List.mem_singleton.mp hn ▸ List.mem_cons_self)
        obtain ⟨hs₁, hc₁, hempty₁, -⟩ := descend_ok hs₀ hc₀ hdescend
        exact ih hs₁ hc₁ hempty₁ hrest h

theorem closedWalk_of_detectCycle (h : detectCycle adj = some path) : adj.ClosedWalk path := by
  unfold detectCycle at h
  split at h
  · rename_i path' hsearch
    obtain rfl := Option.some.inj h
    exact closedWalk_of_searchFrom (safe_start adj) (colored_start adj) rfl (fun _ h => h) hsearch
  · simp at h

/-! ## Exactly the cycles -/

/-- A walk of one step at least leads from its first node to its last. -/
theorem transGen_of_isChain : ∀ {a b : String} {walk : List String},
    (a :: b :: walk).IsChain (fun a b => adj.DependsOn b a) →
      ∀ {c : String}, (a :: b :: walk).getLast? = some c → Relation.TransGen adj.DependsOn c a
  | a, b, [], h, c, hlast => by
    obtain rfl : b = c := by simpa using hlast
    exact .single (List.isChain_cons_cons.mp h).1
  | a, b, d :: walk, h, c, hlast => by
    obtain ⟨hedge, hwalk⟩ := List.isChain_cons_cons.mp h
    rw [List.getLast?_cons_cons] at hlast
    exact (transGen_of_isChain hwalk hlast).tail hedge

theorem Adjacency.ClosedWalk.transGen (h : adj.ClosedWalk path) :
    ∃ n, Relation.TransGen adj.DependsOn n n := by
  obtain ⟨hlength, hclosed, hedges⟩ := h
  rcases path with _ | ⟨a, _ | ⟨b, walk⟩⟩
  · simp at hlength
  · simp at hlength
  · exact ⟨a, transGen_of_isChain hedges hclosed.symm⟩

theorem not_transGen_of_acc {n : String} (h : Acc adj.DependsOn n) :
    ¬Relation.TransGen adj.DependsOn n n := by
  have hacc := h.transGen
  induction hacc with
  | intro n _ ih => exact fun hn => ih n hn (h.inv_of_transGen hn) hn

/-- The search names a path exactly where the graph of the known ids has a cycle, and what it names is a
walk along the dependencies back to where it began. -/
theorem detectCycle_exact (adj : Adjacency) :
    (detectCycle adj = none ↔ ∀ n, ¬Relation.TransGen adj.DependsOn n n) ∧
      ∀ path, detectCycle adj = some path → adj.ClosedWalk path := by
  refine ⟨⟨fun h n hn => ?_, fun h => ?_⟩, fun path h => closedWalk_of_detectCycle h⟩
  · obtain ⟨m, hedge, -⟩ := Relation.TransGen.head'_iff.mp hn
    exact not_transGen_of_acc (acc_of_detectCycle h n hedge.2) hn
  · rcases hpath : detectCycle adj with _ | path
    · rfl
    · obtain ⟨n, hn⟩ := (closedWalk_of_detectCycle hpath).transGen
      exact absurd hn (h n)

end Lynox.Orchestrator
