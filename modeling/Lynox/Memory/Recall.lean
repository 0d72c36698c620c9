import Lynox.Data.Ranked

/-!
# Recall by similarity

`findSimilarRecall` scores the rows of a scan one by one and keeps those at or above a least score.
Whenever it holds more than twice as many as are asked for, it sorts them, drops all but the first
`topK` and takes the last score that is left as the least.

The rows it keeps are the first `topK` of all rows at or above the threshold, the most similar first and
equal ones in the order of the scan (`findSimilarRecall_eq`).
-/

namespace Lynox.Memory

open Ranked

variable {Raw Embedding Row S : Type*} [LinearOrder S]

/-- A row with its similarity. -/
abbrev Scored (Raw S : Type*) := Raw × S

/-- What the scan holds. -/
structure Scan (Raw S : Type*) where
  scoredRaw : List (Scored Raw S)
  minScore : S

/-- The similarity of a row, none where it has no embedding or one of another length. -/
def scoreOf (embedding : Raw → Option Embedding) (fits : Embedding → Bool) (similarity : Embedding → S)
    (raw : Raw) : Option (Scored Raw S) :=
  match embedding raw with
  | none => none
  | some memEmb => if fits memEmb then some (raw, similarity memEmb) else none

/-- The scan goes past a row. -/
def Scan.step (topK : ℕ) (x : Scan Raw S) (row : Scored Raw S) : Scan Raw S :=
  if row.2 < x.minScore then x
  else
    let scoredRaw := x.scoredRaw ++ [row]
    if topK * 2 < scoredRaw.length then
      let kept := (rank Prod.snd scoredRaw).take topK
      { scoredRaw := kept, minScore := (kept.getLast?).elim x.minScore Prod.snd }
    else { x with scoredRaw }

/-- The rows that are kept for decryption. -/
def keptRows (topK : ℕ) (threshold : S) (scored : List (Scored Raw S)) : List (Scored Raw S) :=
  (rank Prod.snd (scored.foldl (Scan.step topK) ⟨[], threshold⟩).scoredRaw).take topK

/-- The rows of the window, newest first, are scored and kept, and those that decrypt are returned. -/
def findSimilarRecall (embedding : Raw → Option Embedding) (fits : Embedding → Bool)
    (similarity : Embedding → S) (decRow : Raw → Option Row) (topK : ℕ) (threshold : S)
    (rows : List Raw) : List (Row × S) :=
  (keptRows topK threshold (rows.filterMap (scoreOf embedding fits similarity))).filterMap
    fun kept => (decRow kept.1).map fun row => (row, kept.2)

/-- The rows at or above the threshold. -/
def admitted (threshold : S) (scored : List (Scored Raw S)) : List (Scored Raw S) :=
  scored.filter fun row => threshold ≤ row.2

/-- What the scan holds has the same best rows as all it admitted, and what is below its least score is
not among them. -/
structure Scan.Faithful (topK : ℕ) (threshold : S) (x : Scan Raw S) (scored : List (Scored Raw S)) :
    Prop where
  best : best Prod.snd topK x.scoredRaw = best Prod.snd topK (admitted threshold scored)
  above : ∀ row ∈ x.scoredRaw, x.minScore ≤ row.2
  least : threshold ≤ x.minScore
  full : x.minScore = threshold ∨ topK ≤ x.scoredRaw.length

variable {topK : ℕ} {threshold : S} {x : Scan Raw S} {scored : List (Scored Raw S)} {row : Scored Raw S}

theorem Scan.Faithful.skip (h : x.Faithful topK threshold scored) (hrow : row.2 < x.minScore) :
    x.Faithful topK threshold (scored ++ [row]) := by
  refine { h with best := ?_ }
  rw [admitted, List.filter_append, ← admitted]
  rcases lt_or_ge row.2 threshold with hlow | hhigh
  · rw [List.filter_cons, if_neg (by simpa using hlow), List.filter_nil, List.append_nil]
    exact h.best
  · -- The row is worse than `topK` rows that are held.
    have hlen : topK ≤ x.scoredRaw.length :=
      h.full.resolve_left fun heq => absurd (heq ▸ hrow) (not_lt.2 hhigh)
    rw [List.filter_cons, if_pos (by simpa using hhigh), List.filter_nil,
      ← best_concat_congr h.best row]
    refine (best_concat_of_lt hlen fun held hheld => ?_).symm
    have hmem := (perm_rank Prod.snd x.scoredRaw).mem_iff.1 (List.mem_of_mem_take hheld)
    exact hrow.trans_le (h.above held hmem)

theorem Scan.Faithful.admit (h : x.Faithful topK threshold scored) (hrow : x.minScore ≤ row.2) :
    Scan.Faithful topK threshold { x with scoredRaw := x.scoredRaw ++ [row] } (scored ++ [row]) where
  best := by
    rw [admitted, List.filter_append, ← admitted, List.filter_cons,
      if_pos (by simpa using h.least.trans hrow), List.filter_nil]
    exact best_concat_congr h.best row
  above held hheld := by
    rcases List.mem_append.1 hheld with hheld | hheld
    · exact h.above held hheld
    · rw [List.mem_singleton.1 hheld]
      exact hrow
  least := h.least
  full := h.full.imp_right fun hlen => hlen.trans (by simp)

theorem Scan.Faithful.prune (h : x.Faithful topK threshold scored) (htop : 1 ≤ topK)
    (hlen : topK ≤ x.scoredRaw.length) :
    Scan.Faithful topK threshold
      { scoredRaw := (rank Prod.snd x.scoredRaw).take topK
        minScore := (((rank Prod.snd x.scoredRaw).take topK).getLast?).elim x.minScore Prod.snd }
      scored := by
  obtain ⟨kept, hkept⟩ : ∃ kept, kept = (rank Prod.snd x.scoredRaw).take topK := ⟨_, rfl⟩
  have hkeptLen : kept.length = topK := by
    rw [hkept, List.length_take, (perm_rank Prod.snd x.scoredRaw).length_eq, Nat.min_eq_left hlen]
  have hmem : ∀ held ∈ kept, held ∈ x.scoredRaw := fun held hheld =>
    (perm_rank Prod.snd x.scoredRaw).mem_iff.1 (List.mem_of_mem_take (hkept ▸ hheld))
  have hsorted : kept.Pairwise fun a b => b.2 ≤ a.2 :=
    hkept ▸ (pairwise_rank Prod.snd x.scoredRaw).sublist (List.take_sublist topK _)
  have hbest : Ranked.best Prod.snd topK kept = Ranked.best Prod.snd topK (admitted threshold scored) := by
    rw [hkept, ← Ranked.best, best_best, h.best]
  rw [← hkept]
  rcases List.eq_nil_or_concat' kept with rfl | ⟨front, last, rfl⟩
  · exact absurd hkeptLen (by simp; omega)
  rw [List.getLast?_concat, Option.elim_some]
  exact {
    best := hbest
    above := fun held hheld => by
      rcases List.mem_append.1 hheld with hheld | hheld
      · exact (List.pairwise_append.1 hsorted).2.2 held hheld last List.mem_cons_self
      · exact (List.mem_singleton.1 hheld) ▸ le_rfl
    least := h.least.trans (h.above last (hmem last (by simp)))
    full := .inr hkeptLen.ge }

theorem Scan.Faithful.step (h : x.Faithful topK threshold scored) (htop : 1 ≤ topK) (row : Scored Raw S) :
    (x.step topK row).Faithful topK threshold (scored ++ [row]) := by
  unfold Scan.step
  split_ifs with hrow
  · exact h.skip hrow
  · have hadmit := h.admit (not_lt.1 hrow)
    dsimp only
    split_ifs with hlen
    · exact hadmit.prune htop (by dsimp only; omega)
    · exact hadmit

theorem Scan.Faithful.run (htop : 1 ≤ topK) (rows : List (Scored Raw S)) :
    (rows.foldl (Scan.step topK) ⟨[], threshold⟩).Faithful topK threshold rows := by
  induction rows using List.reverseRecOn with
  | nil =>
    exact { best := rfl, above := fun _ h => absurd h List.not_mem_nil, least := le_rfl, full := .inl rfl }
  | append_singleton rows row ih =>
    rw [List.foldl_concat]
    exact ih.step htop row

/-- The rows that are kept are the first of a full ranking, however often the scan dropped rows. -/
theorem findSimilarRecall_eq (embedding : Raw → Option Embedding) (fits : Embedding → Bool)
    (similarity : Embedding → S) (decRow : Raw → Option Row) (topK : ℕ) (threshold : S)
    (rows : List Raw) (htop : 1 ≤ topK) :
    ∃ ranked : List (Scored Raw S),
      ranked.Perm (admitted threshold (rows.filterMap (scoreOf embedding fits similarity))) ∧
      ranked.Pairwise (fun a b => b.2 ≤ a.2) ∧
      (∀ s, ranked.filter (fun row => row.2 = s) =
        (admitted threshold (rows.filterMap (scoreOf embedding fits similarity))).filter fun row => row.2 = s) ∧
      keptRows topK threshold (rows.filterMap (scoreOf embedding fits similarity)) = ranked.take topK ∧
      findSimilarRecall embedding fits similarity decRow topK threshold rows =
        (ranked.take topK).filterMap fun kept => (decRow kept.1).map fun row => (row, kept.2) := by
  have hkept : ∀ scored : List (Scored Raw S), keptRows topK threshold scored =
      best Prod.snd topK (admitted threshold scored) := fun scored => (Scan.Faithful.run htop scored).best
  refine ⟨_, perm_rank Prod.snd _, pairwise_rank Prod.snd _, fun s => filter_rank s _, hkept _, ?_⟩
  rw [findSimilarRecall, hkept]
  rfl

/-- Four rows, of which two are asked for. -/
theorem findSimilarRecall_eq_of_four : ∃ ranked : List (Scored ℕ ℕ),
    ranked.Perm (admitted 1 ([5, 0, 7, 7].filterMap (scoreOf some (fun _ => true) id))) ∧
    ranked.Pairwise (fun a b => b.2 ≤ a.2) ∧
    (∀ s, ranked.filter (fun row => row.2 = s) =
      (admitted 1 ([5, 0, 7, 7].filterMap (scoreOf some (fun _ => true) id))).filter fun row => row.2 = s) ∧
    keptRows 2 1 ([5, 0, 7, 7].filterMap (scoreOf some (fun _ => true) id)) = ranked.take 2 ∧
    findSimilarRecall some (fun _ => true) id some 2 1 [5, 0, 7, 7] =
      (ranked.take 2).filterMap fun kept => (some kept.1).map fun row => (row, kept.2) :=
  findSimilarRecall_eq some (fun _ => true) id some 2 1 [5, 0, 7, 7] (by decide)

end Lynox.Memory
