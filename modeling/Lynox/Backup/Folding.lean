import Lynox.Backup.Restore

/-!
# Names that a filesystem takes for one

A folder may fold the names in it, so that two spellings are one file, or tell them apart, each folder for
itself (`Folder.key`). `foldedPairOn` asks about the pairs of paths that a folding filesystem would make
collide, each in the nearest folder there is for the first path of the pair, and `liveTargetProblem` refuses
a target behind a link, below a file or on a folder.

Where no pair folds and no target is refused, two paths of a backup may still meet : the folder that is asked
is the one of the whole path, and a folder above it may fold while it does not.
`foldedPairOn_complete_iff` says for which trees and paths this does not happen.

How a name is folded is a parameter. Paths are plain, as `isRestorableEntryPath` has them.
-/

namespace Lynox.Backup

open Text

/-! ## Folders -/

/-- What a folder holds under a name. A link goes with what its target resolves to. -/
inductive Node
  | file
  | link (target : Option Node)
  | dir (folds : Bool) (entries : List (JsString × Node))

structure Folder where
  folds : Bool
  entries : List (JsString × Node)

/-- The names of a path. -/
def partsOf (path : Path) : List JsString :=
  path.splitOn 0x2F

def joinParts (parts : List JsString) : Path :=
  [0x2F].intercalate parts

/-- `isDirectory` of what `lstatSync` returns, with the folder. -/
def Node.directory : Node → Option Folder
  | .dir folds entries => some ⟨folds, entries⟩
  | _ => none

/-- The folder a path goes on in, behind a link as well. -/
def Node.through : Node → Option Folder
  | .link target => target.bind Node.directory
  | node => node.directory

section Lookup

variable (foldName : JsString → JsString)

/-- What decides whether two names are one in a folder. -/
def Folder.key (d : Folder) (name : JsString) : JsString :=
  if d.folds then foldName name else name

def Folder.find (d : Folder) (name : JsString) : Option Node :=
  (d.entries.find? fun e => d.key foldName e.1 = d.key foldName name).map Prod.snd

/-- What is under the names below a folder. Links on the way are followed, a last one is not. -/
def lstat (d : Folder) : List JsString → Option Node
  | [] => some (.dir d.folds d.entries)
  | [name] => d.find foldName name
  | name :: names => ((d.find foldName name).bind Node.through).bind fun d => lstat d names

/-- The folder below a folder, made with the same folding where it is not there. -/
def Folder.enter (d : Folder) (name : JsString) : Folder :=
  ((d.find foldName name).bind Node.directory).getD ⟨d.folds, []⟩

/-- Where a path lands below a folder : two paths with one place are one file. -/
def Folder.place (d : Folder) : List JsString → List JsString
  | [] => []
  | name :: names => d.key foldName name :: (d.enter foldName name).place names

def placeOf (root : Folder) (path : Path) : List JsString :=
  root.place foldName (partsOf path)

/-- The first path's file is the second one's, or a folder the second one needs. -/
def Meets (root : Folder) (p q : Path) : Prop :=
  p ≠ q ∧ placeOf foldName root p <+: placeOf foldName root q

instance (root : Folder) (p q : Path) : Decidable (Meets foldName root p q) :=
  inferInstanceAs (Decidable (_ ∧ _))

/-! ## The checks of a restore -/

/-- The nearest folder among the first `n` names and those above, nothing for the root. -/
def nearestFrom (root : Folder) (names : List JsString) : Nat → List JsString
  | 0 => []
  | n + 1 =>
    if ((lstat foldName root (names.take (n + 1))).bind Node.directory).isSome then names.take (n + 1)
    else nearestFrom root names n

def nearestExistingDir (root : Folder) (relDir : Path) : List JsString :=
  if relDir = [] then [] else nearestFrom foldName root (partsOf relDir) (partsOf relDir).length

/-- The answer of a probe in a folder, which may fail with a code. -/
def namesFold (root : Folder) (probeFails : List JsString → Option (Option JsString))
    (dir : List JsString) : Except (Option JsString) Bool :=
  match probeFails dir with
  | some code => .error code
  | none => .ok (((lstat foldName root dir).bind Node.directory).elim root.folds Folder.folds)

/-- A pair that folds, or with the code of a folder that could not be asked. -/
structure FoldedPair where
  a : Path
  b : Path
  code : Option (Option JsString)

/-- The pairs one after the other, with the answers so far. -/
def askPairs (nearest : Path → List JsString) (folds : List JsString → Except (Option JsString) Bool) :
    List (List JsString × Bool) → List (Path × Path) → Option FoldedPair
  | _, [] => none
  | seen, (a, b) :: pairs =>
    let dir := nearest (dirOf a)
    match (seen.lookup dir).elim (folds dir) .ok with
    | .error code => some ⟨a, b, some code⟩
    | .ok true => some ⟨a, b, none⟩
    | .ok false => askPairs nearest folds ((dir, false) :: seen) pairs

def foldedPairOn (fold : Path → Path) (paths : List Path) (nearest : Path → List JsString)
    (folds : List JsString → Except (Option JsString) Bool) : Option FoldedPair :=
  askPairs nearest folds [] (foldedPairs fold paths)

/-- The names of a path below those that are folders. -/
def targetProblemFrom (entryPath : Path) (before : List JsString) (d : Folder) :
    List JsString → Option JsString
  | [] => none
  | name :: names =>
    let shown := joinParts (before ++ [name])
    match d.find foldName name, names with
    | none, _ => none
    | some (.dir _ _), [] =>
      some (entryPath ++ utf16 " is a folder on this machine, the backup has a file there")
    | some _, [] => none
    | some (.link _), _ =>
      some (shown ++ utf16 " is a link on this machine; the restore does not write through it")
    | some .file, _ => some (shown ++ utf16 " is a file on this machine, the backup has a folder there")
    | some (.dir folds entries), _ =>
      targetProblemFrom entryPath (before ++ [name]) ⟨folds, entries⟩ names

def liveTargetProblem (root : Folder) (entryPath : Path) : Option JsString :=
  targetProblemFrom foldName entryPath [] root (partsOf entryPath)

end Lookup

/-! ## Paths and their names -/

theorem not_mem_of_mem_splitOn {α : Type} [DecidableEq α] {a : α} :
    ∀ {xs l : List α}, l ∈ xs.splitOn a → a ∉ l
  | [], l, h => by
    rw [List.splitOn_nil, List.mem_singleton] at h
    rw [h]
    exact List.not_mem_nil
  | x :: xs, l, h => by
    have ih : ∀ l ∈ xs.splitOn a, a ∉ l := fun l hl => not_mem_of_mem_splitOn hl
    rw [List.splitOn_cons_eq_if_modifyHead] at h
    split at h
    · rcases List.mem_cons.1 h with rfl | h
      · exact List.not_mem_nil
      · exact ih l h
    next hx =>
      obtain ⟨part, parts, hparts⟩ := List.exists_cons_of_ne_nil (List.splitOn_ne_nil a xs)
      rw [hparts, List.modifyHead_cons] at h
      rw [hparts] at ih
      rcases List.mem_cons.1 h with rfl | h
      · have hne : ¬ a = x := fun heq => hx (by rw [heq]; exact beq_self_eq_true x)
        exact fun hmem => (List.mem_cons.1 hmem).elim hne (ih part List.mem_cons_self)
      · exact ih l (List.mem_cons_of_mem _ h)

theorem joinParts_partsOf (path : Path) : joinParts (partsOf path) = path :=
  List.intercalate_splitOn 0x2F

theorem partsOf_injective : Function.Injective partsOf := fun p q h => by
  rw [← joinParts_partsOf p, h, joinParts_partsOf]

theorem partsOf_ne_nil (path : Path) : partsOf path ≠ [] :=
  List.splitOn_ne_nil 0x2F path

theorem partsOf_joinParts_take (path : Path) {n : ℕ} (hn : 0 < n) :
    partsOf (joinParts ((partsOf path).take n)) = (partsOf path).take n := by
  refine List.splitOn_intercalate _ (fun l hl => not_mem_of_mem_splitOn (List.mem_of_mem_take hl)) ?_
  rw [ne_eq, List.take_eq_nil_iff, not_or]
  exact ⟨hn.ne', partsOf_ne_nil path⟩

theorem mem_dirsOf {path dir : Path} :
    dir ∈ dirsOf path ↔ ∃ n, 0 < n ∧ n < (partsOf path).length ∧ dir = joinParts ((partsOf path).take n) := by
  unfold dirsOf
  simp only [List.mem_map, List.mem_range]
  constructor
  · rintro ⟨i, hi, rfl⟩
    exact ⟨i + 1, Nat.succ_pos i, Nat.add_lt_of_lt_sub hi, rfl⟩
  · rintro ⟨n, hn, hlt, rfl⟩
    exact ⟨n - 1, Nat.sub_lt_sub_right hn hlt, by rw [Nat.sub_add_cancel hn]; rfl⟩

section Fold

variable {fold : Path → Path} {foldName : JsString → JsString}

theorem fold_eq_iff (hfold : ∀ path, partsOf (fold path) = (partsOf path).map foldName) {p q : Path} :
    fold p = fold q ↔ (partsOf p).map foldName = (partsOf q).map foldName := by
  rw [← hfold, ← hfold, partsOf_injective.eq_iff]

/-! ## Places -/

theorem Folder.map_eq_of_key {d : Folder} {a b : JsString} (h : d.key foldName a = d.key foldName b) :
    foldName a = foldName b := by
  unfold Folder.key at h
  split at h
  · exact h
  · rw [h]

theorem Folder.enter_congr {d : Folder} {a b : JsString} (h : d.key foldName a = d.key foldName b) :
    d.enter foldName a = d.enter foldName b := by
  unfold Folder.enter Folder.find
  rw [h]

/-- A path that lands on the way of another is the beginning of it, where names are folded. -/
theorem Folder.map_prefix_of_place : ∀ {ps qs : List JsString} {d : Folder},
    d.place foldName ps <+: d.place foldName qs → ps.map foldName <+: qs.map foldName
  | [], qs, _, _ => List.nil_prefix
  | p :: ps, [], _, h => nomatch List.prefix_nil.1 h
  | p :: ps, q :: qs, d, h => by
    obtain ⟨hkey, hrest⟩ := List.cons_prefix_cons.1 h
    rw [← Folder.enter_congr hkey] at hrest
    exact List.cons_prefix_cons.2 ⟨Folder.map_eq_of_key hkey, Folder.map_prefix_of_place hrest⟩

/-- Two paths that meet are one where names are folded, or the first is a folder of the second. -/
theorem Meets.fold_eq (hfold : ∀ path, partsOf (fold path) = (partsOf path).map foldName)
    {root : Folder} {p q : Path} (h : Meets foldName root p q) :
    fold p = fold q ∨ ∃ dir ∈ dirsOf q, fold p = fold dir := by
  have hprefix := Folder.map_prefix_of_place h.2
  have hlen : (partsOf p).length ≤ (partsOf q).length := by simpa using hprefix.length_le
  have htake := List.prefix_iff_eq_take.1 hprefix
  rw [List.length_map, ← List.map_take] at htake
  rcases hlen.eq_or_lt with heq | hlt
  · left
    rwa [heq, List.take_length, ← fold_eq_iff hfold] at htake
  · right
    have hpos := List.length_pos_of_ne_nil (partsOf_ne_nil p)
    refine ⟨_, mem_dirsOf.2 ⟨_, hpos, hlt, rfl⟩, ?_⟩
    rwa [fold_eq_iff hfold, partsOf_joinParts_take q hpos]

theorem Meets.length_le {root : Folder} {p q : Path} (h : Meets foldName root p q) :
    (partsOf p).length ≤ (partsOf q).length := by
  simpa using (Folder.map_prefix_of_place h.2).length_le

/-! ## The pairs that are asked -/

/-- No pair is found where every pair is answered not to fold. -/
theorem askPairs_eq_none {nearest : Path → List JsString}
    {folds : List JsString → Except (Option JsString) Bool} :
    ∀ {pairs : List (Path × Path)} {seen : List (List JsString × Bool)},
      (∀ dir b, seen.lookup dir = some b → folds dir = .ok b) →
      (askPairs nearest folds seen pairs = none ↔
        ∀ pair ∈ pairs, folds (nearest (dirOf pair.1)) = .ok false)
  | [], _, _ => iff_of_true rfl fun _ h => nomatch h
  | (a, b) :: pairs, seen, hseen => by
    have hanswer : (seen.lookup (nearest (dirOf a))).elim (folds (nearest (dirOf a))) .ok =
        folds (nearest (dirOf a)) := by
      cases hl : seen.lookup (nearest (dirOf a)) with
      | none => rfl
      | some b => exact (hseen _ b hl).symm
    rw [askPairs, hanswer, List.forall_mem_cons]
    cases hfolds : folds (nearest (dirOf a)) with
    | error code => simp
    | ok answer =>
      cases answer with
      | true => simp
      | false =>
        refine (askPairs_eq_none fun dir b hl => ?_).trans (by simp)
        rw [List.lookup_cons] at hl
        split at hl
        next heq => rw [eq_of_beq heq, hfolds, Option.some.inj hl]
        · exact hseen dir b hl

theorem foldedPairOn_eq_none {paths : List Path} {nearest : Path → List JsString}
    {folds : List JsString → Except (Option JsString) Bool} :
    foldedPairOn fold paths nearest folds = none ↔
      ∀ pair ∈ foldedPairs fold paths, folds (nearest (dirOf pair.1)) = .ok false :=
  askPairs_eq_none fun _ _ h => nomatch h

theorem mem_foldedPairs {paths : List Path} {a b : Path} : (a, b) ∈ foldedPairs fold paths ↔
    (b ∈ paths ∧ paths.find? (fun p => fold p = fold b) = some a ∧ a ≠ b) ∨
    (b ∈ paths ∧ ∃ dir ∈ dirsOf b, paths.find? (fun p => fold p = fold dir) = some a) := by
  unfold foldedPairs
  rw [List.mem_append, List.mem_filterMap, List.mem_flatMap]
  refine or_congr ⟨?_, ?_⟩ ⟨?_, ?_⟩
  · rintro ⟨path, hpath, h⟩
    dsimp only at h
    split at h
    next other hother =>
      split at h
      · exact nomatch h
      next hne =>
        obtain ⟨rfl, rfl⟩ := Prod.mk.inj (Option.some.inj h)
        exact ⟨hpath, hother, hne⟩
    · exact nomatch h
  · rintro ⟨hb, hfind, hne⟩
    refine ⟨b, hb, ?_⟩
    dsimp only
    rw [hfind]
    exact if_neg hne
  · rintro ⟨path, hpath, h⟩
    obtain ⟨dir, hdir, h⟩ := List.mem_filterMap.1 h
    obtain ⟨file, hfile, h⟩ := Option.map_eq_some_iff.1 h
    obtain ⟨rfl, rfl⟩ := Prod.mk.inj h
    exact ⟨hpath, dir, hdir, hfile⟩
  · rintro ⟨hb, dir, hdir, hfind⟩
    exact ⟨b, hb, List.mem_filterMap.2 ⟨dir, hdir, Option.map_eq_some_iff.2 ⟨a, hfind, rfl⟩⟩⟩

/-- Two paths that meet are in a pair with the first of their folded name. -/
theorem Meets.exists_pair (hfold : ∀ path, partsOf (fold path) = (partsOf path).map foldName)
    {root : Folder} {p q : Path} (h : Meets foldName root p q) {paths : List Path} (hp : p ∈ paths)
    (hq : q ∈ paths) : ∃ first ∈ paths, fold first = fold p ∧ ∃ b, (first, b) ∈ foldedPairs fold paths := by
  have hsome : (paths.find? fun path => fold path = fold p).isSome :=
    List.find?_isSome.2 ⟨p, hp, decide_eq_true rfl⟩
  obtain ⟨first, hfirst⟩ := Option.isSome_iff_exists.1 hsome
  refine ⟨first, List.mem_of_find?_eq_some hfirst, of_decide_eq_true (List.find?_some hfirst :), ?_⟩
  rcases h.fold_eq hfold with heq | ⟨dir, hdir, heq⟩
  · by_cases hne : first = p
    · exact ⟨q, mem_foldedPairs.2 (.inl ⟨hq, by rw [← heq]; exact hfirst, hne ▸ h.1⟩)⟩
    · exact ⟨p, mem_foldedPairs.2 (.inl ⟨hp, hfirst, hne⟩)⟩
  · exact ⟨q, mem_foldedPairs.2 (.inr ⟨hq, dir, hdir, by rw [← heq]; exact hfirst⟩)⟩

/-- Every pair is asked by the first path, where the others have its folded name or are a single longer
one. -/
theorem eq_of_mem_foldedPairs (hfold : ∀ path, partsOf (fold path) = (partsOf path).map foldName)
    {first q : Path} {paths : List Path} (hpaths : ∀ p ∈ first :: paths, fold p = fold first ∨ p = q)
    (hlen : (partsOf first).length ≤ (partsOf q).length) {a b : Path}
    (h : (a, b) ∈ foldedPairs fold (first :: paths)) : a = first := by
  have hhead : ∀ {c : Path}, fold first = fold c →
      (first :: paths).find? (fun p => fold p = fold c) = some first := fun {c} h => by
    rw [List.find?_cons, decide_eq_true h]
  have hfound : ∀ {c : Path}, (first :: paths).find? (fun p => fold p = fold c) = some a →
      a = first ∨ a = q ∧ fold a = fold c := fun {c} hc => by
    have hac : fold a = fold c := of_decide_eq_true (List.find?_some hc :)
    rcases hpaths a (List.mem_of_find?_eq_some hc) with heq | heq
    · exact .inl (Option.some.inj (hc.symm.trans (hhead (heq.symm.trans hac))))
    · exact .inr ⟨heq, hac⟩
  have hlength : ∀ {x y : Path}, fold x = fold y → (partsOf x).length = (partsOf y).length :=
    fun {x y} hxy => by simpa using congrArg List.length ((fold_eq_iff hfold).1 hxy)
  rcases mem_foldedPairs.1 h with ⟨hb, hfind, hne⟩ | ⟨hb, dir, hdir, hfind⟩
  · rcases hfound hfind with ha | ⟨ha, hab⟩
    · exact ha
    · rcases hpaths b hb with heq | heq
      · exact Option.some.inj (hfind.symm.trans (hhead heq.symm))
      · exact absurd (ha.trans heq.symm) hne
  · rcases hfound hfind with ha | ⟨ha, hab⟩
    · exact ha
    · -- A folder of a path has fewer names than the longest of them.
      obtain ⟨n, hn, hlt, rfl⟩ := mem_dirsOf.1 hdir
      have hq := hlength hab
      rw [ha, partsOf_joinParts_take b hn, List.length_take, min_eq_left hlt.le] at hq
      rcases hpaths b hb with heq | heq
      · have := hlength heq
        omega
      · rw [heq] at hlt
        omega

/-- Where no pair is found, two paths that meet were asked about, in the folder of the first of their folded
name, which tells names apart. -/
theorem Meets.asked (hfold : ∀ path, partsOf (fold path) = (partsOf path).map foldName) {root : Folder}
    {p q : Path} (h : Meets foldName root p q) {paths : List Path} (hp : p ∈ paths) (hq : q ∈ paths)
    {nearest : Path → List JsString} {folds : List JsString → Except (Option JsString) Bool}
    (hnone : foldedPairOn fold paths nearest folds = none) :
    ∃ first ∈ paths, fold first = fold p ∧ folds (nearest (dirOf first)) = .ok false := by
  obtain ⟨first, hfirst, heq, b, hpair⟩ := h.exists_pair hfold hp hq
  exact ⟨first, hfirst, heq, foldedPairOn_eq_none.1 hnone _ hpair⟩

/-- For which entries and trees no two entries meet that pass the checks. -/
theorem foldedPairOn_complete_iff (hfold : ∀ path, partsOf (fold path) = (partsOf path).map foldName)
    (root : Folder) (probeFails : List JsString → Option (Option JsString)) (entries : Set Path) :
    (∀ paths : List Path, paths.Nodup → (∀ path ∈ paths, path ∈ entries) →
      foldedPairOn fold paths (nearestExistingDir foldName root) (namesFold foldName root probeFails) =
        none →
      (∀ path ∈ paths, liveTargetProblem foldName root path = none) →
      ∀ p ∈ paths, ∀ q ∈ paths, ¬ Meets foldName root p q) ↔
    ∀ p ∈ entries, ∀ q ∈ entries, Meets foldName root p q →
      ∀ first ∈ entries, fold first = fold p →
        (∀ path ∈ [first, p, q], liveTargetProblem foldName root path = none) →
        namesFold foldName root probeFails (nearestExistingDir foldName root (dirOf first)) ≠ .ok false := by
  constructor
  · intro hcomplete p hp q hq hmeets first hfirst heq hlive hapart
    -- These three alone : every pair of theirs is asked in the folder of the first.
    have hmem : ∀ path ∈ first :: [p, q].filter (· ≠ first), path ∈ [first, p, q] := fun path h =>
      (List.mem_cons.1 h).elim (fun h => by rw [h]; exact List.mem_cons_self)
        fun h => List.mem_cons_of_mem _ (List.mem_of_mem_filter h)
    have hin : ∀ path ∈ [first, p, q], path ∈ first :: [p, q].filter (· ≠ first) := fun path h => by
      by_cases hne : path = first
      · rw [hne]
        exact List.mem_cons_self
      · exact List.mem_cons_of_mem _ (List.mem_filter.2
          ⟨(List.mem_cons.1 h).resolve_left hne, decide_eq_true hne⟩)
    refine hcomplete (first :: [p, q].filter (· ≠ first)) ?_ (fun path h => ?_) ?_
      (fun path h => hlive path (hmem path h)) p (hin p (by simp)) q (hin q (by simp)) hmeets
    · refine List.nodup_cons.2 ⟨fun h => ?_, (by simpa using hmeets.1 : [p, q].Nodup).filter _⟩
      exact of_decide_eq_true (List.mem_filter.1 h).2 rfl
    · rcases List.mem_cons.1 (hmem path h) with rfl | h
      · exact hfirst
      · rcases List.mem_pair.1 h with rfl | rfl
        · exact hp
        · exact hq
    · refine foldedPairOn_eq_none.2 ?_
      rintro ⟨a, b⟩ hpair
      have hlen : (partsOf first).length ≤ (partsOf q).length := by
        have := congrArg List.length ((fold_eq_iff hfold).1 heq)
        rw [List.length_map, List.length_map] at this
        exact this.trans_le hmeets.length_le
      have ha := eq_of_mem_foldedPairs hfold (fun path h => ?_) hlen hpair
      · rw [ha]
        exact hapart
      · rcases List.mem_cons.1 (hmem path h) with rfl | h
        · exact .inl rfl
        · rcases List.mem_pair.1 h with rfl | rfl
          · exact .inl heq.symm
          · exact .inr rfl
  · intro hcond paths _ hentries hnone hlive p hp q hq hmeets
    obtain ⟨first, hfirst, heq, hanswer⟩ := hmeets.asked hfold hp hq hnone
    refine hcond p (hentries p hp) q (hentries q hq) hmeets first (hentries first hfirst) heq
      (fun path h => hlive path ?_) hanswer
    rcases List.mem_cons.1 h with rfl | h
    · exact hfirst
    · rcases List.mem_pair.1 h with rfl | rfl
      · exact hp
      · exact hq

/-! ## A folder that does not fold in one that does -/

/-- `memory` folds, the folder `A` in it does not. -/
def mixedRoot : Folder :=
  ⟨false, [(utf16 "memory", .dir true [(utf16 "A", .dir false [])])]⟩

/-- The capitals of ASCII in lower case. -/
def lowerName (name : JsString) : JsString :=
  name.map fun u => if 0x41 ≤ u.toNat && u.toNat ≤ 0x5A then u + 0x20 else u

theorem partsOf_lowerName (path : Path) : partsOf (lowerName path) = (partsOf path).map lowerName := by
  have hsep : ∀ u : UInt16, (if 0x41 ≤ u.toNat && u.toNat ≤ 0x5A then u + 0x20 else u) = 0x2F ↔ u = 0x2F := by
    intro u
    split
    next h =>
      simp only [Bool.and_eq_true, decide_eq_true_eq, ← UInt16.toNat_inj, UInt16.toNat_add] at h ⊢
      change (u.toNat + 32) % 65536 = 47 ↔ u.toNat = 47
      omega
    · rfl
  induction path with
  | nil => rfl
  | cons u path ih =>
    unfold partsOf lowerName at ih ⊢
    rw [List.map_cons, List.splitOn_cons_eq_if_modifyHead, List.splitOn_cons_eq_if_modifyHead, ih]
    simp only [beq_iff_eq, hsep]
    split
    · rfl
    · cases path.splitOn 0x2F with
      | nil => rfl
      | cons part parts => rfl

/-- `memory/A/x` and `memory/a/x` are one file where `memory` folds. The folder `memory/A` is asked, and
does not. -/
theorem foldedPairOn_misses : ¬ ∀ (root : Folder) (paths : List Path), paths.Nodup →
    foldedPairOn lowerName paths (nearestExistingDir lowerName root)
      (namesFold lowerName root fun _ => none) = none →
    (∀ path ∈ paths, liveTargetProblem lowerName root path = none) →
    ∀ p ∈ paths, ∀ q ∈ paths, ¬ Meets lowerName root p q := by
  intro h
  refine h mixedRoot [utf16 "memory/A/x", utf16 "memory/a/x"] ?_ ?_ ?_ (utf16 "memory/A/x") ?_
    (utf16 "memory/a/x") ?_ ?_ <;> decide

/-- On that tree the entries `memory/A/x` and `memory/a/x` are not told apart. -/
theorem foldedPairOn_complete_iff_mixed :
    ¬ ∀ paths : List Path, paths.Nodup →
      (∀ path ∈ paths, path ∈ ({utf16 "memory/A/x", utf16 "memory/a/x"} : Set Path)) →
      foldedPairOn lowerName paths (nearestExistingDir lowerName mixedRoot)
        (namesFold lowerName mixedRoot fun _ => none) = none →
      (∀ path ∈ paths, liveTargetProblem lowerName mixedRoot path = none) →
      ∀ p ∈ paths, ∀ q ∈ paths, ¬ Meets lowerName mixedRoot p q := by
  rw [foldedPairOn_complete_iff partsOf_lowerName]
  intro h
  exact h (utf16 "memory/A/x") (.inl rfl) (utf16 "memory/a/x") (.inr rfl) (by decide)
    (utf16 "memory/A/x") (.inl rfl) rfl (by decide) (by decide)

end Fold

end Lynox.Backup
