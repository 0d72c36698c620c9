import Lynox.Bulk.World
import Lynox.Data.Readable

/-!
# What the approval checksum binds

`computeChecksum` yields its parts one after another and `keyedHash` feeds each to the digest
behind its length in bytes, so the bytes give the parts back (`keyedHashInput_injective`). The
parts give the plan back : a section that is left out cannot be taken for the next one, since
every section begins with a word of its own and every target with a number, and the mark of a
deselected target is no number either (`BoundPlan.parts_injective`).
-/

namespace Lynox.Bulk

/-! ## Parts -/

/-- What `keyedHash` feeds to the digest : every part behind its length in bytes. -/
def keyedHashInput (parts : List String) : ByteArray :=
  parts.foldl (fun h p => h ++ (toString p.utf8ByteSize ++ ":").toUTF8 ++ p.toUTF8) .empty

/-- The characters of a length, up to its colon. -/
def lengthLabel (n : ℕ) : List Char :=
  Nat.toDigits 10 n ++ [':']

def framed (l : List Char) : List Char :=
  lengthLabel (String.ofList l).utf8ByteSize ++ l

theorem toDigits_injective : Function.Injective (Nat.toDigits 10) := by
  intro n m h
  have hread := congrArg (Nat.ofDigitChars 10 · 0) h
  simpa only [Nat.ofDigitChars_ten_toDigits] using hread

theorem readable_lengthLabel : Readable (fun _ => True) lengthLabel := by
  refine readable_marked toDigits_injective fun n hn => ?_
  have hdigit := Nat.isDigit_of_mem_toDigits (by decide) (by decide) hn
  cases hdigit

theorem readable_framed_part : Readable (fun _ => True) framed := by
  refine readable_framed readable_lengthLabel (fun l m => ?_) fun l hl => ?_
  · rw [String.ofList_append, String.utf8ByteSize_append]
  · have hempty := String.utf8ByteSize_eq_zero_iff.mp hl
    simpa using congrArg String.toList hempty

theorem ofList_framed (p : String) :
    String.ofList (framed p.toList) = toString p.utf8ByteSize ++ ":" ++ p := by
  simp only [framed, lengthLabel, String.ofList_append, String.ofList_toList,
    Nat.toString_eq_ofList_toDigits]

theorem keyedHashInput_eq (parts : List String) : keyedHashInput parts =
    (String.ofList ((parts.map String.toList).flatMap framed)).toByteArray := by
  have hfold (h : ByteArray) : parts.foldl
      (fun h p => h ++ (toString p.utf8ByteSize ++ ":").toUTF8 ++ p.toUTF8) h =
        h ++ (String.ofList ((parts.map String.toList).flatMap framed)).toByteArray := by
    induction parts generalizing h with
    | nil => simp
    | cons p parts ih =>
      rw [List.foldl_cons, ih, List.map_cons, List.flatMap_cons, String.ofList_append, ofList_framed]
      simp only [String.toUTF8_eq_toByteArray, String.toByteArray_append, ByteArray.append_assoc]
  rw [keyedHashInput, hfold, ByteArray.empty_append]

theorem keyedHashInput_injective : Function.Injective keyedHashInput := by
  intro ps qs h
  rw [keyedHashInput_eq, keyedHashInput_eq, String.toByteArray_inj] at h
  have hparts := readable_framed_part.flatMap trivial (fun _ _ => trivial)
    (fun l => by simp [framed, lengthLabel]) (String.ofList_injective h)
  exact List.map_injective_iff.mpr (fun _ _ => String.toList_injective) hparts

/-! ## The plan -/

/-- What the checksum binds of a target; a null image reads as the empty text. -/
structure BoundTarget where
  seq : ℕ
  targetKey : String
  change : Change
  before : String
  afterPlanned : String
  deselected : Bool
  deriving DecidableEq

/-- What the checksum binds of a run; a null collection or source reads as the empty text. -/
structure BoundPlan where
  kind : RunKind
  targetSystem : String
  targetCollection : String
  atomic : Bool
  sourceRunId : String
  ruleHash : String
  contractJson : Option String
  listSource : Option String
  judgeRuleHash : Option String
  startDomains : Option String
  targets : List BoundTarget
  deriving DecidableEq

def Target.bound (t : Target) : BoundTarget where
  seq := t.seq
  targetKey := t.targetKey
  change := t.change
  before := t.before.getD ""
  afterPlanned := t.afterPlanned.getD ""
  deselected := t.deselectedAt.isSome

def Run.bound (x : Run) : BoundPlan where
  kind := x.kind
  targetSystem := x.targetSystem
  targetCollection := x.targetCollection.getD ""
  atomic := x.atomic
  sourceRunId := x.sourceRunId.getD ""
  ruleHash := x.ruleHash
  contractJson := x.contractJson
  listSource := x.listSource
  judgeRuleHash := x.judgeRuleHash
  startDomains := x.startDomains
  targets := x.targets.map Target.bound

def BoundTarget.parts (t : BoundTarget) : List String :=
  [toString t.seq, t.targetKey, t.change.text, t.before, t.afterPlanned] ++
    if t.deselected then ["deselected"] else []

namespace BoundPlan

def head (p : BoundPlan) : List String :=
  ["bulk-approval-v1", p.kind.text, p.targetSystem, p.targetCollection,
    if p.atomic then "1" else "0", p.sourceRunId, p.ruleHash]

def parts (p : BoundPlan) : List String :=
  p.head ++ (optionalPart "contract" p.contractJson ++ (optionalPart "list" p.listSource ++
    (optionalPart "judge" p.judgeRuleHash ++ (optionalPart "start_domains" p.startDomains ++
      p.targets.flatMap BoundTarget.parts))))

end BoundPlan

theorem Run.checksumParts_eq (x : Run) : x.checksumParts = x.bound.parts := by
  simp only [checksumParts, BoundPlan.parts, BoundPlan.head, bound, List.flatMap_map,
    List.append_assoc]
  rfl

/-! ### Words and numbers -/

theorem toString_ne_of_mem {word : String} {c : Char} (hc : c ∈ word.toList)
    (hdigit : c.isDigit = false) (n : ℕ) : toString n ≠ word := by
  rintro rfl
  rw [Nat.toString_eq_ofList_toDigits, String.toList_ofList] at hc
  simp [Nat.isDigit_of_mem_toDigits (by decide) (by decide) hc] at hdigit

theorem toString_injective : Function.Injective (toString : ℕ → String) := by
  intro n m h
  rw [Nat.toString_eq_ofList_toDigits, Nat.toString_eq_ofList_toDigits] at h
  exact toDigits_injective (String.ofList_injective h)

theorem Change.text_injective : Function.Injective Change.text := by
  intro a b h
  cases a <;> cases b <;> first | rfl | simp [Change.text] at h

theorem RunKind.text_injective : Function.Injective RunKind.text := by
  intro a b h
  cases a <;> cases b <;> first | rfl | simp [RunKind.text] at h

/-! ### Sections -/

theorem readable_optionalPart (name : String) :
    Readable (fun s => s.head? ≠ some name) (optionalPart name) := by
  have hcode : optionalPart name = fun o => o.elim [] fun text => name :: [text] := by
    funext o
    cases o <;> rfl
  rw [hcode]
  exact readable_optional (readable_length (n := 1) (fun _ => rfl) fun _ _ h => by simpa using h)

theorem head_optionalPart {name word : String} (h : name ≠ word) {o : Option String}
    {s : List String} (hs : s.head? ≠ some word) :
    (optionalPart name o ++ s).head? ≠ some word := by
  cases o with
  | none => exact hs
  | some text => simpa [optionalPart] using h

theorem readable_boundTarget :
    Readable (fun s => s.head? ≠ some "deselected") BoundTarget.parts := by
  intro t t' s s' hs hs' hcat
  simp only [BoundTarget.parts, List.append_assoc] at hcat
  obtain ⟨hcolumns, hrest⟩ := List.append_inj hcat rfl
  obtain ⟨hdeselected, rfl⟩ := readable_flag hs hs' hrest
  simp only [List.cons.injEq, and_true] at hcolumns
  obtain ⟨hseq, hkey, hchange, hbefore, hafter⟩ := hcolumns
  have hseq' := toString_injective hseq
  have hchange' := Change.text_injective hchange
  cases t
  cases t'
  simp_all

theorem head_targets {word : String} {c : Char} (hc : c ∈ word.toList)
    (hdigit : c.isDigit = false) (targets : List BoundTarget) :
    (targets.flatMap BoundTarget.parts).head? ≠ some word := by
  cases targets with
  | nil => simp
  | cons t targets => simpa [BoundTarget.parts] using toString_ne_of_mem hc hdigit t.seq

theorem targets_injective : Function.Injective fun l : List BoundTarget =>
    l.flatMap BoundTarget.parts := by
  refine readable_boundTarget.flatMap (by simp) (fun t s => ?_) fun t => by simp [BoundTarget.parts]
  simpa [BoundTarget.parts] using toString_ne_of_mem (c := 'd') (by decide) (by decide) t.seq

theorem BoundPlan.head_injective {p q : BoundPlan} (h : p.head = q.head) :
    p.kind = q.kind ∧ p.targetSystem = q.targetSystem ∧ p.targetCollection = q.targetCollection ∧
      p.atomic = q.atomic ∧ p.sourceRunId = q.sourceRunId ∧ p.ruleHash = q.ruleHash := by
  simp only [head, List.cons.injEq, and_true, true_and] at h
  obtain ⟨hkind, hsystem, hcollection, hatomic, hsource, hrule⟩ := h
  refine ⟨RunKind.text_injective hkind, hsystem, hcollection, ?_, hsource, hrule⟩
  rcases hp : p.atomic with _ | _ <;> rcases hq : q.atomic with _ | _ <;> simp_all

/-- The parts give back everything they were made of. -/
theorem BoundPlan.parts_injective : Function.Injective BoundPlan.parts := by
  intro p q h
  have hrows (word : String) (c : Char) (hc : c ∈ word.toList) (hdigit : c.isDigit = false)
      (b : BoundPlan) : (b.targets.flatMap BoundTarget.parts).head? ≠ some word :=
    head_targets hc hdigit b.targets
  obtain ⟨hhead, hcontract⟩ := List.append_inj h rfl
  have hlists (b : BoundPlan) : (optionalPart "list" b.listSource ++
      (optionalPart "judge" b.judgeRuleHash ++ (optionalPart "start_domains" b.startDomains ++
        b.targets.flatMap BoundTarget.parts))).head? ≠ some "contract" :=
    head_optionalPart (by decide) (head_optionalPart (by decide) (head_optionalPart (by decide)
      (hrows "contract" 'c' (by decide) (by decide) b)))
  obtain ⟨hcontract, hlist⟩ := readable_optionalPart "contract" (hlists p) (hlists q) hcontract
  have hjudges (b : BoundPlan) : (optionalPart "judge" b.judgeRuleHash ++
      (optionalPart "start_domains" b.startDomains ++
        b.targets.flatMap BoundTarget.parts)).head? ≠ some "list" :=
    head_optionalPart (by decide) (head_optionalPart (by decide)
      (hrows "list" 'l' (by decide) (by decide) b))
  obtain ⟨hlist, hjudge⟩ := readable_optionalPart "list" (hjudges p) (hjudges q) hlist
  have hdomains (b : BoundPlan) : (optionalPart "start_domains" b.startDomains ++
      b.targets.flatMap BoundTarget.parts).head? ≠ some "judge" :=
    head_optionalPart (by decide) (hrows "judge" 'j' (by decide) (by decide) b)
  obtain ⟨hjudge, hdomain⟩ := readable_optionalPart "judge" (hdomains p) (hdomains q) hjudge
  have hends (b : BoundPlan) := hrows "start_domains" 's' (by decide) (by decide) b
  obtain ⟨hdomain, htargets⟩ := readable_optionalPart "start_domains" (hends p) (hends q) hdomain
  have htargets' := targets_injective htargets
  obtain ⟨hkind, hsystem, hcollection, hatomic, hsource, hrule⟩ := head_injective hhead
  cases p
  cases q
  simp_all

/-! ## The stream -/

/-- The bytes `computeChecksum` feeds to the digest. -/
def Ledger.checksumInput (L : Ledger) (runId : String) : Option ByteArray :=
  (L.runRow runId).map fun x => keyedHashInput x.checksumParts

/-- Two runs, of one ledger or of two, whose checksums are made of the same bytes have the same
plan, up to null and empty texts. -/
theorem checksum_binds_the_plan {L L' : Ledger} {id id' : String} {x x' : Run}
    (hx : L.runRow id = some x) (hx' : L'.runRow id' = some x')
    (h : L.checksumInput id = L'.checksumInput id') : x.bound = x'.bound := by
  rw [Ledger.checksumInput, Ledger.checksumInput, hx, hx'] at h
  have hparts := keyedHashInput_injective (Option.some.inj h)
  rw [Run.checksumParts_eq, Run.checksumParts_eq] at hparts
  exact BoundPlan.parts_injective hparts

/-- The run of `plainWorld` with an empty text for its collection. -/
def emptyCollection : Run :=
  { plainRun "http:host" false [plainTarget 0 "/items/1"] (by decide) with
    targetCollection := some "" }

theorem null_and_empty_collection : emptyCollection.bound =
    (plainRun "http:host" false [plainTarget 0 "/items/1"] (by decide)).bound := by
  have hx : (plainWorld emptyCollection).ledger.runRow "r" = some emptyCollection := rfl
  have hx' : (plainWorld (plainRun "http:host" false [plainTarget 0 "/items/1"]
      (by decide))).ledger.runRow "r" =
        some (plainRun "http:host" false [plainTarget 0 "/items/1"] (by decide)) := rfl
  exact checksum_binds_the_plan hx hx' rfl

end Lynox.Bulk
