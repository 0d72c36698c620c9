import Lynox.Process.Run
import Lynox.Secrets.Store

/-!
# A scoped view of a store

A view lets through the names of its scope, and those it stores itself. Others use the inner store
under it. `own` is what the view last stored under a name : where others write no name that the view
has stored (`Respects`), a name outside the scope yields nothing else (`Narrow.tight`). References never
resolve to an infrastructure value (`refs_not_infra`).
-/

namespace Lynox.Secrets

open Text

/-- The names a view was built with, or the whole vault. -/
inductive VaultScope
  | all
  | only (names : List JsString)
  deriving DecidableEq

/-- A name that is neither in the scope nor of the infrastructure. -/
def VaultScope.outside (scope : VaultScope) (name : JsString) : Prop :=
  match scope with
  | .all => False
  | .only names => name ∉ names ∧ isInfraSecret name = false

inductive DeniedOp
  | resolve | getMasked | consent | delete
  deriving DecidableEq, Repr

/-- A view and its inner store, with what the view last stored under each name. `allowed` is none for
the whole vault, where the view is the inner store itself. -/
structure View (σ : Type) where
  inner : σ
  allowed : Option (List JsString)
  own : JsString → Option JsString

variable {σ : Type} (V : InnerStore σ)

/-- A view of a store. -/
def scopeSecretStore (inner : σ) (scope : VaultScope) : View σ :=
  { inner := inner
    allowed := match scope with
      | .all => none
      | .only names => some names
    own := fun _ => none }

namespace View

/-- Infrastructure names pass a read. -/
def permits (view : View σ) (name : JsString) (op : DeniedOp) : Bool :=
  match view.allowed with
  | none => true
  | some allowed => name ∈ allowed || (isInfraSecret name && (op = .resolve || op = .getMasked))

def resolve (view : View σ) (now : Int) (name : JsString) : Option JsString :=
  if view.permits name .resolve then V.resolve view.inner now name else none

def getMasked (view : View σ) (name : JsString) : Option JsString :=
  if view.permits name .getMasked then V.getMasked view.inner name else none

def resolveSecretRefs (view : View σ) (now : Int) (input : Value) : Value ⊕ Json :=
  resolveSecretRefsWith input (view.resolve V now)

def recordConsent (view : View σ) (name : JsString) : View σ :=
  if view.permits name .consent then { view with inner := V.recordConsent view.inner name } else view

/-- What the view stores, it may read. -/
def set (view : View σ) (p : Put) : View σ :=
  match V.set with
  | none => view
  | some set =>
    let out := set view.inner p
    if out.1 then
      { inner := out.2
        allowed := view.allowed.map fun allowed => p.name :: allowed
        own := fun name => if name = p.name then some p.value else view.own name }
    else { view with inner := out.2 }

def deleteSecret (view : View σ) (name : JsString) : View σ :=
  match V.deleteSecret with
  | none => view
  | some delete =>
    if view.permits name .delete then { view with inner := (delete view.inner name).2 } else view

end View

/-! ## Runs -/

/-- An operation on a store that changes it. -/
inductive Op
  | set (p : Put)
  | delete (name : JsString)
  | consent (name : JsString)

/-- An operation of the view, or of others on the inner store. -/
inductive Event
  | view (op : Op)
  | others (op : Op)

def step (view : View σ) : Event → View σ
  | .view (.set p) => view.set V p
  | .view (.delete name) => view.deleteSecret V name
  | .view (.consent name) => view.recordConsent V name
  | .others (.set p) =>
    { view with inner := (V.set.map fun set => (set view.inner p).2).getD view.inner }
  | .others (.delete name) =>
    { view with inner := (V.deleteSecret.map fun delete => (delete view.inner name).2).getD view.inner }
  | .others (.consent name) => { view with inner := V.recordConsent view.inner name }

/-- The view after the events. -/
def after (inner : σ) (scope : VaultScope) (events : List Event) : View σ :=
  Run.after (step V) (scopeSecretStore inner scope) events

/-- What a view yields for a name outside its scope is what it last stored there. -/
structure Tight (scope : VaultScope) (view : View σ) : Prop where
  resolve : ∀ {now name v}, scope.outside name → view.resolve V now name = some v →
    view.own name = some v
  getMasked : ∀ {name m}, scope.outside name → view.getMasked V name = some m →
    ∃ v, view.own name = some v ∧ m = maskValue v
  refs : ∀ now input, ∃ resolve, view.resolveSecretRefs V now input =
    resolveSecretRefsWith input resolve ∧ ∀ {name v}, scope.outside name → resolve name = some v →
      view.own name = some v

/-- Others store no other value under a name outside the scope that the view has stored. -/
def Respects (scope : VaultScope) (view : View σ) : Event → Prop
  | .others (.set p) => scope.outside p.name → ∀ v, view.own p.name = some v → v = p.value
  | _ => True

/-- What is outside the scope is let through where the view has stored it, and holds what it stored. -/
structure Narrow (scope : VaultScope) (view : View σ) : Prop where
  allowed : ∀ {name op}, scope.outside name → view.permits name op = true → ∃ v, view.own name = some v
  holds : ∀ {name v w}, scope.outside name → view.own name = some v → V.value view.inner name = some w →
    w = v

variable {V} {scope : VaultScope} {view : View σ}

theorem Narrow.tight (h : Narrow V scope view) : Tight V scope view := by
  have hresolve : ∀ {now name v}, scope.outside name → view.resolve V now name = some v →
      view.own name = some v := by
    intro now name v houtside hv
    unfold View.resolve at hv
    split at hv
    · next hpermits =>
      obtain ⟨w, hw⟩ := h.allowed houtside hpermits
      rw [h.holds houtside hw (V.resolve_value hv)]
      exact hw
    · exact nomatch hv
  refine ⟨hresolve, fun houtside hm => ?_, fun now input => ⟨_, rfl, hresolve⟩⟩
  unfold View.getMasked at hm
  split at hm
  · next hpermits =>
    obtain ⟨w, hw⟩ := h.allowed houtside hpermits
    obtain ⟨v, hv, hmask⟩ := V.masked_value hm
    exact ⟨w, hw, h.holds houtside hw hv ▸ hmask⟩
  · exact nomatch hm

/-- An inner store that holds no new value. -/
theorem Narrow.shrinks (h : Narrow V scope view) {inner : σ}
    (hvalue : ∀ {name v}, V.value inner name = some v → V.value view.inner name = some v) :
    Narrow V scope { view with inner := inner } :=
  ⟨h.allowed, fun houtside hown hheld => h.holds houtside hown (hvalue hheld)⟩

theorem narrow_scopeSecretStore (V : InnerStore σ) (inner : σ) (scope : VaultScope) :
    Narrow V scope (scopeSecretStore inner scope) := by
  refine ⟨fun {name op} houtside hpermits => ?_, fun _ hown => nomatch hown⟩
  cases scope with
  | all => exact houtside.elim
  | only names =>
    obtain ⟨hnames, hinfra⟩ := houtside
    simp [View.permits, scopeSecretStore, hnames, hinfra] at hpermits

theorem Narrow.set (h : Narrow V scope view) (p : Put) : Narrow V scope (view.set V p) := by
  unfold View.set
  split
  · exact h
  · next set hset =>
    have hvalue := V.set_value hset view.inner p
    dsimp only
    split
    · next hstored =>
      rw [hstored] at hvalue
      refine ⟨fun {name op} houtside hpermits => ?_, fun {name v w} houtside hown hheld => ?_⟩
      · by_cases hname : name = p.name
        · exact ⟨p.value, if_pos hname⟩
        · have hpermits' : view.permits name op = true := by
            unfold View.permits at hpermits ⊢
            cases hallowed : view.allowed with
            | none => rfl
            | some allowed => simpa [hallowed, hname] using hpermits
          obtain ⟨v, hv⟩ := h.allowed houtside hpermits'
          exact ⟨v, (if_neg hname).trans hv⟩
      · dsimp only at hown hheld
        rw [hvalue name] at hheld
        by_cases hname : name = p.name
        · rw [if_pos hname] at hown
          rw [if_pos ⟨rfl, hname⟩] at hheld
          exact Option.some.inj (hheld.symm.trans hown)
        · rw [if_neg hname] at hown
          rw [if_neg fun h => hname h.2] at hheld
          exact h.holds houtside hown hheld
    · next hthrew =>
      refine h.shrinks fun {name v} hheld => ?_
      rw [hvalue name, if_neg fun h => hthrew h.1] at hheld
      exact hheld

theorem Narrow.delete (h : Narrow V scope view) (name : JsString) :
    Narrow V scope (view.deleteSecret V name) := by
  unfold View.deleteSecret
  split
  · exact h
  · next delete hdelete =>
    split
    · exact h.shrinks (V.delete_value hdelete)
    · exact h

theorem Narrow.consent (h : Narrow V scope view) (name : JsString) :
    Narrow V scope { view with inner := V.recordConsent view.inner name } :=
  h.shrinks fun hheld => V.consent_value view.inner name ▸ hheld

/-- Others store, where they respect what the view stored. -/
theorem Narrow.others (h : Narrow V scope view) {p : Put}
    (hrespects : Respects scope view (.others (.set p))) :
    Narrow V scope (step V view (.others (.set p))) := by
  unfold step
  cases hset : V.set with
  | none => exact h
  | some set =>
    refine ⟨h.allowed, fun {name v w} houtside hown hheld => ?_⟩
    have hheld' : V.value (set view.inner p).2 name = some w := hheld
    rw [V.set_value hset] at hheld'
    split at hheld'
    · next hname =>
      obtain ⟨-, rfl⟩ := hname
      rw [hrespects houtside v hown]
      exact (Option.some.inj hheld').symm
    · exact h.holds houtside hown hheld'

theorem Narrow.step (h : Narrow V scope view) {e : Event} (hrespects : Respects scope view e) :
    Narrow V scope (step V view e) := by
  cases e with
  | view op =>
    cases op with
    | set p => exact h.set p
    | delete name => exact h.delete name
    | consent name =>
      unfold Secrets.step View.recordConsent
      dsimp only
      split
      · exact h.consent name
      · exact h
  | others op =>
    cases op with
    | set p => exact h.others hrespects
    | delete name =>
      unfold Secrets.step
      cases hdelete : V.deleteSecret with
      | none => exact h
      | some delete => exact h.shrinks (V.delete_value hdelete)
    | consent name => exact h.consent name

/-- A reference to an infrastructure name stays : the result is the same whatever such names hold. -/
def NoInfra (V : InnerStore σ) (view : View σ) : Prop :=
  ∀ now input resolve, (∀ name, isInfraSecret name = false → resolve name = view.resolve V now name) →
    view.resolveSecretRefs V now input = resolveSecretRefsWith input resolve

theorem refs_not_infra (V : InnerStore σ) (view : View σ) : NoInfra V view :=
  fun _ input _ h => resolveSecretRefsWith_congr (fun name hname => (h name hname).symm) input

/-- In every run in which others store no other value under a name the view has stored outside its scope,
a scoped view yields outside its scope only what it last stored; and its references never hold an
infrastructure value. -/
theorem scoped_view_is_tight (V : InnerStore σ) (inner : σ) (scope : VaultScope) (events : List Event)
    (h : Run.Obeys (step V) (Respects scope) (scopeSecretStore inner scope) events) :
    Tight V scope (after V inner scope events) ∧ NoInfra V (after V inner scope events) := by
  refine ⟨Narrow.tight ?_, refs_not_infra V _⟩
  exact Run.invariant_of (fun _ _ hnarrow hrespects => hnarrow.step hrespects)
    (narrow_scopeSecretStore V inner scope) h

/-! ## A run -/

/-- A vault of one secret. -/
def sampleStore : SecretStore :=
  { secrets := [(utf16 "PAYROLL", ⟨utf16 "p1", .any, 0, 0⟩)]
    consented := [utf16 "PAYROLL"]
    resolveGuard := none
    vault := some [(utf16 "PAYROLL", utf16 "p1")] }

def samplePut (name value : String) : Put :=
  ⟨0, utf16 name, utf16 value, none, none, true⟩

theorem sample_is_tight : Tight SecretStore.inner (.only []) (after SecretStore.inner sampleStore
      (.only []) [.view (.set (samplePut "TOKEN" "t1")), .others (.set (samplePut "PAYROLL" "p2"))]) ∧
    NoInfra SecretStore.inner (after SecretStore.inner sampleStore (.only [])
      [.view (.set (samplePut "TOKEN" "t1")), .others (.set (samplePut "PAYROLL" "p2"))]) := by
  refine scoped_view_is_tight SecretStore.inner sampleStore (.only []) _ ⟨trivial, ?_, trivial⟩
  intro _ v hown
  have hnone : (step SecretStore.inner (scopeSecretStore sampleStore (.only []))
      (.view (.set (samplePut "TOKEN" "t1")))).own (utf16 "PAYROLL") = none := by decide +kernel
  exact nomatch hnone.symm.trans hown

/-- The view stores a name, the owner stores it anew, and the view reads what the owner stored. -/
theorem sample_leaks : ¬ Tight SecretStore.inner (.only []) (after SecretStore.inner sampleStore
    (.only []) [.view (.set (samplePut "PAYROLL" "x")), .others (.set (samplePut "PAYROLL" "p2"))]) := by
  intro h
  have hread : (after SecretStore.inner sampleStore (.only []) [.view (.set (samplePut "PAYROLL" "x")),
      .others (.set (samplePut "PAYROLL" "p2"))]).resolve SecretStore.inner 1 (utf16 "PAYROLL") =
        some (utf16 "p2") := by decide +kernel
  have hown : (after SecretStore.inner sampleStore (.only []) [.view (.set (samplePut "PAYROLL" "x")),
      .others (.set (samplePut "PAYROLL" "p2"))]).own (utf16 "PAYROLL") = some (utf16 "x") := by
    decide +kernel
  have houtside : (VaultScope.only []).outside (utf16 "PAYROLL") := ⟨List.not_mem_nil, by decide⟩
  exact absurd (Option.some.inj (hown.symm.trans (h.resolve houtside hread))) (by decide)

end Lynox.Secrets
