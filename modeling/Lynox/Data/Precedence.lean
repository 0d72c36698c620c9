import Mathlib.Data.List.Basic
import Mathlib.Data.List.Flatten

/-!
# Conditions read with AND before OR

A condition is written as tokens : comparisons, of which each has some placeholders, `AND`, `OR` and parentheses.
`read` takes it apart with `AND` binding tighter than `OR`, gives every placeholder the next of the values, and
refuses what is no condition or does not use up the values. `Reads` says what a piece of the text adds to the
conjunction it stands in, whatever stands before and after it.
-/

namespace Lynox.Precedence

variable {α ν : Type}

inductive Token (α : Type)
  | atom (a : α)
  | and
  | or
  | lparen
  | rparen

inductive Expr (β : Type)
  | leaf (b : β)
  | and (l r : Expr β)
  | or (l r : Expr β)

namespace Expr

variable {β : Type}

def eval (t : β → Bool) : Expr β → Bool
  | .leaf b => t b
  | .and l r => l.eval t && r.eval t
  | .or l r => l.eval t || r.eval t

def leaves : Expr β → List β
  | .leaf b => [b]
  | .and l r => l.leaves ++ r.leaves
  | .or l r => l.leaves ++ r.leaves

end Expr

/-! ## The reader -/

/-- What was read since a parenthesis was opened : the disjunction so far, and the conjunction after its last `OR`. -/
structure Frame (β : Type) where
  disj : Option (Expr β)
  conj : Option (Expr β)

namespace Frame

variable {β : Type}

def empty : Frame β :=
  ⟨none, none⟩

def and (f : Frame β) (e : Expr β) : Frame β :=
  ⟨f.disj, some (match f.conj with
    | none => e
    | some c => .and c e)⟩

/-- The disjunction with the conjunction after it. -/
def close (f : Frame β) : Option (Expr β) :=
  f.conj.map fun c =>
    match f.disj with
    | none => c
    | some d => .or d c

def andAll (f : Frame β) (es : List (Expr β)) : Frame β :=
  es.foldl and f

end Frame

structure Reader (α ν : Type) where
  frames : List (Frame (α × List ν))
  top : Frame (α × List ν)
  /-- Whether an operand comes next. -/
  operand : Bool
  values : List ν

variable (arity : α → ℕ)

def step (r : Reader α ν) : Token α → Option (Reader α ν)
  | .atom a =>
    if r.operand && decide (arity a ≤ r.values.length) then
      some { r with
        top := r.top.and (.leaf (a, r.values.take (arity a)))
        operand := false
        values := r.values.drop (arity a) }
    else none
  | .and => if r.operand then none else some { r with operand := true }
  | .or => if r.operand then none else r.top.close.map fun e => { r with top := ⟨some e, none⟩, operand := true }
  | .lparen => if r.operand then some { r with frames := r.top :: r.frames, top := .empty } else none
  | .rparen =>
    if r.operand then none
    else
      match r.frames with
      | [] => none
      | f :: frames => r.top.close.map fun e => { r with frames := frames, top := f.and e }

def run (ts : List (Token α)) (r : Reader α ν) : Option (Reader α ν) :=
  ts.foldlM (step arity) r

/-- The condition, if the text is one and has as many placeholders as there are values. -/
def read (ts : List (Token α)) (values : List ν) : Option (Expr (α × List ν)) :=
  (run arity ts ⟨[], .empty, true, values⟩).bind fun r =>
    if r.operand || !r.frames.isEmpty || !r.values.isEmpty then none else r.top.close

variable {arity}

theorem run_append {ts ts' : List (Token α)} {r : Reader α ν} :
    run arity (ts ++ ts') r = (run arity ts r).bind (run arity ts') :=
  List.foldlM_append

theorem run_cons {t : Token α} {ts : List (Token α)} {r : Reader α ν} :
    run arity (t :: ts) r = (step arity r t).bind (run arity ts) :=
  List.foldlM_cons

theorem run_singleton {t : Token α} {r : Reader α ν} : run arity [t] r = step arity r t := by
  rw [run_cons]
  exact Option.bind_fun_some _

/-! ## What a piece of text adds -/

/-- The text is read with the values, and adds the expressions to the conjunction it stands in; with none, an operand is
still to come. -/
def Reads (arity : α → ℕ) (ts : List (Token α)) (values : List ν) (o : Option (List (Expr (α × List ν)))) : Prop :=
  ∀ frames top rest, run arity ts ⟨frames, top, true, values ++ rest⟩ =
    o.map fun es => ⟨frames, top.andAll es, es.isEmpty, rest⟩

/-- The texts are read with the values, one after the other. -/
inductive ReadsEach (arity : α → ℕ) :
    List (List (Token α)) → List ν → List (Option (List (Expr (α × List ν)))) → Prop
  | nil : ReadsEach arity [] [] []
  | cons {ts values o cs vs os} (h : Reads arity ts values o) (hs : ReadsEach arity cs vs os) :
    ReadsEach arity (ts :: cs) (values ++ vs) (o :: os)

/-- The texts between `sep`, in that order. -/
def joined (sep : Token α) (cs : List (List (Token α))) : List (Token α) :=
  List.intercalate [sep] cs

theorem joined_singleton {sep : Token α} {ts : List (Token α)} : joined sep [ts] = ts :=
  List.intercalate_singleton

theorem joined_cons_cons {sep : Token α} {ts ts' : List (Token α)} {cs : List (List (Token α))} :
    joined sep (ts :: ts' :: cs) = ts ++ (sep :: joined sep (ts' :: cs)) := by
  simp [joined, List.intercalate_cons_cons]

/-- What a group of texts is read as; a text that is empty is refused. -/
def grouped {β : Type} (conj : Bool) : List (Option (List (Expr β))) → Frame β → Option (Expr β)
  | [], _ => none
  | o :: os, top => o.bind fun es =>
    if es.isEmpty then none
    else
      match os with
      | [] => (top.andAll es).close
      | _ :: _ =>
        if conj then grouped conj os (top.andAll es)
        else (top.andAll es).close.bind fun e => grouped conj os ⟨some e, none⟩

theorem Reads.atom {a : α} {values : List ν} (h : values.length = arity a) :
    Reads arity [.atom a] values (some [.leaf (a, values)]) := by
  intro frames top rest
  have hlen : arity a ≤ (values ++ rest).length := by
    rw [List.length_append]
    omega
  rw [run_singleton]
  simp only [step, Bool.true_and, decide_eq_true hlen, if_true, List.take_left' h, List.drop_left' h]
  rfl

theorem ReadsEach.append {cs cs' : List (List (Token α))} {vs vs' : List ν}
    {os os' : List (Option (List (Expr (α × List ν))))} (h : ReadsEach arity cs vs os) (h' : ReadsEach arity cs' vs' os') :
    ReadsEach arity (cs ++ cs') (vs ++ vs') (os ++ os') := by
  induction h with
  | nil => exact h'
  | cons hone _ ih => rw [List.append_assoc]; exact .cons hone ih

/-- A group of texts in parentheses. -/
theorem Reads.group {conj : Bool} {cs : List (List (Token α))} {vs : List ν}
    {os : List (Option (List (Expr (α × List ν))))} (h : ReadsEach arity cs vs os) :
    Reads arity (.lparen :: (joined (if conj then .and else .or) cs ++ [.rparen])) vs
      ((grouped conj os .empty).map fun e => [e]) := by
  suffices hrun : ∀ f frames top rest,
      run arity (joined (if conj then .and else .or) cs ++ [.rparen]) ⟨f :: frames, top, true, vs ++ rest⟩ =
        (grouped conj os top).map fun e => ⟨frames, f.and e, false, rest⟩ by
    intro frames top rest
    rw [run_cons]
    simp only [step, if_true, Option.bind_some, hrun, Option.map_map]
    rfl
  induction h with
  | nil => exact fun f frames top rest => rfl
  | @cons ts values o cs vs os hone hs ih =>
    intro f frames top rest
    have hts := hone (f :: frames) top (vs ++ rest)
    cases hs with
    | nil =>
      rw [joined_singleton, run_append, List.append_assoc, hts]
      cases o with
      | none => rfl
      | some es =>
        cases es with
        | nil => rfl
        | cons e es =>
          rw [Option.map_some, Option.bind_some, run_singleton]
          rfl
    | cons hone' hs' =>
      rw [joined_cons_cons, List.append_assoc, run_append, List.append_assoc, hts]
      cases o with
      | none => rfl
      | some es =>
        cases es with
        | nil => cases conj <;> rfl
        | cons e es =>
          rw [Option.map_some, Option.bind_some, List.cons_append, run_cons]
          cases conj with
          | true => exact ih f frames (top.andAll (e :: es)) rest
          | false =>
            simp only [step, grouped, List.isEmpty_cons, Bool.false_eq_true, if_false, Option.bind_some]
            cases (top.andAll (e :: es)).close with
            | none => rfl
            | some d => exact ih f frames ⟨some d, none⟩ rest

/-- All the values, if each is there. -/
def allSome {β : Type} : List (Option β) → Option (List β)
  | [] => some []
  | x :: xs => x.bind fun b => (allSome xs).map (b :: ·)

theorem allSome_cons_some {β : Type} {b : β} {xs : List (Option β)} :
    allSome (some b :: xs) = (allSome xs).map (b :: ·) :=
  rfl

theorem allSome_eq_some {β : Type} : ∀ {xs : List (Option β)} {bs : List β}, allSome xs = some bs → xs = bs.map some
  | [], bs, h => by
    obtain rfl := Option.some.inj h
    rfl
  | x :: xs, bs, h => by
    obtain ⟨b, rfl, h⟩ := Option.bind_eq_some_iff.mp h
    obtain ⟨bs', hbs, rfl⟩ := Option.map_eq_some_iff.mp h
    rw [List.map_cons, ← allSome_eq_some hbs]

/-- Texts that are one condition each, with `AND` between them. -/
theorem Reads.conj {xs : List (Option (Expr (α × List ν)))} :
    ∀ {cs : List (List (Token α))} {vs : List ν}, ReadsEach arity cs vs (xs.map (Option.map fun e => [e])) →
      Reads arity (joined .and cs) vs (allSome xs) := by
  induction xs with
  | nil =>
    intro cs vs h
    cases h
    exact fun frames top rest => rfl
  | cons x xs ih =>
    intro cs vs h frames top rest
    cases h with
    | @cons ts values _ cs vs _ hone hs =>
      have hts := hone frames top (vs ++ rest)
      cases xs with
      | nil =>
        cases hs
        rw [joined_singleton, List.append_assoc, hts]
        cases x <;> rfl
      | cons x' xs =>
        obtain ⟨ts', cs', rfl⟩ : ∃ ts' cs', cs = ts' :: cs' := by
          cases hs
          exact ⟨_, _, rfl⟩
        rw [joined_cons_cons, List.append_assoc, run_append, hts]
        cases x with
        | none => rfl
        | some e =>
          rw [Option.map_some, Option.map_some, Option.bind_some, run_cons]
          refine (ih hs frames (top.and e) rest).trans ?_
          rw [allSome_cons_some]
          cases hall : allSome (x' :: xs) with
          | none => rfl
          | some es =>
            cases es with
            | nil => cases allSome_eq_some hall
            | cons e' es => rfl

theorem read_of_reads {ts : List (Token α)} {vs : List ν} {o : Option (List (Expr (α × List ν)))}
    (h : Reads arity ts vs o) : read arity ts vs = o.bind fun es => (Frame.empty.andAll es).close := by
  have hrun := h [] .empty []
  rw [List.append_nil] at hrun
  rw [read, hrun]
  cases o with
  | none => rfl
  | some es => cases es <;> rfl

/-! ## What a condition says -/

section Eval

variable {β : Type} {t : β → Bool} {f : Frame β} {e : Expr β}

def Frame.leaves (f : Frame β) : List β :=
  f.disj.elim [] Expr.leaves ++ f.conj.elim [] Expr.leaves

/-- The disjunction so far; nothing is false. -/
def Frame.evalDisj (t : β → Bool) (f : Frame β) : Bool :=
  f.disj.elim false (Expr.eval t)

/-- The conjunction so far; nothing is true. -/
def Frame.evalConj (t : β → Bool) (f : Frame β) : Bool :=
  f.conj.elim true (Expr.eval t)

theorem Frame.eval_close (h : f.close = some e) : e.eval t = (f.evalDisj t || f.evalConj t) := by
  obtain ⟨c, hc, rfl⟩ := Option.map_eq_some_iff.mp h
  unfold Frame.evalDisj Frame.evalConj
  rw [hc]
  cases f.disj with
  | none => simp
  | some d => simp [Expr.eval]

theorem Frame.leaves_close (h : f.close = some e) : e.leaves = f.leaves := by
  obtain ⟨c, hc, rfl⟩ := Option.map_eq_some_iff.mp h
  unfold Frame.leaves
  rw [hc]
  cases f.disj with
  | none => simp
  | some d => simp [Expr.leaves]

theorem Frame.disj_andAll (es : List (Expr β)) : (f.andAll es).disj = f.disj := by
  induction es generalizing f with
  | nil => rfl
  | cons e es ih => exact ih

theorem Frame.evalConj_andAll (es : List (Expr β)) :
    (f.andAll es).evalConj t = (f.evalConj t && es.all (Expr.eval t)) := by
  induction es generalizing f with
  | nil => simp [Frame.andAll]
  | cons e es ih =>
    have hone : (f.and e).evalConj t = (f.evalConj t && e.eval t) := by
      unfold Frame.evalConj Frame.and
      cases f.conj with
      | none => simp
      | some c => simp [Expr.eval]
    rw [List.all_cons, ← Bool.and_assoc, ← hone]
    exact ih

theorem Frame.leaves_and : (f.and e).leaves = f.leaves ++ e.leaves := by
  unfold Frame.leaves Frame.and
  cases f.conj with
  | none => simp
  | some c => simp [Expr.leaves]

theorem Frame.leaves_andAll (es : List (Expr β)) : (f.andAll es).leaves = f.leaves ++ es.flatMap Expr.leaves := by
  induction es generalizing f with
  | nil => simp [Frame.andAll]
  | cons e es ih =>
    rw [List.flatMap_cons, ← List.append_assoc, ← Frame.leaves_and]
    exact ih

theorem Frame.evalDisj_andAll (es : List (Expr β)) : (f.andAll es).evalDisj t = f.evalDisj t := by
  unfold Frame.evalDisj
  rw [Frame.disj_andAll]

/-- A group's texts are all conditions. -/
theorem leaves_grouped {conj : Bool} : ∀ {os : List (Option (List (Expr β)))} {top : Frame β},
    grouped conj os top = some e →
      ∃ ess : List (List (Expr β)), os = ess.map some ∧ e.leaves = top.leaves ++ ess.flatMap (·.flatMap Expr.leaves)
  | [], _, h => by cases h
  | [o], top, h => by
    rw [grouped] at h
    obtain ⟨es, rfl, hes⟩ := Option.bind_eq_some_iff.mp h
    by_cases hempty : es.isEmpty = true
    · rw [if_pos hempty] at hes
      cases hes
    · rw [if_neg hempty] at hes
      have h : (top.andAll es).close = some e := hes
      refine ⟨[es], rfl, ?_⟩
      rw [Frame.leaves_close h, Frame.leaves_andAll]
      simp
  | o :: o' :: os, top, h => by
    rw [grouped] at h
    obtain ⟨es, rfl, hes⟩ := Option.bind_eq_some_iff.mp h
    by_cases hempty : es.isEmpty = true
    · rw [if_pos hempty] at hes
      cases hes
    · rw [if_neg hempty] at hes
      cases conj with
      | true =>
        obtain ⟨ess, hess, hleaves⟩ := leaves_grouped hes
        refine ⟨es :: ess, by rw [hess, List.map_cons], ?_⟩
        rw [hleaves, Frame.leaves_andAll, List.flatMap_cons, List.append_assoc]
      | false =>
        obtain ⟨d, hd, hes⟩ := Option.bind_eq_some_iff.mp hes
        obtain ⟨ess, hess, hleaves⟩ := leaves_grouped hes
        refine ⟨es :: ess, by rw [hess, List.map_cons], ?_⟩
        have htop : Frame.leaves ⟨some d, none⟩ = d.leaves := List.append_nil _
        rw [hleaves, htop, Frame.leaves_close hd, Frame.leaves_andAll, List.flatMap_cons, List.append_assoc]

theorem eval_grouped_and : ∀ {ess : List (List (Expr β))} {top : Frame β},
    grouped true (ess.map some) top = some e →
      e.eval t = (top.evalDisj t || (top.evalConj t && ess.all fun es => es.all (Expr.eval t)))
  | [], _, h => by cases h
  | [es], top, h => by
    simp only [List.map_cons, List.map_nil, grouped, Option.bind_some] at h
    split at h
    · cases h
    · rw [Frame.eval_close h, Frame.evalDisj_andAll, Frame.evalConj_andAll, List.all_cons, List.all_nil, Bool.and_true]
  | es :: es' :: ess, top, h => by
    rw [List.map_cons, grouped] at h
    simp only [Option.bind_some] at h
    split at h
    · cases h
    · rw [eval_grouped_and h, Frame.evalDisj_andAll, Frame.evalConj_andAll, List.all_cons (a := es), Bool.and_assoc]

theorem eval_grouped_or : ∀ {ess : List (List (Expr β))} {top : Frame β},
    grouped false (ess.map some) top = some e → top.conj = none →
      e.eval t = (top.evalDisj t || ess.any fun es => es.all (Expr.eval t))
  | [], _, h, _ => by cases h
  | [es], top, h, htop => by
    simp only [List.map_cons, List.map_nil, grouped, Option.bind_some] at h
    split at h
    · cases h
    · have hconj : top.evalConj t = true := by rw [Frame.evalConj, htop]; rfl
      rw [Frame.eval_close h, Frame.evalDisj_andAll, Frame.evalConj_andAll, hconj, Bool.true_and, List.any_cons,
        List.any_nil, Bool.or_false]
  | es :: es' :: ess, top, h, htop => by
    rw [List.map_cons, grouped] at h
    simp only [Option.bind_some] at h
    split at h
    · cases h
    · obtain ⟨d, hd, h⟩ := Option.bind_eq_some_iff.mp h
      have hconj : top.evalConj t = true := by rw [Frame.evalConj, htop]; rfl
      have hdisj : Frame.evalDisj t ⟨some d, none⟩ = d.eval t := rfl
      rw [eval_grouped_or h rfl, hdisj, Frame.eval_close hd, Frame.evalDisj_andAll, Frame.evalConj_andAll, hconj,
        Bool.true_and, List.any_cons (a := es), Bool.or_assoc]

/-- A condition that stands alone is the conjunction of what was read. -/
theorem eval_close_empty {es : List (Expr β)} (h : (Frame.empty.andAll es).close = some e) :
    e.eval t = es.all (Expr.eval t) ∧ e.leaves = es.flatMap Expr.leaves := by
  rw [Frame.eval_close h, Frame.leaves_close h, Frame.evalDisj_andAll, Frame.evalConj_andAll, Frame.leaves_andAll]
  exact ⟨rfl, rfl⟩

end Eval

/-! ## Every placeholder has its value -/

def Reader.leaves (r : Reader α ν) : List (α × List ν) :=
  r.frames.flatMap Frame.leaves ++ r.top.leaves

theorem leaves_step {r r' : Reader α ν} {tok : Token α} (h : step arity r tok = some r') :
    ∀ l ∈ r'.leaves, l ∈ r.leaves ∨ l.2.length = arity l.1 := by
  unfold Reader.leaves
  cases tok with
  | atom a =>
    simp only [step] at h
    split at h
    · next hcond =>
      rw [Bool.and_eq_true, decide_eq_true_eq] at hcond
      obtain rfl := Option.some.inj h
      intro l hl
      simp only [Frame.leaves_and, Expr.leaves, List.mem_append, List.mem_singleton] at hl ⊢
      rcases hl with hl | hl | rfl
      · exact .inl (.inl hl)
      · exact .inl (.inr hl)
      · exact .inr (List.length_take_of_le hcond.2)
    · cases h
  | and =>
    simp only [step] at h
    split at h
    · cases h
    · obtain rfl := Option.some.inj h
      exact fun l hl => .inl hl
  | or =>
    simp only [step] at h
    split at h
    · cases h
    · obtain ⟨e, he, rfl⟩ := Option.map_eq_some_iff.mp h
      have htop : Frame.leaves ⟨some e, none⟩ = r.top.leaves :=
        (List.append_nil _).trans (Frame.leaves_close he)
      rw [htop]
      exact fun l hl => .inl hl
  | lparen =>
    simp only [step] at h
    split at h
    · obtain rfl := Option.some.inj h
      intro l hl
      have hempty : (Frame.empty : Frame (α × List ν)).leaves = [] := rfl
      simp only [hempty, List.flatMap_cons, List.append_nil, List.mem_append] at hl ⊢
      exact .inl hl.symm
    · cases h
  | rparen =>
    simp only [step] at h
    split at h
    · cases h
    · split at h
      · cases h
      · next f frames hframes =>
        obtain ⟨e, he, rfl⟩ := Option.map_eq_some_iff.mp h
        intro l hl
        rw [hframes]
        simp only [Frame.leaves_and, Frame.leaves_close he, List.flatMap_cons, List.mem_append] at hl ⊢
        tauto

theorem leaves_run : ∀ {ts : List (Token α)} {r r' : Reader α ν}, run arity ts r = some r' →
    ∀ l ∈ r'.leaves, l ∈ r.leaves ∨ l.2.length = arity l.1
  | [], r, r', h, l, hl => by
    obtain rfl := Option.some.inj h
    exact .inl hl
  | tok :: ts, r, r', h, l, hl => by
    rw [run_cons] at h
    obtain ⟨r₁, hstep, hrun⟩ := Option.bind_eq_some_iff.mp h
    rcases leaves_run hrun l hl with hl | hl
    · exact leaves_step hstep l hl
    · exact .inr hl

theorem read_arity {ts : List (Token α)} {vs : List ν} {e : Expr (α × List ν)} (h : read arity ts vs = some e) :
    ∀ l ∈ e.leaves, l.2.length = arity l.1 := by
  intro l hl
  obtain ⟨r, hrun, hread⟩ := Option.bind_eq_some_iff.mp h
  split at hread
  · cases hread
  · rw [Frame.leaves_close hread] at hl
    exact (leaves_run hrun l (List.mem_append_right _ hl)).resolve_left List.not_mem_nil

end Lynox.Precedence
