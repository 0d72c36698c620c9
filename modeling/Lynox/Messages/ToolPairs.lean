import Mathlib.Data.List.Basic
import Lynox.Text.Utf16

/-!
# Tool calls and their results

A model is refused a history in which a `tool_use` block has no `tool_result` in the next message,
or a `tool_result` no `tool_use` in the one before. `sanitizeToolPairs` walks the messages and drops
what has no partner.

The walk looks at what it emitted last, but only where that is an assistant's message with calls in it, and it
never leaves one behind : it takes the user's message with the assistant's. So the messages come out as if each
were looked at with the next one alone (`sanitizeFrom_eq`), and pairing, order and idempotence are facts about
`cleaned`.
-/

namespace Lynox.Messages

open Lynox.Text

universe u

variable {β : Type u}

/-! ## Messages -/

/-- A block of a message : a call of a tool, a result, or anything else. `β` is what a block holds
besides the id, and a whole block of another type. -/
inductive Block (β : Type u)
  | toolUse (id : JsString) (fields : β)
  | toolResult (toolUseId : JsString) (fields : β)
  | other (block : β)
  deriving DecidableEq

inductive Content (β : Type u)
  | text (s : JsString)
  | blocks (bs : List (Block β))
  deriving DecidableEq

inductive Role
  | user
  | assistant
  | other (role : JsString)
  deriving DecidableEq

structure Message (β : Type u) where
  role : Role
  content : Content β
  deriving DecidableEq

namespace Block

def useId : Block β → Option JsString
  | .toolUse id _ => some id
  | _ => none

def resultId : Block β → Option JsString
  | .toolResult id _ => some id
  | _ => none

/-- What the text of a conversation is made of. -/
def isOther : Block β → Bool
  | .other _ => true
  | _ => false

end Block

/-! ## The sanitizer -/

/-- The ids of the calls. The source keeps them in a `Set`, of which only the members and the
emptiness are asked. -/
def collectToolUseIds : Content β → List JsString
  | .text _ => []
  | .blocks bs => bs.filterMap Block.useId

def collectToolResultIds : Content β → List JsString
  | .text _ => []
  | .blocks bs => bs.filterMap Block.resultId

def filterContent (content : Content β) (keepPredicate : Block β → Bool) : Content β :=
  match content with
  | .text s => .text s
  | .blocks bs => .blocks (bs.filter keepPredicate)

/-- The calls among `ids`, and everything that is no call. -/
def keepUses (ids : List JsString) (b : Block β) : Bool :=
  match b with
  | .toolUse id _ => ids.contains id
  | _ => true

/-- The results among `ids`, and everything that is no result. -/
def keepResults (ids : List JsString) (b : Block β) : Bool :=
  match b with
  | .toolResult id _ => ids.contains id
  | _ => true

/-- `{ ...m, content }` with the blocks that `keepPredicate` keeps. -/
def Message.filtered (m : Message β) (keepPredicate : Block β → Bool) : Message β :=
  { m with content := filterContent m.content keepPredicate }

/-- A message is pushed unless it has blocks and none is left. -/
def emit (m : Message β) : List (Message β) :=
  match m.content with
  | .blocks [] => []
  | _ => [m]

/-- What one turn of the loop has pushed, and whether it took the next message with it (`i++`). -/
def turn (out : List (Message β)) (current : Message β) (next : Option (Message β)) :
    List (Message β) × Bool :=
  match current.role, current.content with
  | .assistant, .blocks _ =>
    let useIds := collectToolUseIds current.content
    if useIds = [] then (out ++ [current], false)
    else
      let nextResultIds :=
        match next with
        | some n => if n.role = .user then collectToolResultIds n.content else []
        | none => []
      let matchedIds := useIds.filter fun id => nextResultIds.contains id
      let pushed := out ++ emit (current.filtered (keepUses matchedIds))
      match next with
      | some n =>
        if n.role = .user ∧ nextResultIds ≠ [] then
          (pushed ++ emit (n.filtered (keepResults matchedIds)), true)
        else (pushed, false)
      | none => (pushed, false)
  | .user, .blocks _ =>
    if collectToolResultIds current.content = [] then (out ++ [current], false)
    else
      let prevUseIds :=
        match out.getLast? with
        | some prev => if prev.role = .assistant then collectToolUseIds prev.content else []
        | none => []
      (out ++ emit (current.filtered (keepResults prevUseIds)), false)
  | _, _ => (out ++ [current], false)

/-- The loop, from where it stands. -/
def sanitizeFrom (out : List (Message β)) : List (Message β) → List (Message β)
  | [] => out
  | [current] => (turn out current none).1
  | current :: next :: rest =>
    match turn out current (some next) with
    | (out', true) => sanitizeFrom out' rest
    | (out', false) => sanitizeFrom out' (next :: rest)

def sanitizeToolPairs (messages : List (Message β)) : List (Message β) :=
  sanitizeFrom [] messages

/-! ## What is asked and what is answered -/

namespace Message

/-- The calls an assistant's message makes. -/
def asks (m : Message β) : List JsString :=
  if m.role = .assistant then collectToolUseIds m.content else []

/-- The calls a user's message answers. -/
def answers (m : Message β) : List JsString :=
  if m.role = .user then collectToolResultIds m.content else []

/-- What a message says apart from calls and results, and who says it. -/
def spoken (m : Message β) : List (Role × (JsString ⊕ Block β)) :=
  match m.content with
  | .text s => [(m.role, .inl s)]
  | .blocks bs => (bs.filter Block.isOther).map fun b => (m.role, .inr b)

end Message

/-- Every call of an assistant's message is answered in the next message, which is the user's, and
every result of a user's message answers a call of the message before, which is the assistant's. -/
structure Paired (ms : List (Message β)) : Prop where
  answered : ∀ {i : ℕ} {m : Message β}, ms[i]? = some m → ∀ id ∈ m.asks,
    ∃ u, ms[i + 1]? = some u ∧ id ∈ u.answers
  asked : ∀ {i : ℕ} {u : Message β}, ms[i]? = some u → ∀ id ∈ u.answers,
    ∃ (j : ℕ) (m : Message β), i = j + 1 ∧ ms[j]? = some m ∧ id ∈ m.asks

/-- The same along the list, where `ids` are the calls of the message before. -/
def Follows (ids : List JsString) : List (Message β) → Prop
  | [] => ids = []
  | m :: ms => (∀ id, id ∈ ids ↔ id ∈ m.answers) ∧ Follows m.asks ms

theorem follows_iff_index : ∀ {ids : List JsString} {ms : List (Message β)}, Follows ids ms ↔
    (∀ id ∈ ids, ∃ u, ms[0]? = some u ∧ id ∈ u.answers) ∧
    (∀ {u}, ms[0]? = some u → ∀ id ∈ u.answers, id ∈ ids) ∧
    (∀ {i m}, ms[i]? = some m → ∀ id ∈ m.asks, ∃ u, ms[i + 1]? = some u ∧ id ∈ u.answers) ∧
    (∀ {i u}, ms[i + 1]? = some u → ∀ id ∈ u.answers, ∃ m, ms[i]? = some m ∧ id ∈ m.asks)
  | ids, [] => by
    simp [Follows, List.eq_nil_iff_forall_not_mem]
  | ids, m :: ms => by
    rw [Follows, @follows_iff_index m.asks ms]
    constructor
    · rintro ⟨heq, hnext, hfirst, hask, hanswer⟩
      refine ⟨fun id h => ⟨m, rfl, (heq id).1 h⟩, fun h id hid => ?_, ?_, ?_⟩
      · obtain rfl := Option.some.inj h
        exact (heq id).2 hid
      · intro i a h id hid
        rcases i with _ | i
        · obtain rfl := Option.some.inj h
          simpa using hnext id hid
        · simpa using hask (by simpa using h) id hid
      · intro i u h id hid
        rcases i with _ | i
        · exact ⟨m, rfl, hfirst (by simpa using h) id hid⟩
        · simpa using hanswer (by simpa using h) id hid
    · rintro ⟨hnext, hfirst, hask, hanswer⟩
      refine ⟨fun id => ⟨fun h => ?_, fun h => hfirst rfl id h⟩, fun id h => ?_, fun h id hid => ?_, ?_, ?_⟩
      · obtain ⟨u, hu, hid⟩ := hnext id h
        obtain rfl := Option.some.inj hu
        exact hid
      · simpa using @hask 0 m rfl id h
      · obtain ⟨a, ha, hid⟩ := @hanswer 0 _ (by simpa using h) id hid
        obtain rfl := Option.some.inj ha
        exact hid
      · intro i a h id hid
        simpa using @hask (i + 1) a (by simpa using h) id hid
      · intro i u h id hid
        simpa using @hanswer (i + 1) u (by simpa using h) id hid

theorem paired_iff_follows {ms : List (Message β)} : Paired ms ↔ Follows [] ms := by
  rw [follows_iff_index]
  constructor
  · intro h
    refine ⟨by simp, fun hu id hid => ?_, h.answered, fun hu id hid => ?_⟩
    · obtain ⟨j, _, hj, -, -⟩ := h.asked hu id hid
      omega
    · obtain ⟨j, m, hj, hm, hmid⟩ := h.asked hu id hid
      obtain rfl := Nat.succ.inj hj
      exact ⟨m, hm, hmid⟩
  · rintro ⟨-, hfirst, hask, hanswer⟩
    refine ⟨hask, fun {i u} hu id hid => ?_⟩
    rcases i with _ | i
    · exact absurd (hfirst hu id hid) (by simp)
    · obtain ⟨m, hm, hmid⟩ := hanswer hu id hid
      exact ⟨i, m, rfl, hm, hmid⟩

/-! ## One turn with the next message alone -/

/-- A message that neither asks nor answers. -/
def Message.Quiet (m : Message β) : Prop :=
  m.asks = [] ∧ m.answers = []

/-- What one turn pushes where nothing emitted last is left unanswered, and whether it takes the
next message. -/
def shown (current : Message β) (next : Option (Message β)) : List (Message β) × Bool :=
  if current.asks = [] then
    if current.answers = [] then ([current], false) else (emit (current.filtered (keepResults [])), false)
  else
    match next with
    | some n =>
      let matchedIds := current.asks.filter fun id => n.answers.contains id
      if n.answers = [] then (emit (current.filtered (keepUses [])), false)
      else (emit (current.filtered (keepUses matchedIds)) ++
        emit (n.filtered (keepResults matchedIds)), true)
    | none => (emit (current.filtered (keepUses [])), false)

/-- The last message emitted asks nothing. -/
def Settled (out : List (Message β)) : Prop :=
  ∀ prev, out.getLast? = some prev → prev.asks = []

theorem turn_eq {out : List (Message β)} (h : Settled out) (current : Message β)
    (next : Option (Message β)) :
    turn out current next = (out ++ (shown current next).1, (shown current next).2) := by
  obtain ⟨role, content⟩ := current
  rcases role with _ | _ | role <;> rcases content with s | bs
  · simp [turn, shown, Message.asks, Message.answers, collectToolResultIds]
  · have hprev : (match out.getLast? with
        | some prev => if prev.role = .assistant then collectToolUseIds prev.content else []
        | none => []) = [] := by
      rcases hlast : out.getLast? with _ | prev
      · rfl
      · exact h prev hlast
    simp only [turn, shown, Message.asks, Message.answers, hprev]
    by_cases hresults : collectToolResultIds (.blocks bs) = [] <;> simp [hresults]
  · simp [turn, shown, Message.asks, Message.answers, collectToolUseIds]
  · simp only [turn, shown, Message.asks, Message.answers]
    by_cases huses : collectToolUseIds (.blocks bs) = []
    · simp [huses]
    rcases next with _ | n
    · simp [huses]
    · by_cases hn : n.role = .user
      · by_cases hresults : collectToolResultIds n.content = [] <;> simp [huses, hn, hresults]
      · simp [huses, hn]
  · simp [turn, shown, Message.asks, Message.answers]
  · simp [turn, shown, Message.asks, Message.answers]

/-! ## What is left of a message -/

theorem filtered_role (m : Message β) (keep : Block β → Bool) : (m.filtered keep).role = m.role :=
  rfl

theorem keepUses_eq (ids : List JsString) (b : Block β) :
    keepUses ids b = (b.useId).all fun id => ids.contains id := by
  cases b <;> rfl

theorem keepResults_eq (ids : List JsString) (b : Block β) :
    keepResults ids b = (b.resultId).all fun id => ids.contains id := by
  cases b <;> rfl

/-- Keeping the entries whose id passes, and those without one, keeps the ids that pass. -/
theorem filterMap_filter_all {α γ : Type*} {idOf : α → Option γ} {p : γ → Bool} {keep : α → Bool}
    (h : ∀ a, keep a = (idOf a).all p) (l : List α) :
    (l.filter keep).filterMap idOf = (l.filterMap idOf).filter p := by
  rw [List.filterMap_filter, List.filter_filterMap]
  refine List.filterMap_congr fun a _ => ?_
  rw [h a]
  cases idOf a <;> simp [Option.filter]

theorem asks_keepUses (ids : List JsString) (m : Message β) :
    (m.filtered (keepUses ids)).asks = m.asks.filter fun id => ids.contains id := by
  obtain ⟨role, content⟩ := m
  by_cases hrole : role = .assistant
  · rcases content with s | bs
    · simp [Message.asks, Message.filtered, filterContent, collectToolUseIds, hrole]
    · simpa [Message.asks, Message.filtered, filterContent, collectToolUseIds, hrole]
        using filterMap_filter_all (keepUses_eq ids) bs
  · simp [Message.asks, Message.filtered, hrole]

theorem answers_keepResults (ids : List JsString) (m : Message β) :
    (m.filtered (keepResults ids)).answers = m.answers.filter fun id => ids.contains id := by
  obtain ⟨role, content⟩ := m
  by_cases hrole : role = .user
  · rcases content with s | bs
    · simp [Message.answers, Message.filtered, filterContent, collectToolResultIds, hrole]
    · simpa [Message.answers, Message.filtered, filterContent, collectToolResultIds, hrole]
        using filterMap_filter_all (keepResults_eq ids) bs
  · simp [Message.answers, Message.filtered, hrole]

/-- A message is left as it is where every id in it passes. -/
theorem filtered_self {idOf : Block β → Option JsString} {ids : List JsString} {keep : Block β → Bool}
    (hkeep : ∀ b, keep b = (idOf b).all fun id => ids.contains id) {m : Message β}
    (h : ∀ bs, m.content = .blocks bs → ∀ id ∈ bs.filterMap idOf, id ∈ ids) : m.filtered keep = m := by
  obtain ⟨role, s | bs⟩ := m
  · rfl
  · have hself : bs.filter keep = bs := by
      refine List.filter_eq_self.2 fun b hb => ?_
      rw [hkeep b]
      rcases hid : idOf b with _ | id
      · rfl
      · simpa using h bs rfl id (List.mem_filterMap.2 ⟨b, hb, hid⟩)
    simp [Message.filtered, filterContent, hself]

theorem filtered_keepUses_self {ids : List JsString} {m : Message β} (hrole : m.role = .assistant)
    (h : ∀ id ∈ m.asks, id ∈ ids) : m.filtered (keepUses ids) = m := by
  refine filtered_self (keepUses_eq ids) fun bs hbs id hid => h id ?_
  simpa [Message.asks, hrole, hbs, collectToolUseIds] using hid

theorem filtered_keepResults_self {ids : List JsString} {m : Message β} (hrole : m.role = .user)
    (h : ∀ id ∈ m.answers, id ∈ ids) : m.filtered (keepResults ids) = m := by
  refine filtered_self (keepResults_eq ids) fun bs hbs id hid => h id ?_
  simpa [Message.answers, hrole, hbs, collectToolResultIds] using hid

/-- A filter that keeps whatever is neither call nor result keeps what is said. -/
theorem spoken_filtered {keep : Block β → Bool} (hkeep : ∀ b, Block.isOther b = true → keep b = true)
    (m : Message β) : (m.filtered keep).spoken = m.spoken := by
  obtain ⟨role, s | bs⟩ := m
  · rfl
  · have heq : (bs.filter keep).filter Block.isOther = bs.filter Block.isOther := by
      rw [List.filter_filter]
      refine List.filter_congr fun b _ => ?_
      by_cases hb : Block.isOther b = true
      · simp [hb, hkeep b hb]
      · simp [hb]
    simp [Message.spoken, Message.filtered, filterContent, heq]

theorem keepUses_other (ids : List JsString) (b : Block β) (h : b.isOther = true) :
    keepUses ids b = true := by
  cases b with
  | toolUse => cases h
  | toolResult => cases h
  | other => rfl

theorem keepResults_other (ids : List JsString) (b : Block β) (h : b.isOther = true) :
    keepResults ids b = true := by
  cases b with
  | toolUse => cases h
  | toolResult => cases h
  | other => rfl

/-- What is not pushed has nothing in it. -/
theorem emit_eq (m : Message β) :
    emit m = [m] ∨ emit m = [] ∧ m.Quiet ∧ m.spoken = [] := by
  obtain ⟨role, s | bs⟩ := m
  · exact .inl rfl
  · rcases bs with _ | ⟨b, bs⟩
    · refine .inr ⟨rfl, ⟨?_, ?_⟩, rfl⟩
      · simp [Message.asks, collectToolUseIds]
      · simp [Message.answers, collectToolResultIds]
    · exact .inl rfl

theorem emit_of_asks {m : Message β} (h : m.asks ≠ []) : emit m = [m] :=
  (emit_eq m).resolve_right fun hm => h hm.2.1.1

theorem emit_of_answers {m : Message β} (h : m.answers ≠ []) : emit m = [m] :=
  (emit_eq m).resolve_right fun hm => h hm.2.1.2

theorem emit_spoken (m : Message β) : (emit m).flatMap Message.spoken = m.spoken := by
  rcases emit_eq m with h | ⟨h, -, hspoken⟩
  · simp [h]
  · simp [h, hspoken]

theorem answers_of_assistant {m : Message β} (h : m.role = .assistant) : m.answers = [] := by
  simp [Message.answers, h]

theorem asks_of_user {m : Message β} (h : m.role = .user) : m.asks = [] := by
  simp [Message.asks, h]

theorem role_of_asks {m : Message β} (h : m.asks ≠ []) : m.role = .assistant := by
  by_contra hrole
  exact h (by simp [Message.asks, hrole])

theorem role_of_answers {m : Message β} (h : m.answers ≠ []) : m.role = .user := by
  by_contra hrole
  exact h (by simp [Message.answers, hrole])

/-! ## What a turn shows -/

/-- The calls of a message that the next one answers. -/
def matched (c n : Message β) : List JsString :=
  c.asks.filter fun id => n.answers.contains id

theorem mem_matched {c n : Message β} {id : JsString} : id ∈ matched c n ↔
    id ∈ c.asks ∧ id ∈ n.answers := by
  simp [matched]

/-- A turn leaves its message as it is, or takes out what has no partner, or takes the next message
with it. -/
theorem shown_cases (c : Message β) (next : Option (Message β)) :
    (c.Quiet ∧ shown c next = ([c], false)) ∨
    (∃ keep, (∀ b, Block.isOther b = true → keep b = true) ∧ (c.filtered keep).Quiet ∧
      shown c next = (emit (c.filtered keep), false)) ∨
    (∃ n, next = some n ∧ c.asks ≠ [] ∧ n.answers ≠ [] ∧
      shown c next = (emit (c.filtered (keepUses (matched c n))) ++
        emit (n.filtered (keepResults (matched c n))), true)) := by
  by_cases hasks : c.asks = []
  · by_cases hanswers : c.answers = []
    · exact .inl ⟨⟨hasks, hanswers⟩, by simp [shown, hasks, hanswers]⟩
    · have hrole : c.role = .user := role_of_answers hanswers
      refine .inr (.inl ⟨keepResults [], keepResults_other [], ⟨asks_of_user hrole, ?_⟩, ?_⟩)
      · simp [answers_keepResults]
      · simp [shown, hasks, hanswers]
  · have hrole : c.role = .assistant := role_of_asks hasks
    have hdropped : (c.filtered (keepUses [])).Quiet :=
      ⟨by simp [asks_keepUses], answers_of_assistant hrole⟩
    rcases next with _ | n
    · exact .inr (.inl ⟨keepUses [], keepUses_other [], hdropped, by simp [shown, hasks]⟩)
    · by_cases hn : n.answers = []
      · exact .inr (.inl ⟨keepUses [], keepUses_other [], hdropped, by simp [shown, hasks, hn]⟩)
      · exact .inr (.inr ⟨n, rfl, hasks, hn, by simp [shown, hasks, hn, matched]⟩)

/-- What is kept of a call and its answers : the same ids on both sides. -/
theorem matched_sides {c n : Message β} (hc : c.asks ≠ []) (hn : n.answers ≠ []) :
    (c.filtered (keepUses (matched c n))).answers = [] ∧
      (n.filtered (keepResults (matched c n))).asks = [] ∧
    ∀ id, id ∈ (c.filtered (keepUses (matched c n))).asks ↔
      id ∈ (n.filtered (keepResults (matched c n))).answers := by
  have hassistant := role_of_asks hc
  have huser := role_of_answers hn
  refine ⟨answers_of_assistant (by rwa [filtered_role]), asks_of_user (by rwa [filtered_role]),
    fun id => ?_⟩
  rw [asks_keepUses, answers_keepResults]
  simp only [List.mem_filter, List.contains_iff_mem, mem_matched]
  tauto

/-! ## The loop without what it emitted -/

theorem settled_emit {out : List (Message β)} (h : Settled out) {m : Message β} (hm : m.asks = []) :
    Settled (out ++ emit m) := by
  rcases emit_eq m with he | ⟨he, -, -⟩
  · intro prev hprev
    rw [he, List.getLast?_concat] at hprev
    exact Option.some.inj hprev ▸ hm
  · simpa [he] using h

/-- What is emitted never ends with a call. -/
theorem settled_shown {out : List (Message β)} (h : Settled out) (c : Message β)
    (next : Option (Message β)) :
    Settled (out ++ (shown c next).1) := by
  rcases shown_cases c next with ⟨hquiet, heq⟩ | ⟨keep, -, hquiet, heq⟩ | ⟨n, rfl, hasks, hn, heq⟩
  · intro prev hprev
    rw [heq, List.getLast?_concat] at hprev
    exact Option.some.inj hprev ▸ hquiet.1
  · rw [heq]
    exact settled_emit h hquiet.1
  · obtain ⟨-, hn', hsame⟩ := matched_sides hasks hn
    rw [heq, ← List.append_assoc]
    rcases emit_eq (n.filtered (keepResults (matched c n))) with he | ⟨he, hquiet, -⟩
    · intro prev hprev
      rw [he, List.getLast?_concat] at hprev
      exact Option.some.inj hprev ▸ hn'
    · -- nothing is left of the answers, so nothing was matched and no call is left
      rw [he, List.append_nil]
      refine settled_emit h (List.eq_nil_iff_forall_not_mem.2 fun id hid => ?_)
      simpa [hquiet.2] using (hsame id).1 hid

/-- Each message by itself, or with the next one. -/
def cleaned : List (Message β) → List (Message β)
  | [] => []
  | [c] => (shown c none).1
  | c :: n :: rest =>
    match shown c (some n) with
    | (l, true) => l ++ cleaned rest
    | (l, false) => l ++ cleaned (n :: rest)

theorem sanitizeFrom_eq {out : List (Message β)} (ms : List (Message β)) (h : Settled out) :
    sanitizeFrom out ms = out ++ cleaned ms := by
  induction ms using cleaned.induct generalizing out with
  | case1 => simp [sanitizeFrom, cleaned]
  | case2 c => simp [sanitizeFrom, cleaned, turn_eq h]
  | case3 c n rest l heq ih =>
    have hsettled : Settled (out ++ l) := by simpa [heq] using settled_shown h c (some n)
    simp only [sanitizeFrom, cleaned, turn_eq h, heq]
    rw [ih hsettled, List.append_assoc]
  | case4 c n rest l heq ih =>
    have hsettled : Settled (out ++ l) := by simpa [heq] using settled_shown h c (some n)
    simp only [sanitizeFrom, cleaned, turn_eq h, heq]
    rw [ih hsettled, List.append_assoc]

theorem sanitizeToolPairs_eq (ms : List (Message β)) : sanitizeToolPairs ms = cleaned ms := by
  have hsettled : Settled ([] : List (Message β)) := by simp [Settled]
  simpa [sanitizeToolPairs] using sanitizeFrom_eq ms hsettled

/-! ## The loop's results -/

theorem follows_emit {ids : List JsString} {m : Message β} {L : List (Message β)}
    (h : ∀ id, id ∈ ids ↔ id ∈ m.answers) (hL : Follows m.asks L) : Follows ids (emit m ++ L) := by
  rcases emit_eq m with he | ⟨he, hquiet, -⟩
  · rw [he]
    exact ⟨h, hL⟩
  · have hids : ids = [] := List.eq_nil_iff_forall_not_mem.2 fun id hid => by
      simpa [hquiet.2] using (h id).1 hid
    rw [he, hids]
    simpa [hquiet.1] using hL

theorem follows_cleaned (ms : List (Message β)) : Follows [] (cleaned ms) := by
  -- one turn, whatever follows it
  have hturn : ∀ (c : Message β) (next : Option (Message β)) {L : List (Message β)}, Follows [] L →
      Follows [] ((shown c next).1 ++ L) := by
    intro c next L hL
    rcases shown_cases c next with ⟨hquiet, heq⟩ | ⟨keep, -, hquiet, heq⟩ | ⟨n, rfl, hasks, hn, heq⟩
    · rw [heq]
      exact ⟨by simp [hquiet.2], by simpa [hquiet.1] using hL⟩
    · rw [heq]
      exact follows_emit (by simp [hquiet.2]) (by simpa [hquiet.1] using hL)
    · obtain ⟨hc', hn', hsame⟩ := matched_sides hasks hn
      rw [heq, List.append_assoc]
      exact follows_emit (by simp [hc']) (follows_emit hsame (by simpa [hn'] using hL))
  induction ms using cleaned.induct with
  | case1 => rfl
  | case2 c => simpa [cleaned] using hturn c none (L := []) rfl
  | case3 c n rest l heq ih => simpa [cleaned, heq] using hturn c (some n) ih
  | case4 c n rest l heq ih => simpa [cleaned, heq] using hturn c (some n) ih

theorem spoken_cleaned (ms : List (Message β)) :
    (cleaned ms).flatMap Message.spoken = ms.flatMap Message.spoken := by
  have halone : ∀ (c : Message β) (next : Option (Message β)), (shown c next).2 = false →
      (shown c next).1.flatMap Message.spoken = c.spoken := by
    intro c next h
    rcases shown_cases c next with ⟨-, heq⟩ | ⟨keep, hkeep, -, heq⟩ | ⟨n, -, -, -, heq⟩
    · simp [heq]
    · rw [heq, emit_spoken, spoken_filtered hkeep]
    · simp [heq] at h
  induction ms using cleaned.induct with
  | case1 => rfl
  | case2 c =>
    rcases shown_cases c none with ⟨-, heq⟩ | ⟨keep, -, -, heq⟩ | ⟨n, hn, -⟩
    · simp [cleaned, heq]
    · simpa [cleaned] using halone c none (by simp [heq])
    · cases hn
  | case3 c n rest l heq ih =>
    rcases shown_cases c (some n) with ⟨-, hone⟩ | ⟨keep, -, -, hone⟩ | ⟨n', hn, -, -, hpair⟩
    · simp [hone] at heq
    · simp [hone] at heq
    · obtain rfl := Option.some.inj hn
      have hl : l.flatMap Message.spoken = c.spoken ++ n.spoken := by
        obtain rfl : _ = l := (Prod.mk.inj (hpair.symm.trans heq)).1
        rw [List.flatMap_append, emit_spoken, emit_spoken, spoken_filtered (keepUses_other _),
          spoken_filtered (keepResults_other _)]
      simp [cleaned, heq, hl, ih]
  | case4 c n rest l heq ih =>
    have hl : l.flatMap Message.spoken = c.spoken := by simpa [heq] using halone c (some n) (by simp [heq])
    simp [cleaned, heq, hl, ih]

/-- What comes after makes no difference to a message whose next one answers nothing. -/
theorem shown_unanswered {c n : Message β} (h : n.answers = []) : shown c (some n) = shown c none := by
  simp [shown, h]

theorem shown_last (c : Message β) : (shown c none).2 = false := by
  rcases shown_cases c none with ⟨-, heq⟩ | ⟨keep, -, -, heq⟩ | ⟨n, hn, -⟩
  · rw [heq]
  · rw [heq]
  · cases hn

theorem cleaned_cons {c : Message β} {rest : List (Message β)}
    (h : ∀ m, rest.head? = some m → m.answers = []) :
    cleaned (c :: rest) = (shown c none).1 ++ cleaned rest := by
  rcases rest with _ | ⟨n, rest⟩
  · simp [cleaned]
  · have hn : shown c (some n) = ((shown c none).1, false) := by
      rw [shown_unanswered (h n rfl), ← shown_last c]
    simp [cleaned, hn]

/-- A list is cleaned in two parts where the second does not start with answers. -/
theorem cleaned_append {rest : List (Message β)} (h : ∀ m, rest.head? = some m → m.answers = [])
    (pre : List (Message β)) : cleaned (pre ++ rest) = cleaned pre ++ cleaned rest := by
  induction pre using cleaned.induct with
  | case1 => rfl
  | case2 c => simpa [cleaned] using cleaned_cons h
  | case3 c n pre l heq ih => simp [cleaned, heq, ih]
  | case4 c n pre l heq ih =>
    have happend : cleaned (c :: n :: (pre ++ rest)) = l ++ cleaned (n :: pre ++ rest) := by
      simp [cleaned, heq]
    simp only [List.cons_append] at ih ⊢
    rw [happend, List.cons_append, ih]
    simp [cleaned, heq]

/-- A paired stretch is left as it is. -/
theorem cleaned_follows (post : List (Message β)) :
    ∀ {seg : List (Message β)}, Follows [] seg → cleaned (seg ++ post) = seg ++ cleaned post
  | [], _ => rfl
  | [c], h => by
    have hquiet : c.Quiet := ⟨h.2,
        List.eq_nil_iff_forall_not_mem.2 fun id hid => by simpa using (h.1 id).2 hid⟩
    have hshown : ∀ next, shown c next = ([c], false) := fun next => by simp [shown, hquiet.1, hquiet.2]
    rcases post with _ | ⟨p, post⟩
    · simp [cleaned, hshown]
    · simp [cleaned, hshown]
  | c :: n :: seg, h => by
    obtain ⟨hc, hsame, hseg⟩ := h
    have hanswers : c.answers = [] :=
      List.eq_nil_iff_forall_not_mem.2 fun id hid => by simpa using (hc id).2 hid
    by_cases hasks : c.asks = []
    · have hshown : shown c (some n) = ([c], false) := by simp [shown, hasks, hanswers]
      have ih : cleaned (n :: seg ++ post) = n :: seg ++ cleaned post :=
        cleaned_follows post ⟨by simpa [hasks] using hsame, hseg⟩
      simpa [cleaned, hshown] using ih
    · obtain ⟨id, hid⟩ := List.exists_mem_of_ne_nil _ hasks
      have hn : n.answers ≠ [] := List.ne_nil_of_mem ((hsame id).1 hid)
      have huser : n.role = .user := role_of_answers hn
      have hc' : c.filtered (keepUses (matched c n)) = c :=
        filtered_keepUses_self (role_of_asks hasks) fun id hid => mem_matched.2 ⟨hid, (hsame id).1 hid⟩
      have hn' : n.filtered (keepResults (matched c n)) = n :=
        filtered_keepResults_self huser fun id hid => mem_matched.2 ⟨(hsame id).2 hid, hid⟩
      have hshown : shown c (some n) = ([c, n], true) := by
        rcases shown_cases c (some n) with ⟨hquiet, -⟩ | ⟨keep, -, hquiet, heq⟩ | ⟨n', hn'', -, -, heq⟩
        · exact absurd hquiet.1 hasks
        · exfalso
          simp [shown, hasks, hn] at heq
        · obtain rfl := Option.some.inj hn''
          rw [heq, hc', hn', emit_of_asks hasks, emit_of_answers hn]
          rfl
      have ih : cleaned (seg ++ post) = seg ++ cleaned post :=
        cleaned_follows post (by simpa [asks_of_user huser] using hseg)
      simp [cleaned, hshown, ih]

/-- Every message that comes out is one that went in, with some blocks left out. -/
theorem cleaned_from {ms : List (Message β)} {m : Message β} (h : m ∈ cleaned ms) :
    ∃ m₀ ∈ ms, ∃ keep, m = m₀.filtered keep := by
  have hall : ∀ c : Message β, c = c.filtered fun _ => true := by
    rintro ⟨role, s | bs⟩ <;> simp [Message.filtered, filterContent]
  have hemit : ∀ m' : Message β, ∀ m ∈ emit m', m = m' := by
    intro m' m hm
    rcases emit_eq m' with he | ⟨he, -, -⟩
    · simpa [he] using hm
    · simp [he] at hm
  have hturn : ∀ (c : Message β) (next : Option (Message β)), ∀ m ∈ (shown c next).1,
      (∃ keep, m = c.filtered keep) ∨
        (shown c next).2 = true ∧ ∃ n, next = some n ∧ ∃ keep, m = n.filtered keep := by
    intro c next m hm
    rcases shown_cases c next with ⟨-, heq⟩ | ⟨keep, -, -, heq⟩ | ⟨n, rfl, -, -, heq⟩ <;> rw [heq] at hm
    · exact .inl ⟨_, (List.mem_singleton.1 hm).trans (hall c)⟩
    · exact .inl ⟨keep, hemit _ m hm⟩
    · rcases List.mem_append.1 hm with hm | hm
      · exact .inl ⟨_, hemit _ m hm⟩
      · exact .inr ⟨by rw [heq], n, rfl, _, hemit _ m hm⟩
  induction ms using cleaned.induct with
  | case1 => simp [cleaned] at h
  | case2 c =>
    rcases hturn c none m (by simpa [cleaned] using h) with ⟨keep, rfl⟩ | ⟨-, n, hn, -⟩
    · exact ⟨c, by simp, keep, rfl⟩
    · cases hn
  | case3 c n rest l heq ih =>
    rw [cleaned, heq] at h
    rcases List.mem_append.1 h with h | h
    · rcases hturn c (some n) m (by rwa [heq]) with ⟨keep, rfl⟩ | ⟨-, n', hn, keep, rfl⟩
      · exact ⟨c, by simp, keep, rfl⟩
      · exact ⟨n, by simp, keep, by rw [Option.some.inj hn]⟩
    · obtain ⟨m₀, hm₀, hkeep⟩ := ih h
      exact ⟨m₀, by simp [hm₀], hkeep⟩
  | case4 c n rest l heq ih =>
    rw [cleaned, heq] at h
    rcases List.mem_append.1 h with h | h
    · rcases hturn c (some n) m (by rwa [heq]) with ⟨keep, rfl⟩ | ⟨htook, -⟩
      · exact ⟨c, by simp, keep, rfl⟩
      · simp [heq] at htook
    · obtain ⟨m₀, hm₀, hkeep⟩ := ih h
      exact ⟨m₀, List.mem_cons_of_mem _ hm₀, hkeep⟩

/-- No message holds two results of one call, and only the user's messages hold results. -/
def ResultsOnce (ms : List (Message β)) : Prop :=
  ∀ m ∈ ms, (collectToolResultIds m.content).Nodup ∧ (m.role ≠ .user → collectToolResultIds m.content = [])

theorem resultsOnce_cleaned {ms : List (Message β)} (h : ResultsOnce ms) : ResultsOnce (cleaned ms) := by
  intro m hm
  obtain ⟨m₀, hm₀, keep, rfl⟩ := cleaned_from hm
  obtain ⟨hnodup, huser⟩ := h m₀ hm₀
  have hsub : (collectToolResultIds (m₀.filtered keep).content).Sublist
      (collectToolResultIds m₀.content) := by
    obtain ⟨role, s | bs⟩ := m₀
    · exact List.Sublist.refl _
    · exact List.filter_sublist.filterMap _
  refine ⟨hnodup.sublist hsub, fun hrole => ?_⟩
  rw [huser hrole] at hsub
  exact List.sublist_nil.1 hsub

/-- Each call has exactly one result in the next message, and every result, whoever sent it, answers
a call of the message before. -/
structure PairedOnce (ms : List (Message β)) : Prop where
  answered : ∀ {i : ℕ} {m : Message β}, ms[i]? = some m → m.role = .assistant →
    ∀ id ∈ collectToolUseIds m.content,
      ∃ u, ms[i + 1]? = some u ∧ u.role = .user ∧ (collectToolResultIds u.content).count id = 1
  asked : ∀ {i : ℕ} {u : Message β}, ms[i]? = some u → ∀ id ∈ collectToolResultIds u.content,
    ∃ (j : ℕ) (m : Message β), i = j + 1 ∧ ms[j]? = some m ∧ m.role = .assistant ∧
      id ∈ collectToolUseIds m.content

theorem pairedOnce_of_paired {ms : List (Message β)} (h : Paired ms) (hone : ResultsOnce ms) :
    PairedOnce ms := by
  refine ⟨fun hm hrole id hid => ?_, fun {i u} hu id hid => ?_⟩
  · obtain ⟨u, hu, hanswer⟩ := h.answered hm id (by simpa [Message.asks, hrole] using hid)
    have huser : u.role = .user := role_of_answers (List.ne_nil_of_mem hanswer)
    refine ⟨u, hu, huser, List.count_eq_one_of_mem (hone u (List.mem_of_getElem? hu)).1 ?_⟩
    simpa [Message.answers, huser] using hanswer
  · have huser : u.role = .user := by
      by_contra hrole
      rw [(hone u (List.mem_of_getElem? hu)).2 hrole] at hid
      simp at hid
    obtain ⟨j, m, hj, hm, hmid⟩ := h.asked hu id (by simpa [Message.answers, huser] using hid)
    have hassistant : m.role = .assistant := role_of_asks (List.ne_nil_of_mem hmid)
    exact ⟨j, m, hj, hm, hassistant, by simpa [Message.asks, hassistant] using hmid⟩

/-- What comes out is paired, says what was said, stays as it is when it is sanitized again, and a
paired stretch of what went in is left as it is. Where no message holds a result twice and only the
user's hold results, each call has its one result. -/
theorem sanitizeToolPairs_pairs (ms : List (Message β)) :
    Paired (sanitizeToolPairs ms) ∧
    (sanitizeToolPairs ms).flatMap Message.spoken = ms.flatMap Message.spoken ∧
    sanitizeToolPairs (sanitizeToolPairs ms) = sanitizeToolPairs ms ∧
    (∀ pre seg post, ms = pre ++ seg ++ post → seg ≠ [] → Paired seg →
      sanitizeToolPairs ms = sanitizeToolPairs pre ++ seg ++ sanitizeToolPairs post) ∧
    (ResultsOnce ms → PairedOnce (sanitizeToolPairs ms)) := by
  simp only [sanitizeToolPairs_eq]
  have hpaired : Paired (cleaned ms) := paired_iff_follows.2 (follows_cleaned ms)
  refine ⟨hpaired, spoken_cleaned ms, ?_, ?_, fun h => pairedOnce_of_paired hpaired (resultsOnce_cleaned h)⟩
  · simpa [cleaned] using cleaned_follows [] (follows_cleaned ms)
  · rintro pre seg post rfl hne hseg
    rw [List.append_assoc, cleaned_append ?_ pre, cleaned_follows post (paired_iff_follows.1 hseg),
      List.append_assoc]
    rcases seg with _ | ⟨m, seg⟩
    · exact absurd rfl hne
    · intro m' hm'
      obtain rfl : m = m' := Option.some.inj hm'
      refine List.eq_nil_iff_forall_not_mem.2 fun id hid => ?_
      obtain ⟨j, _, hj, -⟩ := hseg.asked (i := 0) rfl id hid
      omega

/-- A paired stretch between a stray answer and an unanswered call. -/
theorem pair_between_strays :
    sanitizeToolPairs [⟨.user, .blocks [.toolResult [9] (), .other ()]⟩,
      ⟨.assistant, .blocks [.toolUse [1] ()]⟩,
        ⟨.user, .blocks [.toolResult [1] ()]⟩, ⟨.assistant, .blocks [.toolUse [2] ()]⟩] =
      [⟨.user, .blocks [.other ()]⟩, ⟨.assistant, .blocks [.toolUse [1] ()]⟩,
        ⟨.user, .blocks [.toolResult [1] ()]⟩] ∧
    PairedOnce (sanitizeToolPairs [⟨.user, .blocks [.toolResult [9] (), .other ()]⟩,
      ⟨.assistant, .blocks [.toolUse [1] ()]⟩, ⟨.user, .blocks [.toolResult [1] ()]⟩,
      ⟨.assistant, .blocks [.toolUse [2] ()]⟩]) := by
  obtain ⟨-, -, -, hstretch, honce⟩ := sanitizeToolPairs_pairs
    [⟨.user, .blocks [.toolResult [9] (), .other ()]⟩, ⟨.assistant, .blocks [.toolUse [1] ()]⟩,
      ⟨.user, .blocks [.toolResult [1] ()]⟩, ⟨.assistant, .blocks [.toolUse [2] ()]⟩]
  refine ⟨?_, honce (by unfold ResultsOnce; decide)⟩
  refine (hstretch [⟨.user, .blocks [.toolResult [9] (), .other ()]⟩]
    [⟨.assistant, .blocks [.toolUse [1] ()]⟩, ⟨.user, .blocks [.toolResult [1] ()]⟩]
    [⟨.assistant, .blocks [.toolUse [2] ()]⟩] rfl (by simp) (paired_iff_follows.2 ?_)).trans (by decide)
  simp [Follows, Message.asks, Message.answers, collectToolUseIds, collectToolResultIds, Block.useId,
    Block.resultId]

/-- A call answered twice keeps both answers, and a result in the assistant's own message stays. -/
theorem result_twice_stays :
    ¬ PairedOnce (sanitizeToolPairs
      [⟨.assistant, .blocks [.toolUse [1] ()]⟩,
        ⟨.user, .blocks [.toolResult [1] (), .toolResult [1] ()]⟩]) ∧
    ¬ PairedOnce (sanitizeToolPairs [⟨.assistant, .blocks [.toolResult [1] ()]⟩]) := by
  constructor
  · intro h
    obtain ⟨u, hu, -, hcount⟩ := h.answered (i := 0)
        (m := ⟨.assistant, .blocks [.toolUse [1] ()]⟩) rfl rfl [1]
      (by decide)
    obtain rfl := Option.some.inj hu
    revert hcount
    decide
  · intro h
    obtain ⟨j, _, hj, -⟩ := h.asked (i := 0) (u := ⟨.assistant, .blocks [.toolResult [1] ()]⟩) rfl
        [1] (by decide)
    omega

end Lynox.Messages
