import Lynox.Data.Throws
import Lynox.Text.JsonText

/-!
# A history on the OpenAI wire

`translateMessages` writes a history of messages and blocks as chat messages. The results of a user's
message come first, as messages of their own, and the user's texts and images after them.

Each message is translated by itself, so a history in which each call is answered by the next message
comes out as turns : a message with calls, its results, and then what is neither (`translateMessages_turns`).
-/

namespace Lynox.Messages.Adapter

open Lynox.Text Lynox.Throws

/-! ## The history -/

inductive BlockType
  | text
  | image
  | toolUse
  | toolResult
  | other (type : JsString)
  deriving DecidableEq

structure ImageSource where
  mediaType : Option JsString
  data : Option JsString

/-- A block of a result. -/
structure ResultBlock where
  type : BlockType
  text : Option JsString

inductive ResultContent
  | text (s : JsString)
  | blocks (bs : List ResultBlock)
  | other

/-- A block, with the fields that either branch reads. -/
structure Block where
  type : BlockType
  text : Option JsString
  toolUseId : Option JsString
  content : ResultContent
  isError : Bool
  source : Option ImageSource
  id : Option JsString
  name : Option JsString
  input : Option JTree

inductive Content
  | text (s : JsString)
  | blocks (bs : List Block)
  | other

inductive Role
  | user
  | assistant
  | other (role : JsString)
  deriving DecidableEq

structure Message where
  role : Role
  content : Content

inductive System
  | text (s : JsString)
  | blocks (bs : List ResultBlock)
  | other

structure Options where
  visionSupport : Option Bool
  modelLabel : Option JsString

/-! ## The wire -/

inductive OpenAIContentPart
  | text (text : JsString)
  | imageUrl (url : JsString)

inductive OpenAIContent
  | text (s : JsString)
  | parts (ps : List OpenAIContentPart)

structure ToolCall where
  id : JsString
  name : JsString
  arguments : JsString

inductive OpenAIRole
  | system
  | user
  | assistant
  | tool
  deriving DecidableEq

structure OpenAIMessage where
  role : OpenAIRole
  content : Option OpenAIContent
  toolCalls : Option (List ToolCall)
  toolCallId : Option JsString

def OpenAIMessage.plain (role : OpenAIRole) (content : Option OpenAIContent) : OpenAIMessage :=
  ⟨role, content, none, none⟩

/-! ## The translation -/

/-- `parts.join(separator)` -/
def join (separator : String) (parts : List JsString) : JsString :=
  (utf16 separator).intercalate parts

/-- The text of the system prompt. A text that is empty is no message. -/
def translateSystem (system : System) : List OpenAIMessage :=
  let text :=
    match system with
    | .text s => s
    | .blocks bs => join "\n\n" ((bs.filter fun b => b.type = .text).filterMap ResultBlock.text)
    | .other => []
  if text = [] then [] else [.plain .system (some (.text text))]

def ResultContent.translated : ResultContent → JsString
  | .text s => s
  | .blocks bs => join "\n" ((bs.filter fun b => b.type = .text).map fun b => b.text.getD [])
  | .other => []

/-- The wire has no field for an error, so the text says so. -/
def toolMessage (tr : Block) : OpenAIMessage :=
  let content := tr.content.translated
  let content :=
    if tr.isError then
      if content = [] then utf16 "[Tool error]" else utf16 "[Tool error] " ++ content
    else content
  ⟨.tool, some (.text content), none, some (tr.toolUseId.getD [])⟩

def imageUrl (b : Block) : JsString :=
  utf16 "data:" ++ (b.source.bind ImageSource.mediaType).getD (utf16 "image/png") ++ utf16 ";base64," ++
    (b.source.bind ImageSource.data).getD []

def imageRefused (opts : Options) : JsString :=
  let label := opts.modelLabel.getD []
  utf16 "The active model" ++ (if label = [] then [] else utf16 " (" ++ label ++ utf16 ")") ++
    utf16 " cannot process images. " ++
    utf16 "Remove the image, or switch to a vision-capable provider (e.g. Anthropic)."

/-- The user's own texts and images. -/
def contentParts (opts : Options) : List Block → Except JsString (List OpenAIContentPart)
  | [] => .ok []
  | b :: bs =>
    match b.type with
    | .text => do
      let parts ← contentParts opts bs
      return .text (b.text.getD []) :: parts
    | .image =>
      if opts.visionSupport = some false then .error (imageRefused opts)
      else do
        let parts ← contentParts opts bs
        return .imageUrl (imageUrl b) :: parts
    | _ => contentParts opts bs

def OpenAIContentPart.ownText : OpenAIContentPart → Option JsString
  | .text s => some s
  | .imageUrl _ => none

/-- Texts alone are one text, and an empty one is no message. -/
def userMessage (parts : List OpenAIContentPart) : List OpenAIMessage :=
  if parts.all fun p => p.ownText.isSome then
    let content := join "\n" (parts.filterMap OpenAIContentPart.ownText)
    if content = [] then [] else [.plain .user (some (.text content))]
  else [.plain .user (some (.parts parts))]

/-- `b.input ?? {}` -/
def Block.arguments (b : Block) : JTree :=
  match b.input with
  | none | some .null => .object []
  | some input => input

def toolCall (b : Block) : ToolCall :=
  ⟨b.id.getD [], b.name.getD [], b.arguments.write compact 0⟩

def assistantMessage (blocks : List Block) : OpenAIMessage :=
  let text := join "\n" ((blocks.filter fun b => b.type = .text).map fun b => b.text.getD [])
  let toolCalls := (blocks.filter fun b => b.type = .toolUse).map toolCall
  ⟨.assistant, if text = [] then none else some (.text text),
    if toolCalls = [] then none else some toolCalls, none⟩

/-- What one message pushes. -/
def translateMessage (opts : Options) (m : Message) : Except JsString (List OpenAIMessage) :=
  match m.role, m.content with
  | .user, .text s => .ok [.plain .user (some (.text s))]
  | .user, .blocks blocks => do
    let parts ← contentParts opts blocks
    return (blocks.filter fun b => b.type = .toolResult).map toolMessage ++ userMessage parts
  | .assistant, .text s => .ok [.plain .assistant (some (.text s))]
  | .assistant, .blocks blocks => .ok [assistantMessage blocks]
  | _, _ => .ok []

/-- The loop, from where it stands. -/
def translateFrom (opts : Options) (result : List OpenAIMessage) :
    List Message → Except JsString (List OpenAIMessage)
  | [] => .ok result
  | m :: messages => do
    let pushed ← translateMessage opts m
    translateFrom opts (result ++ pushed) messages

def translateMessages (system : System) (messages : List Message) (opts : Options) :
    Except JsString (List OpenAIMessage) :=
  translateFrom opts (translateSystem system) messages

/-! ## What a history is to become -/

def Content.list : Content → List Block
  | .blocks bs => bs
  | _ => []

/-- The calls of an assistant's message. -/
def Message.toolUses (m : Message) : List Block :=
  if m.role = .assistant then m.content.list.filter fun b => b.type = .toolUse else []

/-- The results in a user's message. -/
def Message.toolResults (m : Message) : List Block :=
  if m.role = .user then m.content.list.filter fun b => b.type = .toolResult else []

def Block.answers (result use : Block) : Bool :=
  result.toolUseId.getD [] = use.id.getD []

/-- One result for each call, and no other. -/
def Answers (uses results : List Block) : Prop :=
  (∀ use ∈ uses, (results.filter fun result => result.answers use).length = 1) ∧
    ∀ result ∈ results, ∃ use ∈ uses, result.answers use

/-- The messages behind one with these calls. -/
def PairedAfter (uses : List Block) : List Message → Prop
  | [] => uses = []
  | m :: messages => Answers uses m.toolResults ∧ PairedAfter m.toolUses messages

/-- Each call is answered by one result in the next message, and there are no other results. -/
def Paired (messages : List Message) : Prop :=
  PairedAfter [] messages

/-- A message with calls comes with one `tool` message for each of their ids, and there are no
others. -/
inductive Turns : List OpenAIMessage → Prop
  | nil : Turns []
  | plain {m : OpenAIMessage} {out : List OpenAIMessage} (hrole : m.role ≠ .tool)
      (hcalls : m.toolCalls = none) (hout : Turns out) : Turns (m :: out)
  | turn {m : OpenAIMessage} {calls : List ToolCall} {tools out : List OpenAIMessage}
      (hrole : m.role = .assistant) (hcalls : m.toolCalls = some calls)
      (htools : ∀ t ∈ tools, t.role = .tool ∧ ∃ call ∈ calls, t.toolCallId = some call.id)
      (hone : ∀ call ∈ calls, (tools.filter fun t => t.toolCallId = some call.id).length = 1)
      (hout : Turns out) : Turns (m :: (tools ++ out))

/-- A text or an image. -/
def Block.part (b : Block) : Option OpenAIContentPart :=
  match b.type with
  | .text => some (.text (b.text.getD []))
  | .image => some (.imageUrl (imageUrl b))
  | _ => none

def OpenAIContentPart.full : OpenAIContentPart → Bool
  | .text s => s ≠ []
  | .imageUrl _ => true

/-- The texts that are not empty and the images of a user's message. -/
def Message.ownParts (m : Message) : List OpenAIContentPart :=
  match m.content with
  | .text s => [OpenAIContentPart.text s].filter OpenAIContentPart.full
  | .blocks bs => (bs.filterMap Block.part).filter OpenAIContentPart.full
  | .other => []

/-- Texts stand in a text, one behind the other. -/
def StandIn : List JsString → JsString → Prop
  | [], _ => True
  | t :: ts, s => ∃ before after, s = before ++ t ++ after ∧ StandIn ts after

/-- Parts stand in a content, in their order. -/
def OpenAIContent.Shows (parts : List OpenAIContentPart) : OpenAIContent → Prop
  | .text s => ∃ texts : List JsString, parts = texts.map .text ∧ StandIn texts s
  | .parts ps => parts.Sublist ps

/-- A call with the id, the name and the input of a block. A null input is none, and its arguments are
those of the empty object. -/
def ToolCall.Of (use : Block) (call : ToolCall) : Prop :=
  call.id = use.id.getD [] ∧ call.name = use.name.getD [] ∧ parseTree call.arguments = some use.arguments

/-- What became of a message : a user's results, with the user's own parts behind them, or the calls of
an assistant. -/
def Became (m : Message) (group : List OpenAIMessage) : Prop :=
  match m.role with
  | .user => ∃ results own, group = results ++ own ∧
      List.Forall₂ (fun tr t => t.role = .tool ∧ t.toolCallId = some (tr.toolUseId.getD []))
        m.toolResults results ∧
      ((m.ownParts = [] ∧ ∀ t ∈ own, t.role = .user) ∨
        ∃ content, own = [.plain .user (some content)] ∧ content.Shows m.ownParts)
  | .assistant => List.Forall₂ ToolCall.Of m.toolUses (group.flatMap fun t => t.toolCalls.getD [])
  | .other _ => group = []

/-! ## One message -/

section Message

variable {opts : Options} {m : Message} {group : List OpenAIMessage} {parts : List OpenAIContentPart}
  {texts : List JsString} {s : JsString}

theorem contentParts_eq : ∀ {bs : List Block} {parts : List OpenAIContentPart},
    contentParts opts bs = .ok parts → parts = bs.filterMap Block.part
  | [], parts, h => (Except.ok.inj h).symm
  | b :: bs, parts, h => by
    rw [contentParts] at h
    rw [List.filterMap_cons, Block.part]
    cases htype : b.type with
    | text =>
      rw [htype] at h
      obtain ⟨rest, hrest, h⟩ := ok_of_bind h
      rw [← contentParts_eq hrest, ← Except.ok.inj h]
    | image =>
      rw [htype] at h
      dsimp only at h
      split at h
      · exact nomatch h
      · obtain ⟨rest, hrest, h⟩ := ok_of_bind h
        rw [← contentParts_eq hrest, ← Except.ok.inj h]
    | toolUse | toolResult | other =>
      rw [htype] at h
      exact contentParts_eq h

theorem StandIn.append (x : JsString) (h : StandIn texts s) : StandIn texts (x ++ s) := by
  cases texts with
  | nil => trivial
  | cons t ts =>
    obtain ⟨before, after, rfl, hafter⟩ := h
    exact ⟨x ++ before, after, by simp only [List.append_assoc], hafter⟩

/-- A joined text shows the texts that are not empty. -/
theorem standIn_join (separator : String) : ∀ texts : List JsString,
    StandIn (texts.filter fun t => t ≠ []) (join separator texts)
  | [] => trivial
  | [t] => by
    by_cases ht : t = []
    · rw [ht]
      trivial
    · rw [List.filter_cons_of_pos (by simpa using ht)]
      exact ⟨[], [], by simp [join], trivial⟩
  | t :: t' :: texts => by
    have ih := standIn_join separator (t' :: texts)
    have hjoin : join separator (t :: t' :: texts) = t ++ (utf16 separator ++ join separator (t' :: texts)) := by
      rw [join, List.intercalate_cons_of_ne_nil (List.cons_ne_nil _ _), List.append_assoc]
      rfl
    rw [hjoin]
    by_cases ht : t = []
    · rw [ht, List.filter_cons_of_neg (by simp)]
      exact (ih.append _).append _
    · rw [List.filter_cons_of_pos (by simpa using ht)]
      exact ⟨[], _, rfl, ih.append _⟩

theorem parts_of_texts : ∀ {parts : List OpenAIContentPart},
    (parts.all fun p => p.ownText.isSome) = true →
      parts.filter OpenAIContentPart.full =
        ((parts.filterMap OpenAIContentPart.ownText).filter fun t => t ≠ []).map .text
  | [], _ => rfl
  | .text s :: parts, h => by
    rw [List.all_cons, Bool.and_eq_true] at h
    have ih := parts_of_texts h.2
    rw [List.filterMap_cons_some (show OpenAIContentPart.ownText (.text s) = some s from rfl),
      List.filter_cons, List.filter_cons, ih]
    by_cases hs : s = [] <;> simp [OpenAIContentPart.full, hs]
  | .imageUrl url :: parts, h => absurd h (by simp [OpenAIContentPart.ownText])

/-- The user's message shows all parts, or there was none to show. -/
theorem userMessage_shows (parts : List OpenAIContentPart) :
    (parts.filter OpenAIContentPart.full = [] ∧ ∀ t ∈ userMessage parts, t.role = .user) ∨
      ∃ content, userMessage parts = [.plain .user (some content)] ∧
        content.Shows (parts.filter OpenAIContentPart.full) := by
  unfold userMessage
  split
  · next hall =>
    have hstand := standIn_join "\n" (parts.filterMap OpenAIContentPart.ownText)
    rw [parts_of_texts hall]
    dsimp only
    split
    · next hempty =>
      refine .inl ⟨?_, fun t ht => absurd ht List.not_mem_nil⟩
      rw [hempty] at hstand
      rw [List.map_eq_nil_iff]
      cases htexts : (parts.filterMap OpenAIContentPart.ownText).filter fun t => t ≠ [] with
      | nil => rfl
      | cons t ts =>
        -- a text that stands in the empty one is empty
        rw [htexts] at hstand
        obtain ⟨before, after, h, -⟩ := hstand
        have hmem : t ∈ (parts.filterMap OpenAIContentPart.ownText).filter fun t => t ≠ [] := by
          rw [htexts]
          exact .head _
        have ht := (List.append_eq_nil_iff.1 (List.append_eq_nil_iff.1 h.symm).1).2
        exact absurd ht (of_decide_eq_true (List.mem_filter.1 hmem).2)
    · exact .inr ⟨_, rfl, _, rfl, hstand⟩
  · exact .inr ⟨_, rfl, List.filter_sublist⟩

theorem call_of (use : Block) : ToolCall.Of use (toolCall use) :=
  ⟨rfl, rfl, parseTree_compact _⟩

theorem calls_assistantMessage (bs : List Block) :
    (assistantMessage bs).toolCalls.getD [] = (bs.filter fun b => b.type = .toolUse).map toolCall := by
  unfold assistantMessage
  dsimp only
  split
  · next h => exact h.symm
  · rfl

theorem became (h : translateMessage opts m = .ok group) : Became m group := by
  obtain ⟨role, content⟩ := m
  cases role with
  | user =>
    cases content with
    | text s =>
      obtain rfl := Except.ok.inj h
      refine ⟨[], _, rfl, .nil, ?_⟩
      by_cases hs : s = []
      · exact .inl ⟨by simp [Message.ownParts, OpenAIContentPart.full, hs], by simp [OpenAIMessage.plain]⟩
      · refine .inr ⟨_, rfl, [s], ?_, [], [], by simp, trivial⟩
        simp [Message.ownParts, OpenAIContentPart.full, hs]
    | blocks bs =>
      obtain ⟨parts, hparts, h⟩ := ok_of_bind h
      obtain rfl := Except.ok.inj h
      obtain rfl := contentParts_eq hparts
      refine ⟨_, _, rfl, ?_, userMessage_shows _⟩
      rw [List.forall₂_map_right_iff]
      exact List.forall₂_same.2 fun _ _ => ⟨rfl, rfl⟩
    | other =>
      obtain rfl := Except.ok.inj h
      exact ⟨[], [], rfl, .nil, .inl ⟨rfl, by simp⟩⟩
  | assistant =>
    cases content with
    | text s =>
      obtain rfl := Except.ok.inj h
      exact .nil
    | blocks bs =>
      obtain rfl := Except.ok.inj h
      show List.Forall₂ ToolCall.Of (bs.filter fun b => b.type = .toolUse) _
      rw [List.flatMap_singleton, calls_assistantMessage, List.forall₂_map_right_iff]
      exact List.forall₂_same.2 fun use _ => call_of use
    | other =>
      obtain rfl := Except.ok.inj h
      exact .nil
  | other role =>
    cases content <;> exact (Except.ok.inj h).symm

end Message

/-! ## The history -/

section History

variable {opts : Options} {system : System} {messages : List Message} {out result : List OpenAIMessage}
  {groups : List (List OpenAIMessage)} {uses results : List Block}

/-- What each message pushes, one behind the other. -/
theorem translateFrom_groups : ∀ {messages : List Message} {result out : List OpenAIMessage},
    translateFrom opts result messages = .ok out → ∃ groups, out = result ++ groups.flatten ∧
      List.Forall₂ (fun m group => translateMessage opts m = .ok group) messages groups
  | [], result, out, h => ⟨[], by simp [Except.ok.inj h], .nil⟩
  | m :: messages, result, out, h => by
    obtain ⟨pushed, hpushed, h⟩ := ok_of_bind h
    obtain ⟨groups, rfl, hgroups⟩ := translateFrom_groups h
    exact ⟨pushed :: groups, by rw [List.flatten_cons, List.append_assoc], .cons hpushed hgroups⟩

theorem answers_nil_iff : Answers [] results ↔ results = [] := by
  constructor
  · rintro ⟨-, hall⟩
    refine List.eq_nil_iff_forall_not_mem.2 fun result hmem => ?_
    obtain ⟨use, huse, -⟩ := hall result hmem
    exact List.not_mem_nil huse
  · rintro rfl
    exact ⟨fun _ h => absurd h List.not_mem_nil, fun _ h => absurd h List.not_mem_nil⟩

/-- Messages that are no `tool` messages and have no calls, before turns. -/
theorem Turns.append : ∀ {own : List OpenAIMessage},
    (∀ t ∈ own, t.role ≠ .tool ∧ t.toolCalls = none) → Turns out → Turns (own ++ out)
  | [], _, hout => hout
  | t :: own, h, hout => by
    obtain ⟨ht, hrest⟩ := List.forall_mem_cons.1 h
    exact .plain ht.1 ht.2 (Turns.append hrest hout)

theorem plain_userMessage (parts : List OpenAIContentPart) :
    ∀ t ∈ userMessage parts, t.role ≠ .tool ∧ t.toolCalls = none := by
  have hplain : ∀ content, ∀ t ∈ [OpenAIMessage.plain .user content],
      t.role ≠ .tool ∧ t.toolCalls = none := fun content =>
    List.forall_mem_singleton.2 ⟨OpenAIRole.noConfusion, rfl⟩
  unfold userMessage
  dsimp only
  split_ifs
  · exact fun t ht => absurd ht List.not_mem_nil
  · exact hplain _
  · exact hplain _

theorem plain_translateSystem (system : System) :
    ∀ t ∈ translateSystem system, t.role ≠ .tool ∧ t.toolCalls = none := by
  unfold translateSystem
  dsimp only
  split_ifs
  · exact fun t ht => absurd ht List.not_mem_nil
  · exact List.forall_mem_singleton.2 ⟨OpenAIRole.noConfusion, rfl⟩

/-- The calls of a message and the results of the next one are a turn. -/
theorem turn_assistantMessage {bs : List Block} (hout : Turns out)
    (h : Answers (bs.filter fun b => b.type = .toolUse) results) :
    Turns (assistantMessage bs :: (results.map toolMessage ++ out)) := by
  by_cases hnone : (bs.filter fun b => b.type = .toolUse) = []
  · rw [hnone, answers_nil_iff] at h
    rw [h]
    exact .plain OpenAIRole.noConfusion (by simp [assistantMessage, hnone]) hout
  · obtain ⟨hone, hall⟩ := h
    have hcalls : (assistantMessage bs).toolCalls =
        some ((bs.filter fun b => b.type = .toolUse).map toolCall) := by
      simp [assistantMessage, hnone]
    refine .turn rfl hcalls (List.forall_mem_map.2 fun result hmem => ⟨rfl, ?_⟩)
      (List.forall_mem_map.2 fun use huse => ?_) hout
    · obtain ⟨use, huse, hanswers⟩ := hall result hmem
      exact ⟨_, List.mem_map_of_mem huse, congrArg some (of_decide_eq_true hanswers)⟩
    · rw [List.filter_map, List.length_map, ← hone use huse]
      congr 2
      funext result
      simp [toolMessage, toolCall, Block.answers]

/-- Behind a message with calls come its results, and then turns. -/
theorem turns_behind : ∀ {messages : List Message} {uses : List Block}
    {groups : List (List OpenAIMessage)}, PairedAfter uses messages →
      List.Forall₂ (fun m group => translateMessage opts m = .ok group) messages groups →
        ∃ results out, Answers uses results ∧ Turns out ∧
          groups.flatten = results.map toolMessage ++ out
  | [], uses, _, h, .nil => by
    rw [show uses = [] from h]
    exact ⟨[], [], answers_nil_iff.2 rfl, .nil, rfl⟩
  | m :: messages, uses, group :: groups, ⟨hanswers, hpaired⟩, .cons hgroup hgroups => by
    obtain ⟨results, out, hresults, hout, hflat⟩ := turns_behind hpaired hgroups
    rw [List.flatten_cons, hflat]
    -- a message without calls has no results behind it
    have hnone : m.toolUses = [] → results = [] := fun h => answers_nil_iff.1 (h ▸ hresults)
    obtain ⟨role, content⟩ := m
    cases role with
    | user =>
      rw [hnone rfl]
      cases content with
      | text s =>
        obtain rfl := Except.ok.inj hgroup
        exact ⟨_, _, hanswers, .plain OpenAIRole.noConfusion rfl hout, rfl⟩
      | blocks bs =>
        obtain ⟨parts, -, h⟩ := ok_of_bind hgroup
        obtain rfl := Except.ok.inj h
        exact ⟨_, _, hanswers, Turns.append (plain_userMessage parts) hout, by simp [Message.toolResults,
          Content.list]⟩
      | other =>
        obtain rfl := Except.ok.inj hgroup
        exact ⟨_, _, hanswers, hout, rfl⟩
    | assistant =>
      cases content with
      | text s =>
        rw [hnone rfl]
        obtain rfl := Except.ok.inj hgroup
        exact ⟨_, _, hanswers, .plain OpenAIRole.noConfusion rfl hout, rfl⟩
      | blocks bs =>
        obtain rfl := Except.ok.inj hgroup
        exact ⟨_, _, hanswers, turn_assistantMessage hout hresults, rfl⟩
      | other =>
        rw [hnone rfl]
        obtain rfl := Except.ok.inj hgroup
        exact ⟨_, _, hanswers, hout, rfl⟩
    | other role =>
      rw [hnone rfl]
      obtain rfl : group = [] := by cases content <;> exact (Except.ok.inj hgroup).symm
      exact ⟨_, _, hanswers, hout, rfl⟩

/-- A paired history comes out as turns, with the calls, the results and the user's own parts of each
message. -/
theorem translateMessages_turns (hpaired : Paired messages)
    (h : translateMessages system messages opts = .ok out) :
    Turns out ∧ ∃ head groups, out = head ++ groups.flatten ∧ (∀ t ∈ head, t.role = .system) ∧
      List.Forall₂ Became messages groups := by
  obtain ⟨groups, rfl, hgroups⟩ := translateFrom_groups h
  obtain ⟨results, rest, hresults, hrest, hflat⟩ := turns_behind hpaired hgroups
  rw [answers_nil_iff.1 hresults, List.map_nil, List.nil_append] at hflat
  refine ⟨?_, _, groups, rfl, ?_, hgroups.imp fun _ _ => became⟩
  · rw [hflat]
    exact Turns.append (plain_translateSystem system) hrest
  · unfold translateSystem
    dsimp only
    split_ifs
    · exact fun t ht => absurd ht List.not_mem_nil
    · exact List.forall_mem_singleton.2 rfl

/-- A call with this input and its result, in two messages. -/
def calledOnce (input : JTree) : List Message :=
  [⟨.assistant, .blocks [⟨.toolUse, none, none, .other, false, none, some (utf16 "a"), some (utf16 "read"),
      some input⟩]⟩,
    ⟨.user, .blocks [⟨.toolResult, none, some (utf16 "a"), .text (utf16 "done"), false, none, none, none,
      none⟩]⟩]

theorem paired_calledOnce (input : JTree) : Paired (calledOnce input) := by
  refine ⟨⟨fun _ h => absurd h List.not_mem_nil, fun _ h => absurd h List.not_mem_nil⟩, ⟨?_, ?_⟩, rfl⟩
  · exact List.forall_mem_singleton.2 rfl
  · exact List.forall_mem_singleton.2 ⟨_, .head _, rfl⟩

theorem translateMessages_turns_called :
    ∃ out, translateMessages .other (calledOnce (.bool true)) ⟨none, none⟩ = .ok out ∧ Turns out ∧
      ∃ head groups, out = head ++ groups.flatten ∧ (∀ t ∈ head, t.role = .system) ∧
        List.Forall₂ Became (calledOnce (.bool true)) groups :=
  ⟨_, rfl, translateMessages_turns (paired_calledOnce _)
    (show translateMessages .other _ ⟨none, none⟩ = .ok _ from rfl)⟩

/-- The arguments of a null input are an empty object. -/
theorem null_input_replaced : ¬∀ (system : System) (messages : List Message) (opts : Options)
    (out : List OpenAIMessage), Paired messages → translateMessages system messages opts = .ok out →
      List.Forall₂ (fun use call => ∀ input, use.input = some input →
          parseTree call.arguments = some input)
        (messages.flatMap Message.toolUses) (out.flatMap fun t => t.toolCalls.getD []) := by
  intro h
  have hcall := h .other (calledOnce .null) ⟨none, none⟩ _ (paired_calledOnce _) rfl
  obtain ⟨hnull, -⟩ := List.forall₂_cons.1 hcall
  have hparse := (hnull .null rfl).symm.trans (parseTree_compact (.object []))
  exact JTree.noConfusion (Option.some.inj hparse)

end History

end Lynox.Messages.Adapter
