import Lynox.Data.Assoc
import Lynox.Text.Json

/-!
# Tool results that are set aside

`evictFrom` and `collapseIn` set the long tool results of a history aside in a store, under ids the
model can recall them by; `collapseIn` also writes a stub in the place of each. One content is kept
once. `get` makes what it finds the last one used, and `pruneToCap` drops the ones not used for longest.

What a call was called with, what is written about a result, and the wrapping of untrusted text are
parameters (`Labels`), and so is the key of a content.
-/

namespace Lynox.Messages.Blobs

open Text

variable {ι β : Type}

/-! ## Messages -/

/-- A block within a result. -/
inductive Inner (β : Type)
  | text (s : JsString)
  | other (block : β)

inductive ResultContent (β : Type)
  | text (s : JsString)
  | blocks (bs : List (Inner β))
  | missing

/-- A result of a tool, with the fields that are only carried along. -/
structure ResultBlock (β : Type) where
  toolUseId : JsString
  content : ResultContent β
  isError : Option Bool
  fields : β

inductive Block (ι β : Type)
  | toolUse (id name : JsString) (input : ι)
  | toolResult (r : ResultBlock β)
  | other (block : β)

inductive Content (ι β : Type)
  | text (s : JsString)
  | blocks (bs : List (Block ι β))

inductive Role
  | user | assistant
  deriving DecidableEq

structure Message (ι β : Type) where
  role : Role
  content : Content ι β

def Inner.isText : Inner β → Bool
  | .text _ => true
  | .other _ => false

def Inner.shownText : Inner β → JsString
  | .text s => s
  | .other _ => []

def toolResultText : ResultContent β → JsString
  | .text s => s
  | .blocks bs => bs.flatMap Inner.shownText
  | .missing => []

/-- The calls of the assistant, the last one of an id. -/
def toolCallsById (messages : List (Message ι β)) : List (JsString × JsString × ι) :=
  (messages.flatMap fun msg =>
    match msg.role, msg.content with
    | .assistant, .blocks bs => bs.filterMap fun
      | .toolUse id name input => some (id, name, input)
      | _ => none
    | _, _ => []).foldl (fun calls call => Assoc.set calls call.1 call.2) []

/-! ## The store -/

structure ToolResultBlob where
  tool : JsString
  descriptor : JsString
  payload : JsString
  ident : JsString

/-- What is written about a call and its result. -/
structure Labels (ι : Type) where
  contentKey : JsString → JsString
  identifyingArg : Option ι → JsString
  buildDescriptor : JsString → JsString → JsString → JsString
  containsUntrustedMarker : JsString → Bool
  wrapUntrustedData : JsString → JsString

/-- The maps of the store, each in the order of its entries. -/
structure Store where
  blobs : List (JsString × ToolResultBlob)
  seq : ℕ
  totalBytes : ℤ
  idByContent : List (JsString × JsString)
  contentById : List (JsString × JsString)

def Store.empty : Store :=
  ⟨[], 0, 0, [], []⟩

/-- The id of a number. -/
def idOf (n : ℕ) : JsString :=
  utf16 "tr-" ++ shownDigits n

/-- The blob under an id, which then is the last one used. -/
def Store.get (s : Store) (id : JsString) : Option ToolResultBlob × Store :=
  match Assoc.get s.blobs id with
  | none => (none, s)
  | some blob => (some blob, { s with blobs := Assoc.set (Assoc.erase s.blobs id) id blob })

def Store.clear (s : Store) : Store :=
  { s with blobs := [], idByContent := [], contentById := [], totalBytes := 0 }

/-- The store is within both caps. -/
def Store.fits (s : Store) (maxEntries maxBytes : ℤ) : Bool :=
  (s.blobs.length : ℤ) ≤ maxEntries && s.totalBytes ≤ maxBytes

/-- One blob is dropped. -/
def Store.drop (s : Store) (id : JsString) (blob : ToolResultBlob) : Store :=
  let s := { s with blobs := Assoc.erase s.blobs id, totalBytes := s.totalBytes - blob.payload.length }
  match Assoc.get s.contentById id with
  | none => s
  | some key =>
    { s with
      contentById := Assoc.erase s.contentById id
      idByContent :=
        if Assoc.get s.idByContent key = some id then Assoc.erase s.idByContent key else s.idByContent }

/-- The loop over the blobs, those not used for longest first. -/
def Store.pruneOver (maxEntries maxBytes : ℤ) : List (JsString × ToolResultBlob) → Store → Store
  | [], s => s
  | (id, blob) :: rest, s =>
    if s.fits maxEntries maxBytes then s else Store.pruneOver maxEntries maxBytes rest (s.drop id blob)

def Store.pruneToCap (s : Store) (maxEntries maxBytes : ℤ) : Store :=
  s.pruneOver maxEntries maxBytes s.blobs

structure Handle where
  id : JsString
  descriptor : JsString

structure Capacity where
  maxEntries : ℤ
  maxBytes : ℤ

variable (L : Labels ι)

/-- A payload is kept under a new id, unless there is a capacity and no room. -/
def Store.mint (s : Store) (tool payload ident key : JsString) (capacity : Option Capacity) :
    Option (Handle × ℕ) × Store :=
  if capacity.elim false fun c => decide (c.maxEntries < (s.blobs.length : ℤ) + 1) ||
      decide (c.maxBytes < s.totalBytes + (payload.length : ℤ)) then (none, s)
  else
    let id := idOf (s.seq + 1)
    let descriptor := L.buildDescriptor tool payload ident
    (some (⟨id, descriptor⟩, payload.length),
      { blobs := Assoc.set s.blobs id ⟨tool, descriptor, payload, ident⟩
        seq := s.seq + 1
        totalBytes := s.totalBytes + payload.length
        idByContent := Assoc.set s.idByContent key id
        contentById := Assoc.set s.contentById id key })

/-- One result is set aside, and the handle with the length of its text returned, none where it is short. -/
def Store.park (s : Store) (r : ResultBlock β) (toolCalls : List (JsString × JsString × ι))
    (thresholdChars : ℤ) (capacity : Option Capacity) : Option (Handle × ℕ) × Store :=
  let payload := toolResultText r.content
  if (payload.length : ℤ) ≤ thresholdChars then (none, s)
  else
    let call := Assoc.get toolCalls r.toolUseId
    let tool := (call.map Prod.fst).getD (utf16 "tool")
    let ident := L.identifyingArg (call.map Prod.snd)
    let key := L.contentKey payload
    match Assoc.get s.idByContent key with
    | none => s.mint L tool payload ident key capacity
    | some existingId =>
      match s.get existingId with
      | (none, s) => s.mint L tool payload ident key capacity
      | (some existing, s) =>
        if existing.payload = payload then
          let descriptor :=
            if ident = existing.ident then existing.descriptor
            else L.buildDescriptor existing.tool existing.payload []
          (some (⟨existingId, descriptor⟩, payload.length), s)
        else s.mint L tool payload ident key capacity

/-- The results of one message. -/
def Store.evictBlocks (toolCalls : List (JsString × JsString × ι)) (thresholdChars : ℤ) :
    List (Block ι β) → Store → List Handle × Store
  | [], s => ([], s)
  | .toolResult r :: bs, s =>
    let (parked, s) := s.park L r toolCalls thresholdChars none
    let (handles, s) := Store.evictBlocks toolCalls thresholdChars bs s
    ((parked.map Prod.fst).toList ++ handles, s)
  | _ :: bs, s => Store.evictBlocks toolCalls thresholdChars bs s

/-- The blocks that are looked at : those of the user's messages. -/
def Message.userBlocks (msg : Message ι β) : List (Block ι β) :=
  match msg.role, msg.content with
  | .user, .blocks bs => bs
  | _, _ => []

def Store.evictFrom (s : Store) (messages : List (Message ι β)) (thresholdChars : ℤ) :
    List Handle × Store :=
  s.evictBlocks L (toolCallsById messages) thresholdChars (messages.flatMap Message.userBlocks)

/-! ## Stubs -/

/-- The text in the place of one that was set aside. -/
def recallStub (id descriptor : JsString) (wasUntrusted : Bool) : JsString :=
  let stub := utf16 "[Full result set aside to free context — " ++ descriptor ++
    utf16 ". Call recall_tool_result with id \"" ++ id ++ utf16 "\" to read it again.]"
  if wasUntrusted && !L.containsUntrustedMarker stub then L.wrapUntrustedData stub else stub

/-- The stub takes the place of the text alone. -/
def ResultBlock.stubbed (r : ResultBlock β) (stub : JsString) : ResultBlock β :=
  match r.content with
  | .blocks bs => { r with content := .blocks (.text stub :: bs.filter fun b => !b.isText) }
  | _ => { r with content := .text stub }

/-- What `collapseIn` returns. -/
structure Collapsed where
  handles : List Handle
  freedChars : ℕ
  freedBeforeAnchor : ℕ

def Collapsed.add (c c' : Collapsed) : Collapsed :=
  ⟨c.handles ++ c'.handles, c.freedChars + c'.freedChars, c.freedBeforeAnchor + c'.freedBeforeAnchor⟩

/-- One block of a message before or behind the anchor. -/
def Store.collapseBlock (toolCalls : List (JsString × JsString × ι)) (thresholdChars : ℤ)
    (capacity : Capacity) (beforeAnchor : Bool) (s : Store) : Block ι β → Block ι β × Collapsed × Store
  | .toolResult r =>
    match s.park L r toolCalls thresholdChars (some capacity) with
    | (none, s) => (.toolResult r, ⟨[], 0, 0⟩, s)
    | (some (handle, payloadChars), s) =>
      let stub := recallStub L handle.id handle.descriptor
        (L.containsUntrustedMarker (toolResultText r.content))
      let freed := payloadChars - stub.length
      (.toolResult (r.stubbed stub), ⟨[handle], freed, if beforeAnchor then freed else 0⟩, s)
  | block => (block, ⟨[], 0, 0⟩, s)

def Store.collapseBlocks (toolCalls : List (JsString × JsString × ι)) (thresholdChars : ℤ)
    (capacity : Capacity) (beforeAnchor : Bool) :
    List (Block ι β) → Store → List (Block ι β) × Collapsed × Store
  | [], s => ([], ⟨[], 0, 0⟩, s)
  | b :: bs, s =>
    let (b, c, s) := s.collapseBlock L toolCalls thresholdChars capacity beforeAnchor b
    let (bs, c', s) := Store.collapseBlocks toolCalls thresholdChars capacity beforeAnchor bs s
    (b :: bs, c.add c', s)

/-- The messages from the `m`-th on, of which those before the limit are looked at. -/
def Store.collapseMessages (toolCalls : List (JsString × JsString × ι)) (thresholdChars : ℤ)
    (capacity : Capacity) (limit anchorIndex : ℕ) :
    ℕ → List (Message ι β) → Store → List (Message ι β) × Collapsed × Store
  | _, [], s => ([], ⟨[], 0, 0⟩, s)
  | m, msg :: rest, s =>
    if m < limit then
      match msg.role, msg.content with
      | .user, .blocks bs =>
        let (bs, c, s) := s.collapseBlocks L toolCalls thresholdChars capacity (m < anchorIndex) bs
        let (rest, c', s) :=
          Store.collapseMessages toolCalls thresholdChars capacity limit anchorIndex (m + 1) rest s
        ({ msg with content := .blocks bs } :: rest, c.add c', s)
      | _, _ =>
        let (rest, c, s) :=
          Store.collapseMessages toolCalls thresholdChars capacity limit anchorIndex (m + 1) rest s
        (msg :: rest, c, s)
    else (msg :: rest, ⟨[], 0, 0⟩, s)

def Store.collapseIn (s : Store) (messages : List (Message ι β)) (thresholdChars : ℤ)
    (skipTailMessages : ℕ) (maxEntries maxBytes : ℤ) (anchorIndex : ℕ) :
    List (Message ι β) × Collapsed × Store :=
  (s.pruneToCap maxEntries maxBytes).collapseMessages L (toolCallsById messages) thresholdChars
    ⟨maxEntries, maxBytes⟩ (messages.length - skipTailMessages) anchorIndex 0 messages

/-! ## Runs -/

/-- A call of the store. -/
inductive Op (ι β : Type)
  | get (id : JsString)
  | evictFrom (messages : List (Message ι β)) (thresholdChars : ℤ)
  | collapseIn (messages : List (Message ι β)) (thresholdChars : ℤ) (skipTailMessages : ℕ)
      (maxEntries maxBytes : ℤ) (anchorIndex : ℕ)
  | pruneToCap (maxEntries maxBytes : ℤ)
  | clear

def Store.after (s : Store) : Op ι β → Store
  | .get id => (s.get id).2
  | .evictFrom messages thresholdChars => (s.evictFrom L messages thresholdChars).2
  | .collapseIn messages thresholdChars skipTailMessages maxEntries maxBytes anchorIndex =>
    (s.collapseIn L messages thresholdChars skipTailMessages maxEntries maxBytes anchorIndex).2.2
  | .pruneToCap maxEntries maxBytes => s.pruneToCap maxEntries maxBytes
  | .clear => s.clear

/-- The ids a call uses, in order : the one it finds, and those of its handles. -/
def Store.uses (s : Store) : Op ι β → List JsString
  | .get id => if (s.get id).1.isSome then [id] else []
  | .evictFrom messages thresholdChars =>
    (s.evictFrom L messages thresholdChars).1.map Handle.id
  | .collapseIn messages thresholdChars skipTailMessages maxEntries maxBytes anchorIndex =>
    (s.collapseIn L messages thresholdChars skipTailMessages maxEntries maxBytes
      anchorIndex).2.1.handles.map Handle.id
  | .pruneToCap _ _ => []
  | .clear => []

/-- The store after some calls. -/
def Store.run (s : Store) (ops : List (Op ι β)) : Store :=
  ops.foldl (Store.after L) s

/-- All uses of some calls. -/
def Store.usesOf : Store → List (Op ι β) → List JsString
  | _, [] => []
  | s, op :: ops => s.uses L op ++ Store.usesOf (s.after L op) ops

end Lynox.Messages.Blobs
