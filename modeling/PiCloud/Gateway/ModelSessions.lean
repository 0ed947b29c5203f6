import PiCloud.Lib.InsertionMap
import PiCloud.Lib.Run

/-!
# Gateway.ModelSessions

The model sessions of the provider gateway: a full request comes in, and where its context continues
the last response of its session, only the rest of it is sent.

* `Value`, `canonicalItem`, `Codec`: decoded JSON, and what is significant of an item.
* `Request`, `parseRequest`, `Request.payload`: a full request, and what is sent of it.
* `Session`, `Call`, `Gateway`: the cached sessions, the requests that run, and the provider.
* `Turn`, `Gateway.act`: acquisition, the attempts of a request and their outcomes, the release,
  timers and the clock.
-/

namespace PiCloud
namespace ModelGateway

open Lib

/-! ## Requests -/

/-- What `piCloudJSON` decodes. The members of an object are in the order of their names. -/
inductive Value where
  | null
  | bool (b : Bool)
  | number (text : String)
  | string (text : String)
  | array (items : List Value)
  | object (members : List (String × Value))

mutual

def Value.same : Value → Value → Bool
  | .null, .null => true
  | .bool a, .bool b => a = b
  | .number a, .number b => a = b
  | .string a, .string b => a = b
  | .array a, .array b => sameItems a b
  | .object a, .object b => sameMembers a b
  | _, _ => false

def sameItems : List Value → List Value → Bool
  | [], [] => true
  | a :: as, b :: bs => a.same b && sameItems as bs
  | _, _ => false

def sameMembers : List (String × Value) → List (String × Value) → Bool
  | [], [] => true
  | (m, a) :: as, (n, b) :: bs => m = n && a.same b && sameMembers as bs
  | _, _ => false

end

mutual

theorem same_iff : ∀ a b : Value, a.same b = true ↔ a = b
  | .null, b => by cases b <;> simp [Value.same]
  | .bool a, b => by cases b <;> simp [Value.same]
  | .number a, b => by cases b <;> simp [Value.same]
  | .string a, b => by cases b <;> simp [Value.same]
  | .array a, b => by cases b <;> simp [Value.same, sameItems_iff a]
  | .object a, b => by cases b <;> simp [Value.same, sameMembers_iff a]

theorem sameItems_iff : ∀ a b : List Value, sameItems a b = true ↔ a = b
  | [], b => by cases b <;> simp [sameItems]
  | a :: as, b => by cases b <;> simp [sameItems, same_iff a, sameItems_iff as]

theorem sameMembers_iff : ∀ a b : List (String × Value), sameMembers a b = true ↔ a = b
  | [], b => by cases b <;> simp [sameMembers]
  | (m, a) :: as, b => by
    cases b <;> simp [sameMembers, same_iff a, sameMembers_iff as, Prod.ext_iff]

end

instance : DecidableEq Value := fun a b => decidable_of_iff _ (same_iff a b)

/-- The digest of what `json.Marshal` writes, the text of a text that is decoded and written again,
and the truth of a member. -/
structure Codec (δ : Type) where
  digest : Value → δ
  reencode : String → Option String
  asBool : Value → Bool

/-- `delete` of a member. -/
def dropMember (name : String) (members : List (String × Value)) : List (String × Value) :=
  members.filter fun m => m.1 ≠ name

def canonicalPart : Value → Value
  | .object members => .object (dropMember "logprobs" members)
  | v => v

section Codec

variable {δ : Type} (codec : Codec δ)

/-- The arguments of a Tool call, where they are JSON. -/
def canonicalArguments (m : String × Value) : String × Value :=
  match m with
  | ("arguments", .string text) => ("arguments", .string ((codec.reencode text).getD text))
  | m => m

def canonicalContent (m : String × Value) : String × Value :=
  match m with
  | ("content", .array parts) => ("content", .array (parts.map canonicalPart))
  | m => m

/-- The significant fields of an item. -/
def canonicalItem : Value → Value
  | .object members =>
    match members.lookup "type" with
    | some (.string "function_call") | some (.string "custom_tool_call") =>
      .object ((dropMember "status" members).map (canonicalArguments codec))
    | some (.string "message") => .object (members.map canonicalContent)
    | _ => .object members
  | v => v

/-- `piCloudItemDigest` -/
def itemDigest (item : Value) : δ := codec.digest (canonicalItem codec item)

/-- `fields` are all members but `input` and `stream`. -/
structure Request where
  fields : List (String × Value) := []
  input : List Value := []

def Request.parameters (r : Request) : δ := codec.digest (.object r.fields)

def Request.fingerprints (r : Request) : List δ := r.input.map (itemDigest codec)

def blank : Option Value → Bool
  | none | some .null | some (.string "") => true
  | _ => false

/-- `piCloudParseRequest` -/
def parseRequest : Value → Option Request
  | .object members =>
    match members.lookup "input" with
    | some (.array input) =>
      if blank (members.lookup "model") || !(members.lookup "stream").any codec.asBool ||
          (members.lookup "store").any codec.asBool ||
          (members.lookup "previous_response_id").isSome then none
      else some { fields := dropMember "stream" (dropMember "input" members), input }
    | _ => none
  | _ => none

end Codec

/-- What is sent: the fields, the response to continue, and the rest of the input. -/
structure Payload where
  fields : List (String × Value) := []
  previous : Option Nat := none
  input : List Value := []

/-- A cached session; a response id, parameters and a time that are empty in the source are `none`. -/
structure Session (δ : Type) where
  id : Nat := 0
  key : Nat := 0
  responseId : Option Nat := none
  parameters : Option δ := none
  input : List δ := []
  busy : Bool := false
  created : Nat := 0
  used : Nat := 0
  httpUntil : Option Nat := none

def Session.forget {δ : Type} (s : Session δ) : Session δ := { s with responseId := none, input := [] }

section Payload

variable {δ : Type} [DecidableEq δ] (codec : Codec δ)

def Request.matched (r : Request) (s : Session δ) : Bool :=
  s.responseId.isSome && s.parameters = some (r.parameters codec) &&
    s.input = (r.fingerprints codec).take s.input.length

/-- `payload` -/
def Request.payload (r : Request) (s : Session δ) : Payload :=
  if r.matched codec s then
    { fields := r.fields, previous := s.responseId, input := r.input.drop s.input.length }
  else { fields := r.fields, input := r.input }

end Payload

/-! ## The gateway -/

/-- Where a request is: before its payload, between attempts, in an attempt, or before the release. -/
inductive Phase where
  | prepare
  | ready
  | streaming (http : Bool)
  | finishing (keep : Bool)
  deriving DecidableEq, Repr

/-- A request that runs, with the session it has acquired. -/
structure Call where
  ref : Nat
  key : Nat
  request : Request
  payload : Payload := {}
  incremental : Bool := false
  httpMode : Bool := false
  attempt : Nat := 0
  written : Bool := false
  phase : Phase := .prepare

/-- A response of the provider, with the whole input it was made from. -/
structure Response where
  id : Nat
  fields : List (String × Value)
  input : List Value
  output : List Value

structure Sent where
  request : Request
  payload : Payload

structure Limits where
  idle : Nat
  maxEntries : Nat

/-- `55 * time.Minute`, in milliseconds -/
def maxAge : Nat := 55 * 60 * 1000

/-- `5 * time.Minute` -/
def httpPreference : Nat := 5 * 60 * 1000

/-- The digests that fit in `2*piCloudMiB`. -/
def maxBaseline : Nat := 2 * 1024 * 1024 / 32

/-- Sessions are objects: an entry that is removed leaves its object to whoever still has it. -/
structure Gateway (δ : Type) where
  now : Nat := 0
  sessions : Nat → Session δ := fun _ => {}
  nextRef : Nat := 0
  nextId : Nat := 0
  entries : InsertionMap Nat Nat := {}
  calls : Nat → Option Call := fun _ => none
  -- the provider, and everything that was sent to it
  provider : List Response := []
  sent : List Sent := []

namespace Gateway

variable {δ : Type} (g : Gateway δ)

def setSession (ref : Nat) (s : Session δ) : Gateway δ :=
  { g with sessions := Function.update g.sessions ref s }

def setCall (n : Nat) (c : Option Call) : Gateway δ :=
  { g with calls := Function.update g.calls n c }

/-- `removeLocked` -/
def remove (ref : Nat) : Gateway δ :=
  if g.entries.get (g.sessions ref).key = some ref then
    { g with entries := g.entries.delete (g.sessions ref).key }.setSession ref
      { g.sessions ref with input := [] }
  else g

/-- `now.Before(s.httpUntil)` -/
def httpPreferred (s : Session δ) : Bool := s.httpUntil.any (g.now < ·)

/-- A session that `acquire` may give out again. -/
def fresh (limits : Limits) (s : Session δ) : Bool :=
  g.now - s.used < limits.idle && g.now - s.created < maxAge && s.httpUntil.all (g.now < ·)

def evictable (ref : Nat) : Bool :=
  g.entries.entries.any (·.2 = ref) && !(g.sessions ref).busy &&
    g.entries.entries.all fun e => (g.sessions e.2).busy || (g.sessions ref).used ≤ (g.sessions e.2).used

/-- A new session of a key, for a request. -/
def insert (n key : Nat) (r : Request) : Gateway δ :=
  { g with
    entries := g.entries.set key g.nextRef
    sessions := Function.update g.sessions g.nextRef
      { id := g.nextId, key, busy := true, created := g.now, used := g.now }
    nextRef := g.nextRef + 1
    nextId := g.nextId + 1 }.setCall n (some { ref := g.nextRef, key, request := r })

/-- The end of `acquire`, when the key has no session to use again. -/
def create (limits : Limits) (n key : Nat) (r : Request) (victim : Nat) : Option (Gateway δ) :=
  if g.entries.size < limits.maxEntries then some (g.insert n key r)
  else if g.evictable victim then some ((g.remove victim).insert n key r)
  else none

/-- `acquire`; `none` is the answer that the session or the capacity is taken. -/
def acquire (limits : Limits) (n key : Nat) (r : Request) (victim : Nat) : Option (Gateway δ) :=
  match g.entries.get key with
  | none => g.create limits n key r victim
  | some ref =>
    if (g.sessions ref).busy then none
    else if g.fresh limits (g.sessions ref) then
      some ((g.setSession ref { g.sessions ref with busy := true }).setCall n
        (some { ref, key, request := r }))
    else (g.remove ref).create limits n key r victim

/-- The provider continues the response that is named. -/
def effective (p : Payload) : Option (List Value) :=
  match p.previous with
  | none => some p.input
  | some id => (g.provider.find? (·.id = id)).map fun resp => resp.input ++ resp.output ++ p.input

/-- A response, with an id of its own. -/
def respond (p : Payload) (id : Nat) (output : List Value) : Option (Gateway δ) := do
  guard (id ∉ g.provider.map (·.id))
  let input ← g.effective p
  some { g with provider := { id, fields := p.fields, input, output } :: g.provider }

variable [DecidableEq δ] (codec : Codec δ)

/-- The payload of a request, from a session that continues it or begins again. -/
def prepare (n : Nat) (c : Call) : Gateway δ :=
  let s := g.sessions c.ref
  let incremental := c.request.matched codec s
  let changed := s.parameters.isSome && s.parameters ≠ some (c.request.parameters codec)
  let again := !incremental && (s.responseId.isSome || changed)
  let s' : Session δ :=
    if again then { s.forget with id := g.nextId, created := g.now, httpUntil := none } else s
  { g.setSession c.ref s' with nextId := g.nextId + 1 }.setCall n
    (some { c with
      payload := c.request.payload codec s
      incremental
      httpMode := g.httpPreferred s'
      phase := .ready })

def send (n : Nat) (c : Call) : Gateway δ :=
  { g with sent := { request := c.request, payload := c.payload } :: g.sent }.setCall n
    (some { c with phase := .streaming c.httpMode })

def fallBack (n : Nat) (c : Call) : Gateway δ :=
  (g.setSession c.ref { g.sessions c.ref with httpUntil := some (g.now + httpPreference) }).setCall n
    (some { c with phase := .streaming true, written := true })

/-- A completed attempt: over HTTP the baseline stays what it is, and else the response is the new
baseline. An attempt over server-sent events has no response to read. -/
def succeed (n : Nat) (c : Call) (completion : Option (Nat × List Value)) : Gateway δ :=
  let s := g.sessions c.ref
  let parameters := some (c.request.parameters codec)
  if c.httpMode || g.httpPreferred s then
    (g.setSession c.ref { s with parameters }).setCall n (some { c with phase := .finishing true })
  else
    let output := completion.elim [] (·.2)
    let baseline := c.request.fingerprints codec ++ output.map (itemDigest codec)
    if maxBaseline < baseline.length then g.setCall n (some { c with phase := .finishing false })
    else
      (g.setSession c.ref
        { s with parameters, input := baseline, responseId := completion.map (·.1) }).setCall n
          (some { c with phase := .finishing true })

/-- Another attempt, of at most three. -/
def again (n : Nat) (c : Call) (s : Session δ) (httpMode : Bool) : Gateway δ :=
  (g.setSession c.ref s).setCall n (some { c with
    payload := c.request.payload codec s
    incremental := c.request.matched codec s
    httpMode
    attempt := c.attempt + 1
    phase := if c.attempt + 1 < 3 then .ready else .finishing false })

/-- A failed attempt. -/
def failed (n : Nat) (c : Call) (missing transport cancelled : Bool) : Gateway δ :=
  let s := g.sessions c.ref
  if cancelled then g.setCall n (some { c with phase := .finishing false })
  else if !c.written && c.incremental && missing then
    { g with nextId := g.nextId + 1 }.again codec n c { s.forget with id := g.nextId } c.httpMode
  else if !c.written && !c.httpMode && transport then
    g.again codec n c { s.forget with
      httpUntil := some (g.now + httpPreference)
      parameters := some (c.request.parameters codec) } true
  else g.setCall n (some { c with phase := .finishing false })

omit [DecidableEq δ] in
/-- `finish` -/
def finish (n : Nat) (c : Call) (keep : Bool) : Gateway δ :=
  let s := g.sessions c.ref
  let g := g.setCall n none
  if g.entries.get s.key ≠ some c.ref then g
  else if keep then g.setSession c.ref { s with busy := false, used := g.now }
  else if !g.httpPreferred s then g.remove c.ref
  else { g.setSession c.ref { s.forget with id := g.nextId, busy := false, used := g.now } with
    nextId := g.nextId + 1 }

omit [DecidableEq δ] in
def expire (limits : Limits) (ref : Nat) : Gateway δ :=
  let s := g.sessions ref
  if !s.busy && (limits.idle ≤ g.now - s.used || s.httpUntil.any (· ≤ g.now)) then g.remove ref else g

end Gateway

inductive Turn where
  | tick (ms : Nat)
  | acquire (n key : Nat) (root : Value) (victim : Nat)
  | prepare (n : Nat)
  | send (n : Nat)
  | fallBack (n : Nat)
  | write (n : Nat)
  | complete (n id : Nat) (output : List Value)
  | undecodable (n : Nat)
  | failed (n : Nat) (missing transport cancelled : Bool)
  | finish (n : Nat)
  | expire (ref : Nat)

namespace Gateway

variable {δ : Type} [DecidableEq δ] (limits : Limits) (codec : Codec δ) (g : Gateway δ)

def act : Turn → Option (Gateway δ)
  | .tick ms => some { g with now := g.now + ms }
  | .acquire n key root victim => do
    guard ((g.calls n).isNone)
    let r ← parseRequest codec root
    g.acquire limits n key r victim
  | .prepare n => do
    let c ← g.calls n
    guard (c.phase = .prepare)
    some (g.prepare codec n c)
  | .send n => do
    let c ← g.calls n
    guard (c.phase = .ready)
    some (g.send n c)
  | .fallBack n => do
    let c ← g.calls n
    guard (c.written = false ∧ (c.phase = .streaming true ∨ c.phase = .streaming false))
    some (g.fallBack n c)
  | .write n => do
    let c ← g.calls n
    guard (c.phase = .streaming true ∨ c.phase = .streaming false)
    some (g.setCall n (some { c with written := true }))
  | .complete n id output => do
    let c ← g.calls n
    match c.phase with
    | .streaming http =>
      let g ← g.respond c.payload id output
      some (g.succeed codec n c (if http then none else some (id, output)))
    | _ => none
  | .undecodable n => do
    let c ← g.calls n
    guard (c.phase = .streaming false)
    some (g.setCall n (some { c with phase := .finishing false }))
  | .failed n missing transport cancelled => do
    let c ← g.calls n
    guard (c.phase = .streaming true ∨ c.phase = .streaming false)
    some (g.failed codec n c missing transport cancelled)
  | .finish n => do
    let c ← g.calls n
    match c.phase with
    | .finishing keep => some (g.finish n c keep)
    | _ => none
  | .expire ref => some (g.expire limits ref)

end Gateway

def gatewaySystem {δ : Type} [DecidableEq δ] (limits : Limits) (codec : Codec δ) :
    System (Gateway δ) Turn where
  init g := g = {}
  step g turn g' := g.act limits codec turn = some g'

end ModelGateway
end PiCloud
