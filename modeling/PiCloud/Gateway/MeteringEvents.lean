import Mathlib.Algebra.BigOperators.Group.List.Basic
import Mathlib.Data.List.Basic
import Mathlib.Tactic.IntervalCases

/-!
# Gateway.MeteringEvents

The events of the model metering journal, as `json.Marshal` writes them.

* `Attribution`, `Event`: who a request is accounted to, and what is recorded of it.
* `marshal`: an event as JSON text.
* `parseAttribution`: what a request may claim; `UuidParser` stands for `uuid.Parse`.
* `key_interrupted`: the key of an interrupted event is that of no other event.
* `interrupted_fits`: the event of an interrupted request is never too large.
-/

namespace PiCloud
namespace Gateway
namespace Metering

abbrev Text := List Char

def size (t : Text) : Nat := (t.map Char.utf8Size).sum

@[simp] theorem size_nil : size [] = 0 := rfl

@[simp] theorem size_cons (c : Char) (t : Text) : size (c :: t) = c.utf8Size + size t := by
  unfold size
  rw [List.map_cons, List.sum_cons]

@[simp] theorem size_append (t u : Text) : size (t ++ u) = size t + size u := by
  unfold size
  rw [List.map_append, List.sum_append]

/-! ## Events -/

structure Attribution where
  version : Nat := 1
  invocationId : Text
  tenantId : Text
  sessionId : Text
  runId : Text
  requestedAt : Text
  piSessionId : Text := []
  conversationId : Option Nat := none
  provider : Text
  model : Text
  purpose : Text
  operationId : Text := []
deriving DecidableEq

structure Tokens where
  input : Nat
  cacheRead : Nat
  cacheWrite : Nat
  output : Nat
  reasoning : Nat
  unclassified : Nat
  total : Nat
deriving DecidableEq

structure Fact where
  model : Text
  provider : Text
  serviceTier : Text
  failed : Bool
  quality : Text
  tokens : Tokens
  imageCount : Option Nat
  webSearchRequests : Option Nat
  unsupportedDimensions : Bool
deriving DecidableEq

inductive Kind where
  | started
  | attempt
  | usage
  | finished
  | interrupted
deriving DecidableEq

def Kind.text : Kind → Text
  | .started => "started".toList
  | .attempt => "attempt".toList
  | .usage => "usage".toList
  | .finished => "finished".toList
  | .interrupted => "interrupted".toList

structure Event where
  context : Attribution
  kind : Kind
  occurredAt : Text
  executionId : Text := []
  usage : Option Fact := none
  statusCode : Nat := 0
  cancelled : Option Bool := none
deriving DecidableEq

namespace Event

variable (e : Event)

/-- `id` -/
def key : Text :=
  e.context.invocationId ++ Char.ofNat 58 :: e.kind.text ++
    if e.executionId = [] then [] else Char.ofNat 58 :: e.executionId

end Event

/-! ## `json.Marshal` -/

def hex4 (n : Nat) : Text := [n / 4096 % 16, n / 256 % 16, n / 16 % 16, n % 16].map Nat.digitChar

/-- A character of a string, with those escaped that HTML or JavaScript would read otherwise. -/
def escape (c : Char) : Text :=
  match c.toNat with
  | 34 => [Char.ofNat 92, Char.ofNat 34]
  | 92 => [Char.ofNat 92, Char.ofNat 92]
  | 8 => [Char.ofNat 92, Char.ofNat 98]
  | 12 => [Char.ofNat 92, Char.ofNat 102]
  | 10 => [Char.ofNat 92, Char.ofNat 110]
  | 13 => [Char.ofNat 92, Char.ofNat 114]
  | 9 => [Char.ofNat 92, Char.ofNat 116]
  | n =>
    if n < 0x20 ∨ n = 0x3C ∨ n = 0x3E ∨ n = 0x26 ∨ n = 0x2028 ∨ n = 0x2029 then
      Char.ofNat 92 :: Char.ofNat 117 :: hex4 n
    else [c]

def quoted (t : Text) : Text := Char.ofNat 34 :: t.flatMap escape ++ [Char.ofNat 34]

def decimal (n : Nat) : Text := Nat.toDigits 10 n

def boolean (b : Bool) : Text := if b then "true".toList else "false".toList

/-- The fields of an object, one after the other. -/
def members : List (Text × Text) → Text
  | [] => []
  | [(name, value)] => quoted name ++ Char.ofNat 58 :: value
  | (name, value) :: fields =>
    quoted name ++ Char.ofNat 58 :: value ++ Char.ofNat 44 :: members fields

def object (fields : List (Text × Text)) : Text :=
  Char.ofNat 123 :: members fields ++ [Char.ofNat 125]

def omitempty {α : Type} [DecidableEq α] (empty : α) (name : String) (text : α → Text) (a : α) :
    List (Text × Text) :=
  if a = empty then [] else [(name.toList, text a)]

def Attribution.marshal (a : Attribution) : Text :=
  object ([("version".toList, decimal a.version), ("invocationId".toList, quoted a.invocationId),
      ("tenantId".toList, quoted a.tenantId), ("sessionId".toList, quoted a.sessionId),
      ("runId".toList, quoted a.runId), ("requestedAt".toList, quoted a.requestedAt)] ++
    omitempty [] "piSessionId" quoted a.piSessionId ++
    omitempty none "conversationId" (fun n => decimal (n.getD 0)) a.conversationId ++
    [("provider".toList, quoted a.provider), ("model".toList, quoted a.model),
      ("purpose".toList, quoted a.purpose)] ++
    omitempty [] "operationId" quoted a.operationId)

def Tokens.marshal (t : Tokens) : Text :=
  object [("input".toList, decimal t.input), ("cacheRead".toList, decimal t.cacheRead),
    ("cacheWrite".toList, decimal t.cacheWrite), ("output".toList, decimal t.output),
    ("reasoning".toList, decimal t.reasoning), ("unclassified".toList, decimal t.unclassified),
    ("total".toList, decimal t.total)]

def Fact.marshal (f : Fact) : Text :=
  object ([("model".toList, quoted f.model), ("provider".toList, quoted f.provider),
      ("serviceTier".toList, quoted f.serviceTier), ("failed".toList, boolean f.failed),
      ("quality".toList, quoted f.quality), ("tokens".toList, f.tokens.marshal)] ++
    omitempty none "imageCount" (fun n => decimal (n.getD 0)) f.imageCount ++
    omitempty none "webSearchRequests" (fun n => decimal (n.getD 0)) f.webSearchRequests ++
    [("unsupportedDimensions".toList, boolean f.unsupportedDimensions)])

def Event.marshal (e : Event) : Text :=
  object ([("context".toList, e.context.marshal), ("kind".toList, quoted e.kind.text),
      ("occurredAt".toList, quoted e.occurredAt)] ++
    omitempty [] "executionId" quoted e.executionId ++
    (match e.usage with
      | some fact => [("usage".toList, fact.marshal)]
      | none => []) ++
    omitempty 0 "statusCode" decimal e.statusCode ++
    omitempty none "cancelled" (fun b => boolean (b.getD false)) e.cancelled)

/-! ## What a request may claim -/

/-- `uuid.Parse`: the texts that it takes for a UUID. -/
structure UuidParser where
  accepts : Text → Bool
  /-- The longest form is `urn:uuid:` and 36 characters. -/
  short : ∀ t, accepts t = true → size t ≤ 45
  /-- No form is another one, a colon and more. -/
  apart : ∀ t u, accepts t = true → accepts (t ++ Char.ofNat 58 :: u) = false

/-- The checks of `parseAttribution`. The times that it writes have 24 bytes, or one more. -/
def Attribution.valid (uuid : UuidParser) (a : Attribution) : Bool :=
  uuid.accepts a.invocationId && uuid.accepts a.tenantId && uuid.accepts a.sessionId &&
    uuid.accepts a.runId && a.version = 1 && a.provider ≠ [] && size a.provider ≤ 256 &&
    a.model ≠ [] && size a.model ≤ 256 && size a.piSessionId ≤ 256 && size a.operationId ≤ 256 &&
    (a.purpose = "agent".toList || a.purpose = "context_maintenance".toList ||
      a.purpose = "image".toList) &&
    a.conversationId.getD 0 ≤ 9007199254740991 && size a.requestedAt ≤ 25

/-- What `timestamp` gives. -/
def isTimestamp (t : Text) : Bool := size t ≤ 25

def interrupted (a : Attribution) (now : Text) : Event := { context := a, kind := .interrupted, occurredAt := now }

def started (a : Attribution) : Event := { context := a, kind := .started, occurredAt := a.requestedAt }

/-! ## Keys -/

theorem key_of_empty {e : Event} (h : e.executionId = []) :
    e.key = e.context.invocationId ++ Char.ofNat 58 :: e.kind.text := by
  unfold Event.key
  rw [if_pos h, List.append_nil]

theorem kind_of_suffix {s t : Text} {k l : Kind}
    (h : s ++ Char.ofNat 58 :: k.text = t ++ Char.ofNat 58 :: l.text) : s = t ∧ k = l := by
  have hcolon : ∀ (k : Kind), Char.ofNat 58 ∉ k.text := by
    intro k
    cases k <;> decide
  have hsplit : ∀ (a b c d : Text), Char.ofNat 58 ∉ b → Char.ofNat 58 ∉ d →
      a ++ Char.ofNat 58 :: b = c ++ Char.ofNat 58 :: d → a = c ∧ b = d := by
    intro a b c d hb hd heq
    obtain ⟨m, hm⟩ | ⟨m, hm⟩ := List.append_eq_append_iff.mp heq
    · obtain ⟨rfl, hrest⟩ := hm
      cases m with
      | nil =>
        rw [List.nil_append] at hrest
        cases hrest
        exact ⟨(List.append_nil a).symm, rfl⟩
      | cons x m =>
        rw [List.cons_append, List.cons.injEq] at hrest
        exact absurd (hrest.2 ▸ List.mem_append_right m List.mem_cons_self) hb
    · obtain ⟨rfl, hrest⟩ := hm
      cases m with
      | nil =>
        rw [List.nil_append] at hrest
        cases hrest
        exact ⟨List.append_nil c, rfl⟩
      | cons x m =>
        rw [List.cons_append, List.cons.injEq] at hrest
        exact absurd (hrest.2 ▸ List.mem_append_right m List.mem_cons_self) hd
  obtain ⟨rfl, htext⟩ := hsplit _ _ _ _ (hcolon k) (hcolon l) h
  refine ⟨rfl, ?_⟩
  cases k <;> cases l <;> first | rfl | exact absurd htext (by decide)

theorem key_interrupted {uuid : UuidParser} {a : Attribution} {now : Text} {e : Event}
    (ha : uuid.accepts a.invocationId = true) (he : uuid.accepts e.context.invocationId = true)
    (h : e.key = (interrupted a now).key) :
    e.context.invocationId = a.invocationId ∧ e.kind = .interrupted := by
  by_cases hexecution : e.executionId = []
  · rw [key_of_empty hexecution, key_of_empty rfl] at h
    exact kind_of_suffix h
  · rw [key_of_empty (e := interrupted a now) rfl] at h
    unfold Event.key at h
    rw [if_neg hexecution, List.append_assoc] at h
    have hcolon : Char.ofNat 58 ∉ Kind.interrupted.text := by decide
    obtain ⟨m, hm⟩ | ⟨m, hm⟩ := List.append_eq_append_iff.mp h
    · obtain ⟨hlong, hrest⟩ := hm
      cases m with
      | nil =>
        rw [List.nil_append, List.cons_append, List.cons.injEq] at hrest
        exact absurd (hrest.2 ▸ List.mem_append_right _ List.mem_cons_self) hcolon
      | cons x m =>
        rw [List.cons_append, List.cons_append, List.cons.injEq] at hrest
        have hx : a.invocationId = e.context.invocationId ++ Char.ofNat 58 :: m := by
          rw [hrest.1]
          exact hlong
        rw [hx, uuid.apart _ m he] at ha
        cases ha
    · obtain ⟨hlong, hrest⟩ := hm
      cases m with
      | nil =>
        rw [List.nil_append, List.cons_append, List.cons.injEq] at hrest
        exact absurd (hrest.2 ▸ List.mem_append_right _ List.mem_cons_self) hcolon
      | cons x m =>
        rw [List.cons_append, List.cons.injEq] at hrest
        have hx : e.context.invocationId = a.invocationId ++ Char.ofNat 58 :: m := by
          rw [hrest.1]
          exact hlong
        rw [hx, uuid.apart _ m ha] at he
        cases he

/-! ## Sizes -/

theorem digitChar_size : ∀ n < 16, (Nat.digitChar n).utf8Size = 1 := by decide

theorem size_hex4 (n : Nat) : size (hex4 n) = 4 := by
  have hlt : ∀ m, m % 16 < 16 := fun m => Nat.mod_lt m (by decide)
  unfold hex4
  simp [digitChar_size _ (hlt _)]

theorem size_escape (c : Char) : size (escape c) ≤ 6 * c.utf8Size := by
  have hpos : 1 ≤ c.utf8Size := Char.utf8Size_pos c
  have hbackslash : (Char.ofNat 92).utf8Size = 1 := rfl
  have htwo : ∀ d : Char, d.utf8Size = 1 → size [Char.ofNat 92, d] ≤ 6 * c.utf8Size := by
    intro d hd
    simp only [size_cons, size_nil, hbackslash, hd]
    omega
  unfold escape
  split
  all_goals first
    | exact htwo _ rfl
    | skip
  split
  · simp only [size_cons, hbackslash, size_hex4, show (Char.ofNat 117).utf8Size = 1 from rfl]
    omega
  · simp only [size_cons, size_nil]
    omega

theorem size_quoted (t : Text) : size (quoted t) ≤ 6 * size t + 2 := by
  have hescape : size (t.flatMap escape) ≤ 6 * size t := by
    induction t with
    | nil => simp
    | cons c t ih =>
      rw [List.flatMap_cons, size_append, size_cons]
      have := size_escape c
      omega
  unfold quoted
  rw [List.cons_append, size_cons, size_append]
  simp only [size_cons, size_nil, show (Char.ofNat 34).utf8Size = 1 from rfl]
  omega

def fieldBytes (fields : List (Text × Text)) : Nat :=
  (fields.map fun f => size (quoted f.1) + size f.2 + 2).sum

theorem size_members (fields : List (Text × Text)) : size (members fields) ≤ fieldBytes fields := by
  have hcolon : (Char.ofNat 58).utf8Size = 1 := rfl
  have hcomma : (Char.ofNat 44).utf8Size = 1 := rfl
  induction fields with
  | nil => simp [members, fieldBytes]
  | cons f fields ih =>
    obtain ⟨name, value⟩ := f
    unfold fieldBytes at ih ⊢
    rw [List.map_cons, List.sum_cons]
    cases fields with
    | nil =>
      unfold members
      simp only [size_append, size_cons, hcolon]
      omega
    | cons g fields =>
      unfold members
      simp only [size_append, size_cons, hcolon, hcomma]
      omega

theorem size_object (fields : List (Text × Text)) : size (object fields) ≤ fieldBytes fields + 2 := by
  have := size_members fields
  unfold object
  simp only [List.cons_append, size_append, size_cons, size_nil,
    show (Char.ofNat 123).utf8Size = 1 from rfl, show (Char.ofNat 125).utf8Size = 1 from rfl]
  omega

theorem fieldBytes_append (fields more : List (Text × Text)) :
    fieldBytes (fields ++ more) = fieldBytes fields + fieldBytes more := by
  unfold fieldBytes
  rw [List.map_append, List.sum_append]

theorem fieldBytes_cons (f : Text × Text) (fields : List (Text × Text)) :
    fieldBytes (f :: fields) = size (quoted f.1) + size f.2 + 2 + fieldBytes fields := by
  unfold fieldBytes
  rw [List.map_cons, List.sum_cons]

theorem fieldBytes_omitempty {α : Type} [DecidableEq α] (empty : α) (name : String) (text : α → Text)
    (a : α) : fieldBytes (omitempty empty name text a) ≤ size (quoted name.toList) + size (text a) + 2 := by
  unfold omitempty
  split
  · exact Nat.zero_le _
  · exact Nat.le_refl _

theorem size_decimal {n : Nat} (h : n ≤ 9007199254740991) : size (decimal n) ≤ 64 := by
  have hlength : (Nat.toDigits 10 n).length ≤ 16 := by
    refine (Nat.length_toDigits_le_iff (by decide) (by decide)).mpr ?_
    exact Nat.lt_of_le_of_lt h (by decide)
  have hchars : ∀ t : Text, size t ≤ 4 * t.length := by
    intro t
    induction t with
    | nil => simp
    | cons c t ih =>
      have := Char.utf8Size_le_four c
      rw [size_cons, List.length_cons]
      omega
  have := hchars (decimal n)
  unfold decimal at this ⊢
  omega

theorem attribution_size {uuid : UuidParser} {a : Attribution} (h : a.valid uuid = true) :
    size a.marshal ≤ 7800 := by
  unfold Attribution.valid at h
  simp only [Bool.and_eq_true, Bool.or_eq_true, decide_eq_true_eq] at h
  obtain ⟨⟨⟨⟨⟨⟨⟨⟨⟨⟨⟨⟨⟨hinvocation, htenant⟩, hsession⟩, hrun⟩, hversion⟩, -⟩, hprovider⟩, -⟩, hmodel⟩,
    hpi⟩, hoperation⟩, hpurpose⟩, hconversation⟩, hrequested⟩ := h
  have hpurposes : size a.purpose ≤ 19 := by
    obtain (hp | hp) | hp := hpurpose <;> rw [hp] <;> decide
  have hversions : size (decimal a.version) = 1 := by
    rw [hversion]
    decide
  have hnames : size (quoted "version".toList) = 9 ∧ size (quoted "invocationId".toList) = 14 ∧
      size (quoted "tenantId".toList) = 10 ∧ size (quoted "sessionId".toList) = 11 ∧
      size (quoted "runId".toList) = 7 ∧ size (quoted "requestedAt".toList) = 13 ∧
      size (quoted "piSessionId".toList) = 13 ∧ size (quoted "conversationId".toList) = 16 ∧
      size (quoted "provider".toList) = 10 ∧ size (quoted "model".toList) = 7 ∧
      size (quoted "purpose".toList) = 9 ∧ size (quoted "operationId".toList) = 13 := by decide
  have hobject := size_object ([("version".toList, decimal a.version),
      ("invocationId".toList, quoted a.invocationId), ("tenantId".toList, quoted a.tenantId),
      ("sessionId".toList, quoted a.sessionId), ("runId".toList, quoted a.runId),
      ("requestedAt".toList, quoted a.requestedAt)] ++
    omitempty [] "piSessionId" quoted a.piSessionId ++
    omitempty none "conversationId" (fun n => decimal (n.getD 0)) a.conversationId ++
    [("provider".toList, quoted a.provider), ("model".toList, quoted a.model),
      ("purpose".toList, quoted a.purpose)] ++
    omitempty [] "operationId" quoted a.operationId)
  simp only [fieldBytes_append, fieldBytes_cons] at hobject
  have hempty : fieldBytes [] = 0 := rfl
  have h1 := size_quoted a.invocationId
  have h2 := size_quoted a.tenantId
  have h3 := size_quoted a.sessionId
  have h4 := size_quoted a.runId
  have h5 := size_quoted a.requestedAt
  have h6 := size_quoted a.piSessionId
  have h7 := size_decimal hconversation
  have h8 := size_quoted a.provider
  have h9 := size_quoted a.model
  have h10 := size_quoted a.purpose
  have h11 := size_quoted a.operationId
  have h12 := fieldBytes_omitempty [] "piSessionId" quoted a.piSessionId
  have h13 := fieldBytes_omitempty none "conversationId" (fun n => decimal (n.getD 0)) a.conversationId
  have h14 := fieldBytes_omitempty [] "operationId" quoted a.operationId
  have hi := uuid.short _ hinvocation
  have ht := uuid.short _ htenant
  have hs := uuid.short _ hsession
  have hr := uuid.short _ hrun
  unfold Attribution.marshal
  omega

theorem interrupted_fits {uuid : UuidParser} {a : Attribution} (h : a.valid uuid = true) {now : Text}
    (hnow : isTimestamp now = true) : size (interrupted a now).marshal ≤ 8192 := by
  have hcontext := attribution_size h
  have hnow := of_decide_eq_true hnow
  have hat := size_quoted now
  have hnames : size (quoted "context".toList) = 9 ∧ size (quoted "kind".toList) = 6 ∧
      size (quoted "occurredAt".toList) = 12 ∧ size (quoted Kind.interrupted.text) = 13 := by decide
  have hobject := size_object [("context".toList, a.marshal), ("kind".toList, quoted Kind.interrupted.text),
    ("occurredAt".toList, quoted now)]
  simp only [fieldBytes_cons] at hobject
  have hempty : fieldBytes [] = 0 := rfl
  have hmarshal : (interrupted a now).marshal = object [("context".toList, a.marshal),
      ("kind".toList, quoted Kind.interrupted.text), ("occurredAt".toList, quoted now)] := rfl
  rw [hmarshal]
  omega

end Metering
end Gateway
end PiCloud
