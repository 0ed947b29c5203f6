import Mathlib.Data.List.Induction
import PiCloud.Lib.InsertionMap
import PiCloud.Lib.Utf16

/-!
# Supervisor.SettlementGate

`PiSettlementGateController`: at most one reminder, before a run settles, that the project's
verification command has not succeeded since the last change.

* `Policy`, `isConfiguredVerification`: the configured command, and the shell commands that run it.
* `Controller`, `observe`, `prepareFollowUp`: the gate and its counters.
* `Running`, `Disturbs`, `Verified`: the same in terms of the events alone.
* `withheld`, `native_withheld`: why a reminder is withheld.
-/

namespace PiCloud
namespace Supervisor
namespace Gate

open Lib

/-! ## The policy -/

/-- What `\s` matches, and `trim` removes. -/
def isSpace (c : CodeUnit) : Bool :=
  (9 ≤ c && c ≤ 13) || c = 32 || c = 0xA0 || c = 0x1680 || (0x2000 ≤ c && c ≤ 0x200A) || c = 0x2028 ||
    c = 0x2029 || c = 0x202F || c = 0x205F || c = 0x3000 || c = 0xFEFF

def joinWith (separator : JsString) (parts : List JsString) : JsString :=
  (parts.intersperse separator).flatten

def normalizedCommand (value : JsString) : JsString :=
  joinWith [32] ((value.splitOnP isSpace).filter (· ≠ []))

/-- `posix.resolve`, of an absolute directory and a path that is not -/
def resolve (directory path : JsString) : JsString :=
  let part (parts : List JsString) (part : JsString) : List JsString :=
    if part = [] ∨ part = [46] then parts
    else if part = [46, 46] then parts.dropLast
    else parts ++ [part]
  47 :: joinWith [47] (((directory ++ 47 :: path).splitOn 47).foldl part [])

/-- A letter, a digit, `.`, `_` or `-` -/
def isPlain (c : CodeUnit) : Bool :=
  (48 ≤ c && c ≤ 57) || (65 ≤ c && c ≤ 90) || (97 ≤ c && c ≤ 122) || c = 46 || c = 95 || c = 45

def quoted (path : JsString) : JsString :=
  39 :: path.flatMap (fun c => if c = 39 then [39, 92, 39, 39] else [c]) ++ [39]

structure PolicyFields where
  command : JsString
  cwd : JsString
  workingDirectory : JsString
  timeoutMs : Nat

def validMachineDirectory (path : JsString) : Bool :=
  1 ≤ path.length && path.length ≤ 4096 && path.head? = some 47 &&
    !path.any (fun c => c ≤ 0x1F || c = 0x7F) && !(1 < path.length && path.getLast? = some 47) &&
    (path = [47] || (path.tail.splitOn 47).all fun part => part ≠ [] && part ≠ [46] && part ≠ [46, 46])

namespace PolicyFields

variable (p : PolicyFields)

/-- `validatePolicy` -/
def valid : Bool :=
  normalizedCommand p.command ≠ [] && p.command.length ≤ 4096 &&
    (p.cwd = [46] || (p.cwd.splitOn 47).all fun part => part ≠ [] && part.all isPlain) &&
    validMachineDirectory p.workingDirectory && 100 ≤ p.timeoutMs && p.timeoutMs ≤ 300000

end PolicyFields

/-- `PiSettlementGatePolicy`, once it is validated -/
structure Policy extends PolicyFields where
  isValid : toPolicyFields.valid = true

/-- The configured command, from its directory or after a change to it. -/
def isConfiguredVerification (command : JsString) (policy : Policy) : Bool :=
  let candidate := normalizedCommand command
  let verification := normalizedCommand policy.command
  (policy.cwd = [46] && candidate = verification) ||
    [policy.cwd, resolve policy.workingDirectory policy.cwd].any fun path =>
      let plain := path ≠ [] && path.all fun c => isPlain c || c = 47
      (if plain then [path, quoted path] else [quoted path]).any fun word =>
        [ascii "cd", ascii "cd --"].any fun cd =>
          candidate = cd ++ [32] ++ word ++ ascii " && " ++ verification

/-! ## The gate -/

/-- The events that the gate looks at. -/
inductive AgentEvent where
  /-- `tool_execution_start`; `command` is that of the arguments, where they have one that is a string -/
  | toolStart (toolCallId : JsString) (toolName : String) (command : Option JsString)
  /-- `tool_execution_end`, and whether its entry has a result that is no error -/
  | toolEnd (toolCallId : JsString) (succeeded : Bool)
  /-- `message_end`, with the stop reason of the assistant message of its entry -/
  | messageEnd (stopReason : Option String)
deriving DecidableEq

structure Controller where
  verificationCalls : InsertionMap JsString Nat := {}
  mutatingCalls : List JsString := []
  mutationObserved : Bool := false
  mutationRevision : Nat := 0
  verifiedRevision : Int := -1
  lastStopReason : Option String := none
  used : Bool := false

def mutatingTools : List String := ["write", "edit", "bash"]

def isVerification (policy : Policy) (toolName : String) (command : Option JsString) : Bool :=
  toolName = "bash" && command.any fun c => isConfiguredVerification c policy

namespace Controller

def observeStart (policy : Policy) (s : Controller) (id : JsString) (toolName : String)
    (command : Option JsString) : Controller :=
  -- ids may come again
  let s := { s with verificationCalls := s.verificationCalls.delete id }
  if toolName ∉ mutatingTools then s
  else
    let s := { s with mutationObserved := true, mutationRevision := s.mutationRevision + 1 }
    if isVerification policy toolName command then
      { s with verificationCalls := s.verificationCalls.set id s.mutationRevision }
    else { s with mutatingCalls := id :: s.mutatingCalls }

def observeEnd (s : Controller) (id : JsString) (succeeded : Bool) : Controller :=
  let revision := s.verificationCalls.get id
  let s := { s with verificationCalls := s.verificationCalls.delete id }
  let s :=
    if id ∈ s.mutatingCalls then
      { s with
        mutatingCalls := s.mutatingCalls.filter (· ≠ id), mutationRevision := s.mutationRevision + 1 }
    else s
  if revision = some s.mutationRevision && succeeded && s.mutatingCalls = [] then
    { s with verifiedRevision := s.mutationRevision }
  else s

def observe (policy : Policy) (s : Controller) : AgentEvent → Controller
  | .toolStart id toolName command => s.observeStart policy id toolName command
  | .toolEnd id succeeded => s.observeEnd id succeeded
  | .messageEnd stopReason => { s with lastStopReason := stopReason.or s.lastStopReason }

def withholds (s : Controller) : Bool :=
  s.used || !s.mutationObserved || s.verifiedRevision = s.mutationRevision || s.lastStopReason.isNone ||
    s.lastStopReason = some "error" || s.lastStopReason = some "aborted"

end Controller

def reminder (policy : Policy) : JsString :=
  joinWith [10]
    [ascii "A project-defined verification step is still required before this Run settles.",
     ascii "Run the configured command from " ++ resolve policy.workingDirectory policy.cwd ++
       ascii ", inspect its result, and address any failure before the final response.",
     ascii "Command: " ++ policy.command,
     ascii "Timeout: " ++ ascii (toString ((policy.timeoutMs + 999) / 1000)) ++ ascii " seconds"]

namespace Controller

def prepareFollowUp (policy : Policy) (s : Controller) : Option JsString × Controller :=
  if s.withholds then (none, s) else (some (reminder policy), { s with used := true })

end Controller

/-! ## Runs -/

inductive Action where
  | observe (event : AgentEvent)
  | prepareFollowUp

def act (policy : Policy) (s : Controller) : Action → Controller
  | .observe event => s.observe policy event
  | .prepareFollowUp => (s.prepareFollowUp policy).2

def run (policy : Policy) (actions : List Action) : Controller := actions.foldl (act policy) {}

def Action.event? : Action → Option AgentEvent
  | .observe event => some event
  | .prepareFollowUp => none

def events (actions : List Action) : List AgentEvent := actions.filterMap Action.event?

/-! ## In terms of the events -/

namespace AgentEvent

/-- The event starts a mutating call: a tool that writes, and not the verification. -/
def Mutates (policy : Policy) (id : JsString) : AgentEvent → Prop
  | .toolStart id' toolName command =>
    id' = id ∧ toolName ∈ mutatingTools ∧ isVerification policy toolName command = false
  | _ => False

def Verifies (policy : Policy) (id : JsString) : AgentEvent → Prop
  | .toolStart id' toolName command => id' = id ∧ isVerification policy toolName command = true
  | _ => False

def Ends (id : JsString) : AgentEvent → Prop
  | .toolEnd id' _ => id' = id
  | _ => False

def About (id : JsString) : AgentEvent → Prop
  | .toolStart id' _ _ | .toolEnd id' _ => id' = id
  | .messageEnd _ => False

def stopReason? : AgentEvent → Option String
  | .messageEnd reason => reason
  | _ => none

end AgentEvent

section Specification

variable (policy : Policy)

def Running (es : List AgentEvent) (id : JsString) : Prop :=
  ∃ before, ∃ e : AgentEvent, ∃ after, es = before ++ e :: after ∧ e.Mutates policy id ∧ ∀ later ∈ after, ¬ later.Ends id

/-- After `es`, the event starts a mutating call, or ends one. -/
def Disturbs (es : List AgentEvent) (e : AgentEvent) : Prop :=
  ∃ id, e.Mutates policy id ∨ e.Ends id ∧ Running policy es id

/-- After `es`, no mutating call starts or ends. -/
def Quiet (es later : List AgentEvent) : Prop :=
  ∀ past e rest, later = past ++ e :: rest → ¬ Disturbs policy (es ++ past) e

/-- A configured verification started when every mutating call had ended, and succeeded, and no mutating
call has started or ended since it started. -/
def Verified (es : List AgentEvent) : Prop :=
  ∃ id before, ∃ verify : AgentEvent, ∃ during after,
    es = before ++ verify :: (during ++ AgentEvent.toolEnd id true :: after) ∧
      verify.Verifies policy id ∧ (∀ e ∈ during, ¬ e.About id) ∧
      (∀ mutating, ¬ Running policy before mutating) ∧
      Quiet policy (before ++ [verify]) (during ++ AgentEvent.toolEnd id true :: after)

def lastReason (es : List AgentEvent) : Option String := (es.filterMap AgentEvent.stopReason?).getLast?

def Reminded (actions : List Action) : Prop :=
  ∃ before after, actions = before ++ Action.prepareFollowUp :: after ∧
    ((run policy before).prepareFollowUp policy).1 ≠ none

/-! ### How events add up -/

variable {policy} {es later : List AgentEvent} {e : AgentEvent} {id : JsString}

theorem running_snoc : Running policy (es ++ [e]) id ↔
    e.Mutates policy id ∨ Running policy es id ∧ ¬ e.Ends id := by
  constructor
  · rintro ⟨before, start, after, hes, hstart, hafter⟩
    obtain rfl | ⟨rest, x, rfl⟩ := List.eq_nil_or_concat' after
    · obtain ⟨-, hlast⟩ := List.append_inj' hes rfl
      cases hlast
      exact .inl hstart
    · have hsplit : es ++ [e] = (before ++ start :: rest) ++ [x] := by rw [hes]; simp
      obtain ⟨rfl, hlast⟩ := List.append_inj' hsplit rfl
      cases hlast
      exact .inr ⟨⟨before, start, rest, rfl, hstart, fun e' he' => hafter e' (List.mem_append_left _ he')⟩,
        hafter e (List.mem_append_right _ List.mem_cons_self)⟩
  · rintro (hstart | ⟨⟨before, start, after, rfl, hstart, hafter⟩, hends⟩)
    · exact ⟨es, e, [], rfl, hstart, nofun⟩
    · refine ⟨before, start, after ++ [e], by simp, hstart, fun e' he' => ?_⟩
      obtain he' | he' := List.mem_append.mp he'
      · exact hafter e' he'
      · rw [List.mem_singleton.mp he']
        exact hends

theorem Quiet.nil : Quiet policy es [] := by
  rintro past e rest h
  cases past <;> cases h

theorem Quiet.snoc (h : Quiet policy es later) (he : ¬ Disturbs policy (es ++ later) e) :
    Quiet policy es (later ++ [e]) := by
  rintro past x rest hsplit
  induction rest using List.reverseRecOn with
  | nil =>
    obtain ⟨hpast, hx⟩ := List.append_inj' hsplit rfl
    cases hx
    exact hpast ▸ he
  | append_singleton rest y _ =>
    have hsplit' : later ++ [e] = (past ++ x :: rest) ++ [y] := by rw [hsplit]; simp
    exact h past x rest (List.append_inj' hsplit' rfl).1

theorem Quiet.running (h : Quiet policy es later) (hid : Running policy es id) :
    Running policy (es ++ later) id := by
  induction later using List.reverseRecOn with
  | nil => rwa [List.append_nil]
  | append_singleton later e ih =>
    have hbefore := ih fun past x rest hsplit => h past x (rest ++ [e]) (by rw [hsplit]; simp)
    rw [← List.append_assoc, running_snoc]
    exact .inr ⟨hbefore, fun hends => h later e [] rfl ⟨id, .inr ⟨hends, hbefore⟩⟩⟩

theorem Verified.snoc (h : Verified policy es) (he : ¬ Disturbs policy es e) :
    Verified policy (es ++ [e]) := by
  obtain ⟨id, before, verify, during, after, rfl, hverify, hduring, hended, hquiet⟩ := h
  refine ⟨id, before, verify, during, after ++ [e], by simp, hverify, hduring, hended, ?_⟩
  have hsplit : during ++ AgentEvent.toolEnd id true :: (after ++ [e]) =
      (during ++ AgentEvent.toolEnd id true :: after) ++ [e] := by simp
  rw [hsplit]
  refine hquiet.snoc ?_
  rwa [List.append_assoc]

/-! ### The counters -/

def Began (policy : Policy) (es : List AgentEvent) (id : JsString) (own : Prop) : Prop :=
  ∃ before verify during, es = before ++ verify :: during ∧ verify.Verifies policy id ∧
    (∀ e ∈ during, ¬ e.About id) ∧ (own → Quiet policy (before ++ [verify]) during)

structure Inv (policy : Policy) (es : List AgentEvent) (s : Controller) : Prop where
  mutating : ∀ id, id ∈ s.mutatingCalls ↔ Running policy es id
  calls : ∀ id r, s.verificationCalls.get id = some r →
    r ≤ s.mutationRevision ∧ Began policy es id (r = s.mutationRevision)
  atMost : s.verifiedRevision ≤ s.mutationRevision
  verified : s.verifiedRevision = s.mutationRevision → Verified policy es
  reason : s.lastStopReason = lastReason es
  observed : (∃ e ∈ es, ∃ id, e.Mutates policy id) → s.mutationObserved = true

theorem Began.snoc {own own' : Prop} (h : Began policy es id own) (habout : ¬ e.About id)
    (hown : own' → own ∧ ¬ Disturbs policy es e) : Began policy (es ++ [e]) id own' := by
  obtain ⟨before, verify, during, rfl, hverify, hduring, hquiet⟩ := h
  refine ⟨before, verify, during ++ [e], by simp, hverify, fun x hx => ?_, fun hown' => ?_⟩
  · obtain hx | hx := List.mem_append.mp hx
    · exact hduring x hx
    · rw [List.mem_singleton.mp hx]
      exact habout
  · obtain ⟨hown, he⟩ := hown hown'
    refine (hquiet hown).snoc ?_
    rwa [List.append_assoc]

theorem lastReason_snoc : lastReason (es ++ [e]) = e.stopReason?.or (lastReason es) := by
  unfold lastReason
  rw [List.filterMap_append, List.getLast?_append]
  cases he : e.stopReason? with
  | none => simp [he]
  | some reason => simp [he]


/-! ### One event -/

variable {s : Controller}

theorem Inv.empty : Inv policy [] {} where
  mutating id := by
    refine ⟨nofun, ?_⟩
    rintro ⟨before, start, after, hes, -⟩
    cases before <;> cases hes
  calls id r h := by cases h
  atMost := by decide
  verified h := by cases h
  reason := rfl
  observed := fun ⟨_, he, _⟩ => nomatch he

theorem not_mutates_of_verifies {id' : JsString} (h : e.Verifies policy id) : ¬ e.Mutates policy id' := by
  cases e with
  | toolStart call toolName command =>
    exact fun hmutates => nomatch h.2.symm.trans hmutates.2.2
  | toolEnd => exact nofun
  | messageEnd => exact nofun

theorem Inv.messageEnd (h : Inv policy es s) (reason : Option String) :
    Inv policy (es ++ [AgentEvent.messageEnd reason]) (s.observe policy (.messageEnd reason)) := by
  have hquiet : ¬ Disturbs policy es (.messageEnd reason) := by
    rintro ⟨id, hmutates | ⟨hends, -⟩⟩
    · exact hmutates
    · exact hends
  refine ⟨fun id => ?_, fun id r hget => ?_, h.atMost, fun heq => (h.verified heq).snoc hquiet, ?_, ?_⟩
  · rw [running_snoc]
    exact (h.mutating id).trans ⟨fun hid => .inr ⟨hid, nofun⟩, fun hid => (hid.resolve_left nofun).1⟩
  · obtain ⟨hle, hbegan⟩ := h.calls id r hget
    exact ⟨hle, hbegan.snoc nofun fun heq => ⟨heq, hquiet⟩⟩
  · rw [lastReason_snoc, ← h.reason]
    rfl
  · rintro ⟨e, he, id, hmutates⟩
    obtain he | he := List.mem_append.mp he
    · exact h.observed ⟨e, he, id, hmutates⟩
    · rw [List.mem_singleton.mp he] at hmutates
      exact hmutates.elim

theorem Inv.toolStart (h : Inv policy es s) (id : JsString) (toolName : String) (command : Option JsString) :
    Inv policy (es ++ [AgentEvent.toolStart id toolName command])
      (s.observe policy (.toolStart id toolName command)) := by
  have hreason : s.lastStopReason = lastReason (es ++ [AgentEvent.toolStart id toolName command]) := by
    rw [lastReason_snoc, ← h.reason]
    rfl
  have hcalls : ∀ {v r}, (s.verificationCalls.delete id).get v = some r →
      v ≠ id ∧ s.verificationCalls.get v = some r := by
    intro v r hget
    exact InsertionMap.get_delete_iff.mp hget
  dsimp only [Controller.observe, Controller.observeStart]
  split
  · rename_i htool
    have hnot : ∀ x, ¬ AgentEvent.Mutates policy x (.toolStart id toolName command) := fun x hx => htool hx.2.1
    have hquiet : ¬ Disturbs policy es (.toolStart id toolName command) := by
      rintro ⟨x, hmutates | ⟨hends, -⟩⟩
      · exact hnot x hmutates
      · exact hends
    refine ⟨fun x => ?_, fun v r hget => ?_, h.atMost, fun heq => (h.verified heq).snoc hquiet, hreason, ?_⟩
    · rw [running_snoc]
      exact (h.mutating x).trans ⟨fun hx => .inr ⟨hx, by rintro ⟨⟩⟩, fun hx => (hx.resolve_left (hnot x)).1⟩
    · obtain ⟨hne, hget⟩ := hcalls hget
      obtain ⟨hle, hbegan⟩ := h.calls v r hget
      exact ⟨hle, hbegan.snoc (Ne.symm hne) fun heq => ⟨heq, hquiet⟩⟩
    · rintro ⟨e, he, x, hmutates⟩
      obtain he | he := List.mem_append.mp he
      · exact h.observed ⟨e, he, x, hmutates⟩
      · rw [List.mem_singleton.mp he] at hmutates
        exact absurd hmutates (hnot x)
  · rename_i htool
    have htool := not_not.mp htool
    -- the revision goes on, so that no earlier verification counts
    have hold : ∀ {v r}, s.verificationCalls.get v = some r → r ≤ s.mutationRevision := fun hget =>
      (h.calls _ _ hget).1
    have hatMost : s.verifiedRevision < (s.mutationRevision + 1 : Nat) := by
      have := h.atMost
      omega
    have hbegan : ∀ {v r}, (s.verificationCalls.delete id).get v = some r →
        r ≤ s.mutationRevision + 1 ∧
          Began policy (es ++ [AgentEvent.toolStart id toolName command]) v (r = s.mutationRevision + 1) := by
      intro v r hget
      obtain ⟨hne, hget⟩ := hcalls hget
      have hle := hold hget
      refine ⟨Nat.le_succ_of_le hle, (h.calls v r hget).2.snoc (Ne.symm hne) fun heq => ?_⟩
      omega
    split
    · rename_i hverification
      have hverifies : AgentEvent.Verifies policy id (.toolStart id toolName command) := ⟨rfl, hverification⟩
      have hnot : ∀ x, ¬ AgentEvent.Mutates policy x (.toolStart id toolName command) := fun x =>
        not_mutates_of_verifies hverifies
      refine ⟨fun x => ?_, fun v r hget => ?_, ?_, fun heq => ?_, hreason, fun _ => rfl⟩
      · rw [running_snoc]
        exact (h.mutating x).trans ⟨fun hx => .inr ⟨hx, by rintro ⟨⟩⟩, fun hx => (hx.resolve_left (hnot x)).1⟩
      · dsimp only at hget ⊢
        rw [InsertionMap.get_set] at hget
        split at hget
        · rename_i heq
          cases hget
          exact ⟨Nat.le_refl _, es, _, [], rfl, ⟨heq.symm, hverification⟩, by simp, fun _ => .nil⟩
        · exact hbegan hget
      · exact Int.le_of_lt hatMost
      · exact absurd heq (Int.ne_of_lt hatMost)
    · rename_i hverification
      have hmutates : AgentEvent.Mutates policy id (.toolStart id toolName command) :=
        ⟨rfl, htool, (Bool.not_eq_true _).mp hverification⟩
      refine ⟨fun x => ?_, fun v r hget => hbegan hget, Int.le_of_lt hatMost, fun heq => absurd heq (Int.ne_of_lt hatMost), hreason,
        fun _ => rfl⟩
      rw [running_snoc, List.mem_cons, h.mutating]
      constructor
      · rintro (rfl | hx)
        · exact .inl hmutates
        · exact .inr ⟨hx, by rintro ⟨⟩⟩
      · rintro (hx | hx)
        · exact .inl hx.1.symm
        · exact .inr hx.1


theorem running_verify {verify : AgentEvent} (h : verify.Verifies policy id) {x : JsString} :
    Running policy (es ++ [verify]) x ↔ Running policy es x := by
  rw [running_snoc]
  have hends : ¬ verify.Ends x := by
    cases verify with
    | toolStart => exact nofun
    | toolEnd => exact h.elim
    | messageEnd => exact nofun
  exact ⟨fun hx => (hx.resolve_left (not_mutates_of_verifies h)).1, fun hx => .inr ⟨hx, hends⟩⟩

theorem Inv.toolEnd (h : Inv policy es s) (id : JsString) (succeeded : Bool) :
    Inv policy (es ++ [AgentEvent.toolEnd id succeeded]) (s.observe policy (.toolEnd id succeeded)) := by
  have hreason : s.lastStopReason = lastReason (es ++ [AgentEvent.toolEnd id succeeded]) := by
    rw [lastReason_snoc, ← h.reason]
    rfl
  have hobserved : (∃ e ∈ es ++ [AgentEvent.toolEnd id succeeded], ∃ id, e.Mutates policy id) →
      s.mutationObserved = true := by
    rintro ⟨e, he, x, hmutates⟩
    obtain he | he := List.mem_append.mp he
    · exact h.observed ⟨e, he, x, hmutates⟩
    · rw [List.mem_singleton.mp he] at hmutates
      exact hmutates.elim
  have hcalls : ∀ {v r}, (s.verificationCalls.delete id).get v = some r →
      v ≠ id ∧ s.verificationCalls.get v = some r := by
    intro v r hget
    exact InsertionMap.get_delete_iff.mp hget
  have hrunning : ∀ x, Running policy (es ++ [AgentEvent.toolEnd id succeeded]) x ↔ Running policy es x ∧ x ≠ id := by
    intro x
    rw [running_snoc]
    exact ⟨fun hx => ⟨(hx.resolve_left (by rintro ⟨⟩)).1, fun heq => (hx.resolve_left (by rintro ⟨⟩)).2 heq.symm⟩,
      fun hx => .inr ⟨hx.1, fun heq => hx.2 heq.symm⟩⟩
  dsimp only [Controller.observe, Controller.observeEnd]
  by_cases hmem : id ∈ s.mutatingCalls
  · -- the revision goes on, so that no earlier verification counts
    rw [if_pos hmem]
    have hold : s.verificationCalls.get id ≠ some (s.mutationRevision + 1) := by
      intro hget
      exact Nat.not_succ_le_self _ (h.calls _ _ hget).1
    have hatMost : s.verifiedRevision < (s.mutationRevision + 1 : Nat) := by
      have := h.atMost
      omega
    rw [if_neg (by simp [hold])]
    refine ⟨fun x => ?_, fun v r hget => ?_, Int.le_of_lt hatMost,
      fun heq => absurd heq (Int.ne_of_lt hatMost), hreason, hobserved⟩
    · rw [hrunning, ← h.mutating]
      simp
    · obtain ⟨hne, hget⟩ := hcalls hget
      obtain ⟨hle, hbegan⟩ := h.calls v r hget
      refine ⟨Nat.le_succ_of_le hle, hbegan.snoc (Ne.symm hne) fun heq => ?_⟩
      dsimp only at heq
      omega
  · rw [if_neg hmem]
    have hquiet : ¬ Disturbs policy es (.toolEnd id succeeded) := by
      rintro ⟨x, hmutates | ⟨rfl, hx⟩⟩
      · exact hmutates
      · exact hmem ((h.mutating _).mpr hx)
    have hmutating : ∀ x, x ∈ s.mutatingCalls ↔ Running policy (es ++ [AgentEvent.toolEnd id succeeded]) x := by
      intro x
      rw [hrunning, ← h.mutating]
      exact ⟨fun hx => ⟨hx, fun heq => hmem (heq ▸ hx)⟩, fun hx => hx.1⟩
    have hbegan : ∀ v r, (s.verificationCalls.delete id).get v = some r →
        r ≤ s.mutationRevision ∧
          Began policy (es ++ [AgentEvent.toolEnd id succeeded]) v (r = s.mutationRevision) := by
      intro v r hget
      obtain ⟨hne, hget⟩ := hcalls hget
      obtain ⟨hle, hbegan⟩ := h.calls v r hget
      exact ⟨hle, hbegan.snoc (Ne.symm hne) fun heq => ⟨heq, hquiet⟩⟩
    split
    · rename_i hcounts
      dsimp only at hcounts
      rw [Bool.and_eq_true, Bool.and_eq_true, decide_eq_true_eq, decide_eq_true_eq] at hcounts
      obtain ⟨⟨hget, rfl⟩, hnone⟩ := hcounts
      refine ⟨hmutating, hbegan, Int.le_refl _, fun _ => ?_, hreason, hobserved⟩
      obtain ⟨-, before, verify, during, rfl, hverify, hduring, hquiet'⟩ := h.calls id _ hget
      have hquiet' := hquiet' rfl
      refine ⟨id, before, verify, during, [], by simp, hverify, hduring, fun x hx => ?_, ?_⟩
      · -- a call that was running when the verification started is running now
        have hnow := hquiet'.running ((running_verify hverify).mpr hx)
        rw [List.append_assoc] at hnow
        have := (h.mutating x).mpr hnow
        rw [hnone] at this
        cases this
      · refine hquiet'.snoc ?_
        rwa [List.append_assoc]
    · exact ⟨hmutating, hbegan, h.atMost, fun heq => (h.verified heq).snoc hquiet, hreason, hobserved⟩

theorem Inv.observe (h : Inv policy es s) (e : AgentEvent) : Inv policy (es ++ [e]) (s.observe policy e) := by
  cases e with
  | toolStart id toolName command => exact h.toolStart id toolName command
  | toolEnd id succeeded => exact h.toolEnd id succeeded
  | messageEnd reason => exact h.messageEnd reason

/-! ### Runs -/

variable {actions : List Action}

theorem run_snoc (actions : List Action) (a : Action) :
    run policy (actions ++ [a]) = act policy (run policy actions) a := by
  unfold run
  rw [List.foldl_append]
  rfl

theorem prepareFollowUp_inv (h : Inv policy es s) : Inv policy es (s.prepareFollowUp policy).2 := by
  unfold Controller.prepareFollowUp
  split
  · exact h
  · exact ⟨h.mutating, h.calls, h.atMost, h.verified, h.reason, h.observed⟩

theorem run_inv (actions : List Action) : Inv policy (events actions) (run policy actions) := by
  induction actions using List.reverseRecOn with
  | nil => exact .empty
  | append_singleton actions a ih =>
    rw [run_snoc]
    unfold events
    rw [List.filterMap_append]
    cases a with
    | observe e => exact ih.observe e
    | prepareFollowUp =>
      rw [show List.filterMap Action.event? [Action.prepareFollowUp] = [] from rfl, List.append_nil]
      exact prepareFollowUp_inv ih

theorem observe_used (s : Controller) (e : AgentEvent) : (s.observe policy e).used = s.used := by
  cases e with
  | messageEnd => rfl
  | toolStart id toolName command =>
    dsimp only [Controller.observe, Controller.observeStart]
    split
    · rfl
    · split <;> rfl
  | toolEnd id succeeded =>
    dsimp only [Controller.observe, Controller.observeEnd]
    split <;> split <;> rfl

theorem reminded_of_used (h : (run policy actions).used = true) : Reminded policy actions := by
  induction actions using List.reverseRecOn with
  | nil => cases h
  | append_singleton actions a ih =>
    rw [run_snoc] at h
    have hearlier : Reminded policy actions → Reminded policy (actions ++ [a]) := by
      rintro ⟨before, after, rfl, hgiven⟩
      exact ⟨before, after ++ [a], by simp, hgiven⟩
    cases a with
    | observe e =>
      refine hearlier (ih ?_)
      exact (observe_used _ e).symm.trans h
    | prepareFollowUp =>
      by_cases hwithholds : (run policy actions).withholds = true
      · refine hearlier (ih ?_)
        dsimp only [act, Controller.prepareFollowUp] at h
        rwa [if_pos hwithholds] at h
      · refine ⟨actions, [], rfl, ?_⟩
        unfold Controller.prepareFollowUp
        rw [if_neg hwithholds]
        exact nofun

theorem causes (h : ((run policy actions).prepareFollowUp policy).1 = none)
    (hmutated : ∃ e ∈ events actions, ∃ id, e.Mutates policy id) :
    Verified policy (events actions) ∨ (run policy actions).used = true ∨
      lastReason (events actions) = some "error" ∨ lastReason (events actions) = some "aborted" ∨
      lastReason (events actions) = none := by
  have hinv : Inv policy (events actions) (run policy actions) := run_inv actions
  have hwithholds : (run policy actions).withholds = true := by
    by_contra hnot
    unfold Controller.prepareFollowUp at h
    rw [if_neg hnot] at h
    cases h
  unfold Controller.withholds at hwithholds
  rw [hinv.observed hmutated, hinv.reason] at hwithholds
  simp only [Bool.or_eq_true, Bool.not_true, Bool.false_eq_true, or_false, decide_eq_true_eq,
    Option.isNone_iff_eq_none] at hwithholds
  rcases hwithholds with (((hused | hverified) | hnone) | herror) | haborted
  · exact .inr (.inl hused)
  · exact .inl (hinv.verified hverified)
  · exact .inr (.inr (.inr (.inr hnone)))
  · exact .inr (.inr (.inl herror))
  · exact .inr (.inr (.inr (.inl haborted)))

/-- In a run with a mutating call, a reminder is withheld after a verification that holds, after a reminder,
or where the run has not stopped but with an error or an abort. -/
theorem withheld (h : ((run policy actions).prepareFollowUp policy).1 = none)
    (hmutated : ∃ e ∈ events actions, ∃ id, e.Mutates policy id) :
    Verified policy (events actions) ∨ Reminded policy actions ∨
      lastReason (events actions) = some "error" ∨ lastReason (events actions) = some "aborted" ∨
      lastReason (events actions) = none :=
  (causes h hmutated).imp id (Or.imp reminded_of_used id)

/-! ### Committed progress -/

/-- A message of a committed entry. -/
inductive Message where
  | user (texts : List JsString)
  | assistant (stopReason : String) (calls : List (JsString × String × Option JsString))
  | toolResult (toolCallId : JsString) (isError : Bool)

structure Entry where
  /-- written by a generation, and not for a submission -/
  byTask : Bool
  model : List Message

namespace Entry

variable (entry : Entry)

def stopReason? : Option String :=
  entry.model.findSome? fun
    | .assistant reason _ => some reason
    | _ => none

def succeeded : Bool :=
  entry.model.any fun
    | .toolResult _ isError => !isError
    | _ => false

def isReminder : Bool :=
  entry.byTask && entry.model.any fun
    | .user texts => texts.any fun text =>
      (ascii "A project-defined verification step is still required before this Run settles.").isPrefixOf text
    | _ => false

def events : List AgentEvent :=
  entry.model.flatMap fun
    | .user _ => []
    | .assistant _ calls =>
      .messageEnd entry.stopReason? :: calls.map fun call => .toolStart call.1 call.2.1 call.2.2
    | .toolResult id _ => [.toolEnd id entry.succeeded]

end Entry

def nativeEvents (entries : List Entry) (stopReason : String) : List AgentEvent :=
  entries.flatMap Entry.events ++ [AgentEvent.messageEnd (some stopReason)]

/-- `prepareNativeSettlementFollowUp`, on the entries from the oldest on -/
def prepareNativeSettlementFollowUp (policy : Policy) (entries : List Entry) (stopReason : String) :
    Option JsString :=
  if entries.any Entry.isReminder then none
  else ((run policy ((nativeEvents entries stopReason).map .observe)).prepareFollowUp policy).1

theorem events_observe (es : List AgentEvent) : events (es.map .observe) = es := by
  unfold events
  rw [List.filterMap_map]
  exact List.filterMap_some

theorem native_withheld {entries : List Entry} {stopReason : String}
    (h : prepareNativeSettlementFollowUp policy entries stopReason = none)
    (hmutated : ∃ e ∈ nativeEvents entries stopReason, ∃ id, e.Mutates policy id) :
    Verified policy (nativeEvents entries stopReason) ∨ (∃ entry ∈ entries, entry.isReminder = true) ∨
      stopReason = "error" ∨ stopReason = "aborted" := by
  unfold prepareNativeSettlementFollowUp at h
  split at h
  · rename_i hreminder
    exact .inr (.inl (List.any_eq_true.mp hreminder))
  · have hevents := events_observe (nativeEvents entries stopReason)
    have hlast : lastReason (nativeEvents entries stopReason) = some stopReason := lastReason_snoc
    obtain hverified | hused | hreason := causes h (hevents.symm ▸ hmutated)
    · exact .inl (hevents ▸ hverified)
    · obtain ⟨before, after, hactions, -⟩ := reminded_of_used hused
      have hin : Action.prepareFollowUp ∈ (nativeEvents entries stopReason).map .observe := by
        rw [hactions]
        exact List.mem_append_right _ List.mem_cons_self
      obtain ⟨e, -, he⟩ := List.mem_map.mp hin
      cases he
    · rw [hevents, hlast, Option.some_inj, Option.some_inj] at hreason
      obtain herror | haborted | hnone := hreason
      · exact .inr (.inr (.inl herror))
      · exact .inr (.inr (.inr haborted))
      · cases hnone

end Specification

/-! ## A policy -/

/-- `npm test`, in the directory of the project -/
def npmTest : Policy where
  command := ascii "npm test"
  cwd := [46]
  workingDirectory := ascii "/workspace"
  timeoutMs := 120000
  isValid := by decide

def writeOnce : List Action :=
  [.observe (.toolStart [49] "write" none), .observe (.toolEnd [49] true)]

def writeAndVerify : List Action :=
  writeOnce ++ [Action.observe (.toolStart [50] "bash" (some (ascii "cd /workspace &&  npm test"))),
    .observe (.toolEnd [50] true), .observe (.messageEnd (some "stop"))]

theorem withheld_writeAndVerify :
    ((run npmTest writeAndVerify).prepareFollowUp npmTest).1 = none ∧
      (Verified npmTest (events writeAndVerify) ∨ Reminded npmTest writeAndVerify ∨
        lastReason (events writeAndVerify) = some "error" ∨
        lastReason (events writeAndVerify) = some "aborted" ∨ lastReason (events writeAndVerify) = none) := by
  have hnone : ((run npmTest writeAndVerify).prepareFollowUp npmTest).1 = none := by decide
  exact ⟨hnone, withheld hnone ⟨.toolStart [49] "write" none, by decide, [49], rfl, by decide, rfl⟩⟩

/-- Without an assistant message that tells why the run stopped, the reminder is withheld. -/
theorem withheld_unstopped :
    ((run npmTest writeOnce).prepareFollowUp npmTest).1 = none ∧
      (∃ e ∈ events writeOnce, ∃ id, e.Mutates npmTest id) ∧ ¬ Verified npmTest (events writeOnce) ∧
      ¬ Reminded npmTest writeOnce ∧ lastReason (events writeOnce) ≠ some "error" ∧
      lastReason (events writeOnce) ≠ some "aborted" := by
  refine ⟨by decide, ⟨.toolStart [49] "write" none, by decide, [49], rfl, by decide, rfl⟩, ?_, ?_, by decide,
    by decide⟩
  · rintro ⟨id, before, verify, during, after, hes, hverify, -⟩
    have hin : verify ∈ events writeOnce := by
      rw [hes]
      exact List.mem_append_right _ List.mem_cons_self
    obtain rfl | hin := List.mem_cons.mp hin
    · exact nomatch hverify.2
    · rw [List.mem_singleton.mp hin] at hverify
      exact hverify
  · rintro ⟨before, after, hactions, -⟩
    have hin : Action.prepareFollowUp ∈ writeOnce := by
      rw [hactions]
      exact List.mem_append_right _ List.mem_cons_self
    simp [writeOnce] at hin

def verifiedEntries : List Entry :=
  [⟨true, [.assistant "toolUse" [([49], "write", none)]]⟩, ⟨true, [.toolResult [49] false]⟩,
    ⟨true, [.assistant "toolUse" [([50], "bash", some (ascii "npm test"))]]⟩,
    ⟨true, [.toolResult [50] false]⟩]

theorem native_withheld_verifiedEntries :
    Verified npmTest (nativeEvents verifiedEntries "stop") ∨
      (∃ entry ∈ verifiedEntries, entry.isReminder = true) ∨ "stop" = "error" ∨ "stop" = "aborted" :=
  native_withheld (by decide) ⟨.toolStart [49] "write" none, by decide, [49], rfl, by decide, rfl⟩

end Gate
end Supervisor
end PiCloud
