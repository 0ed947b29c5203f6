import Mathlib
import PiCloud.Lib.Outbox
import PiCloud.Lib.Run
import PiCloud.Lib.Utf16

/-!
# EventLog.PublicationWriter

`KafkaPublicationWriter` of `kafka-publication-writer.ts`: one transactional producer for a log
partition, and the requests that wait for a transaction.

* `PublicationWriter.act`: a call, an answer of the broker, or a turn of the writer itself.
* `Inv`: every call is answered once or still waits; what was sent follows the admissions.
* `potential`: how many turns the writer has left before every call is answered.
-/

namespace PiCloud
namespace EventLog

open Lib

structure KafkaPublicationRecord where
  factId : JsString
  sessionId : JsString
  value : JsString
deriving DecidableEq

/-- A call of `append`, with the number of the promise it returned. -/
abbrev Append := Ticket KafkaPublicationRecord

inductive Answer where
  | durable
  /-- `PublicationNotSentError` -/
  | notSent
  /-- the failure of the transaction -/
  | failed
deriving DecidableEq

/-! ## The writer -/

/-- `#connect` -/
inductive Connect where
  | connecting | initializing | disposing
deriving DecidableEq

/-- `#flush`; the batch is there until it is answered. -/
inductive Flush where
  /-- `commitPublication` waits for its lock and looks at the assignment -/
  | locking (batch : List Append) (producer : Nat)
  | beginning (batch : List Append) (producer : Nat)
  /-- the records are with the producer -/
  | committing (batch : List Append) (producer : Nat)
  | aborting (producer : Nat)
  | disconnecting (producer : Nat)
  /-- `start` was called for the next producer -/
  | recovering
  | recovered (ok : Bool)
  | finished
deriving DecidableEq

inductive Closing where
  | flushing | opening | disconnecting | done
deriving DecidableEq

structure PublicationWriter where
  producer : Option Nat := none
  incarnations : Nat := 0
  opening : Option Connect := none
  closed : Bool := false
  pending : List Append := []
  flushing : Option Flush := none
  timer : Bool := false
  failure : Bool := false
  retryAfter : Nat := 0
  closing : Option Closing := none
  /-- calls of `append` that wait for `start` -/
  joining : List Append := []
  /-- those whose `start` has ended, and how -/
  resumed : List (Append × Bool) := []
  calls : Nat := 0
  /-- what was pushed to `#pending` -/
  admitted : List Append := []
  /-- what each transaction produced -/
  transactions : List (List Append) := []
  settled : List (Nat × Answer) := []
deriving DecidableEq

inductive WriterAction where
  | append (record : KafkaPublicationRecord) (now : Nat) (current : Bool)
  | start (current : Bool)
  | close
  | connected (ok : Bool)
  | initialized (ok current : Bool)
  | disposed
  | resume (now : Nat) (current : Bool)
  | fire (current : Bool)
  | entered (ok : Bool)
  /-- `produced` records are taken before `produce` throws, if it does -/
  | begun (ok : Bool) (produced : Nat)
  | committed (ok : Bool)
  | aborted
  | disconnected (current : Bool)
  | recovered (now : Nat)
  | finish
  | closeFlushed
  | closeOpened
  | closeDisconnected
deriving DecidableEq

namespace PublicationWriter

def settle (s : PublicationWriter) (requests : List Append) (answer : Answer) : PublicationWriter :=
  { s with settled := s.settled ++ Outbox.answered requests answer }

/-- `this.#opening ??= this.#connect()` -/
def connect (s : PublicationWriter) : PublicationWriter :=
  { s with opening := s.opening.or (some .connecting) }

def schedule (s : PublicationWriter) : PublicationWriter :=
  if s.timer = true ∨ s.flushing ≠ none ∨ s.closed = true ∨ s.pending = [] then s
  else { s with timer := true }

/-- The end of `append`. -/
def enqueue (s : PublicationWriter) (request : Append) : PublicationWriter :=
  schedule { s with pending := s.pending ++ [request], admitted := s.admitted ++ [request] }

def append (s : PublicationWriter) (record : KafkaPublicationRecord) (now : Nat)
    (current : Bool) : PublicationWriter :=
  let request : Append := ⟨s.calls, record⟩
  let s := { s with calls := s.calls + 1 }
  if s.closed = true ∨ current = false then s.settle [request] .notSent
  else if s.producer = none ∨ s.failure = true then
    if s.flushing ≠ none ∨ now < s.retryAfter then s.settle [request] .notSent
    else { s.connect with joining := s.joining ++ [request] }
  else s.enqueue request

/-- A call that waited for `start`. -/
def resume (s : PublicationWriter) (request : Append) (ok : Bool) (now : Nat) (current : Bool) :
    PublicationWriter :=
  if ok = false then { s with retryAfter := now + 1000 }.settle [request] .notSent
  else if s.closed = true ∨ current = false then s.settle [request] .notSent
  else s.enqueue request

def start (s : PublicationWriter) (current : Bool) : PublicationWriter :=
  if s.closed = true ∨ current = false then s
  else if s.producer ≠ none ∧ s.failure = false then s
  else s.connect

/-- `#connect` has ended, and those who wait for it go on. -/
def opened (s : PublicationWriter) (ok : Bool) : PublicationWriter :=
  { s with
    opening := none
    joining := []
    resumed := s.resumed ++ s.joining.map fun r => (r, ok)
    flushing := if s.flushing = some .recovering then some (.recovered ok) else s.flushing }

def initialized (s : PublicationWriter) (ok current : Bool) : PublicationWriter :=
  if ok = false ∨ s.closed = true ∨ current = false then { s with opening := some .disposing }
  else opened { s with
    producer := some s.incarnations
    incarnations := s.incarnations + 1
    failure := false } true

/-- How many requests the next transaction takes. -/
def batchCount : Nat → Nat → List Append → Nat
  | count, _, [] => count
  | count, bytes, request :: pending =>
    let size := utf8Bytes request.item.value
    if count ≠ 0 ∧ (count ≥ 128 ∨ bytes + size > 4 * 1024 * 1024) then count
    else batchCount (count + 1) (bytes + size) pending

/-- The timer, and `#flush` up to the call of `commitPublication`. -/
def fire (s : PublicationWriter) (current : Bool) : PublicationWriter :=
  let count := batchCount 0 0 s.pending
  let batch := s.pending.take count
  let s := { s with timer := false, pending := s.pending.drop count }
  match s.producer with
  | some producer =>
    if s.closed = true ∨ current = false then
      { s with flushing := some .finished }.settle batch .notSent
    else { s with flushing := some (.locking batch producer) }
  | none => { s with flushing := some .finished }.settle batch .notSent

/-- The `catch` of `#flush`. -/
def fail (s : PublicationWriter) (batch : List Append) (producer : Nat) : PublicationWriter :=
  let s := { s with failure := true, flushing := some (.aborting producer) }.settle batch .failed
  { s with pending := [] }.settle s.pending .notSent

def begun (s : PublicationWriter) (batch : List Append) (producer : Nat) (ok : Bool)
    (produced : Nat) : PublicationWriter :=
  if ok = false then s.fail batch producer
  else
    let s := { s with transactions := s.transactions ++ [batch.take produced] }
    if produced < batch.length then s.fail batch producer
    else { s with flushing := some (.committing batch producer) }

def committed (s : PublicationWriter) (batch : List Append) (producer : Nat) (ok : Bool) :
    PublicationWriter :=
  if ok then { s with flushing := some .finished }.settle batch .durable
  else s.fail batch producer

def disconnected (s : PublicationWriter) (producer : Nat) (current : Bool) : PublicationWriter :=
  let s := { s with producer := if s.producer = some producer then none else s.producer }
  if s.closed = true ∨ current = false then { s with flushing := some .finished }
  else if s.producer ≠ none ∧ s.failure = false then { s with flushing := some (.recovered true) }
  else { s.connect with flushing := some .recovering }

def recovered (s : PublicationWriter) (ok : Bool) (now : Nat) : PublicationWriter :=
  if ok then { s with flushing := some .finished }
  else { s with failure := true, retryAfter := now + 1000, flushing := some .finished }

def close (s : PublicationWriter) : PublicationWriter :=
  if s.closing ≠ none then s
  else { s with
    closed := true
    timer := false
    pending := []
    closing := some .flushing }.settle s.pending .notSent

def closeOpened (s : PublicationWriter) : PublicationWriter :=
  if s.producer = none then { s with closing := some .done }
  else { s with producer := none, closing := some .disconnecting }

def act (s : PublicationWriter) : WriterAction → Option PublicationWriter
  | .append record now current => some (s.append record now current)
  | .start current => some (s.start current)
  | .close => some s.close
  | .connected ok =>
    if s.opening = some .connecting then
      some { s with opening := some (if ok then .initializing else .disposing) }
    else none
  | .initialized ok current =>
    if s.opening = some .initializing then some (s.initialized ok current) else none
  | .disposed => if s.opening = some .disposing then some (s.opened false) else none
  | .resume now current =>
    match s.resumed with
    | (request, ok) :: resumed => some ({ s with resumed }.resume request ok now current)
    | [] => none
  | .fire current => if s.timer then some (s.fire current) else none
  | .entered ok =>
    match s.flushing with
    | some (.locking batch producer) =>
      if ok then some { s with flushing := some (.beginning batch producer) }
      else some (s.fail batch producer)
    | _ => none
  | .begun ok produced =>
    match s.flushing with
    | some (.beginning batch producer) => some (s.begun batch producer ok produced)
    | _ => none
  | .committed ok =>
    match s.flushing with
    | some (.committing batch producer) => some (s.committed batch producer ok)
    | _ => none
  | .aborted =>
    match s.flushing with
    | some (.aborting producer) => some { s with flushing := some (.disconnecting producer) }
    | _ => none
  | .disconnected current =>
    match s.flushing with
    | some (.disconnecting producer) => some (s.disconnected producer current)
    | _ => none
  | .recovered now =>
    match s.flushing with
    | some (.recovered ok) => some (s.recovered ok now)
    | _ => none
  | .finish =>
    if s.flushing = some .finished then some (schedule { s with flushing := none }) else none
  | .closeFlushed =>
    if s.closing = some .flushing ∧ s.flushing = none then some { s with closing := some .opening }
    else none
  | .closeOpened =>
    if s.closing = some .opening ∧ s.opening = none then some s.closeOpened else none
  | .closeDisconnected =>
    if s.closing = some .disconnecting then some { s with closing := some .done } else none

def system : System PublicationWriter WriterAction where
  init s := s = {}
  step s a t := s.act a = some t

/-! ## The queue of the writer -/

end PublicationWriter

def Flush.batch : Flush → List Append
  | .locking batch _ | .beginning batch _ | .committing batch _ => batch
  | _ => []

def Flush.unsent : Flush → List Append
  | .locking batch _ | .beginning batch _ => batch
  | _ => []

namespace PublicationWriter

def batch (s : PublicationWriter) : List Append := (s.flushing.map Flush.batch).getD []

def unsent (s : PublicationWriter) : List Append := (s.flushing.map Flush.unsent).getD []

def outbox (s : PublicationWriter) : Outbox KafkaPublicationRecord Answer where
  issued := s.calls
  waiting := s.resumed.map Prod.fst ++ s.joining
  queue := s.pending
  held := s.batch
  unsent := s.unsent
  admitted := s.admitted
  sent := s.transactions.flatten
  answers := s.settled

open Outbox (Move Moves)

theorem schedule_outbox (s : PublicationWriter) : s.schedule.outbox = s.outbox := by
  unfold schedule
  split <;> rfl

theorem enqueue_call (s : PublicationWriter) (record : KafkaPublicationRecord) :
    Move s.outbox ({ s with calls := s.calls + 1 }.enqueue ⟨s.calls, record⟩).outbox := by
  rw [enqueue, schedule_outbox]
  exact Move.queueCall s.outbox record

theorem append_moves (s : PublicationWriter) (record : KafkaPublicationRecord) (now : Nat)
    (current : Bool) : Moves s.outbox (s.append record now current).outbox := by
  simp only [append]
  split
  · exact .single (Move.refuseCall s.outbox .notSent)
  split
  · split
    · exact .single (Move.refuseCall s.outbox .notSent)
    · have hmove := Move.waitCall s.outbox record
      simp only [outbox, List.append_assoc] at hmove
      exact .single hmove
  · exact .single (s.enqueue_call record)

theorem resume_moves (s : PublicationWriter) (request : Append) (ok : Bool)
    (resumed : List (Append × Bool)) (hs : s.resumed = (request, ok) :: resumed) (now : Nat)
    (current : Bool) :
    Moves s.outbox ({ s with resumed }.resume request ok now current).outbox := by
  have hwaiting : s.outbox.waiting = request :: (resumed.map Prod.fst ++ s.joining) := by
    simp only [outbox, hs, List.map_cons, List.cons_append]
  simp only [resume]
  split
  · exact .single (Move.refuse s.outbox request _ .notSent hwaiting)
  split
  · exact .single (Move.refuse s.outbox request _ .notSent hwaiting)
  · rw [enqueue, schedule_outbox]
    exact .single (Move.queue s.outbox request _ hwaiting)

theorem opened_outbox (s : PublicationWriter) (ok : Bool) : (s.opened ok).outbox = s.outbox := by
  have hwaiting : (s.resumed ++ s.joining.map fun r => (r, ok)).map Prod.fst ++ [] =
      s.resumed.map Prod.fst ++ s.joining := by
    simp [Function.comp_def]
  simp only [opened, outbox, batch, unsent, hwaiting]
  split
  · rename_i hrec
    simp [hrec, Flush.batch, Flush.unsent]
  · rfl

theorem fail_moves (s : PublicationWriter) (requests : List Append) (producer : Nat)
    (hs : s.batch = requests) : Moves s.outbox (s.fail requests producer).outbox := by
  subst hs
  exact (Relation.ReflTransGen.single (Move.answer s.outbox .failed)).tail
    (Move.reject _ Answer.notSent)

theorem fire_moves (s : PublicationWriter) (hs : s.flushing = none) (current : Bool) :
    Moves s.outbox (s.fire current).outbox := by
  have hheld : s.outbox.held = [] := by simp [outbox, batch, hs]
  have hunsent : s.outbox.unsent = [] := by simp [outbox, unsent, hs]
  have htake := Move.take s.outbox (batchCount 0 0 s.pending) hheld hunsent
  have hanswer := (Relation.ReflTransGen.single htake).tail (Move.answer _ Answer.notSent)
  simp only [fire]
  split
  · split
    · exact hanswer
    · exact .single htake
  · exact hanswer

theorem begun_moves (s : PublicationWriter) (requests : List Append) (producer : Nat)
    (hs : s.flushing = some (.beginning requests producer)) (ok : Bool) (produced : Nat) :
    Moves s.outbox (s.begun requests producer ok produced).outbox := by
  have hbatch : s.batch = requests := by simp [batch, hs, Flush.batch]
  have hunsent : s.unsent = requests := by simp [unsent, hs, Flush.unsent]
  let sent : Outbox KafkaPublicationRecord Answer := { s.outbox with
    held := requests
    sent := s.transactions.flatten ++ requests.take produced
    unsent := [] }
  have hsend : Move s.outbox sent := by
    have hmove := Move.send s.outbox produced
    simp only [outbox, hunsent, hbatch] at hmove
    simpa only [sent, outbox, hunsent, hbatch] using hmove
  have hflatten : (s.transactions ++ [requests.take produced]).flatten =
      s.transactions.flatten ++ requests.take produced := by simp
  simp only [begun]
  split
  · exact s.fail_moves requests producer hbatch
  split
  · have hmoves := ((Relation.ReflTransGen.single hsend).tail (Move.answer sent .failed)).tail
      (Move.reject _ Answer.notSent)
    simp only [outbox, fail, settle, batch, unsent, hflatten]
    exact hmoves
  · refine .single ?_
    simp only [outbox, hflatten]
    exact hsend

/-- A request that waits has something to wait for. -/
structure Wake (s : PublicationWriter) : Prop where
  timer : s.timer = true → s.pending ≠ [] ∧ s.flushing = none
  pending : s.pending ≠ [] → s.timer = true ∨ s.flushing ≠ none
  joining : s.joining ≠ [] → s.opening ≠ none
  recovering : s.flushing = some .recovering → s.opening ≠ none
  closed : s.closed = true → s.pending = []

theorem Wake.congr {s t : PublicationWriter} (h : Wake s)
    (ht : (t.timer, t.pending, t.flushing, t.joining, t.opening, t.closed) =
      (s.timer, s.pending, s.flushing, s.joining, s.opening, s.closed)) : Wake t := by
  simp only [Prod.mk.injEq] at ht
  obtain ⟨h1, h2, h3, h4, h5, h6⟩ := ht
  exact ⟨by rw [h1, h2, h3]; exact h.timer, by rw [h1, h2, h3]; exact h.pending,
    by rw [h4, h5]; exact h.joining, by rw [h3, h5]; exact h.recovering,
    by rw [h2, h6]; exact h.closed⟩

theorem Wake.schedule {s : PublicationWriter} (timer : s.timer = true → s.pending ≠ [] ∧ s.flushing = none)
    (joining : s.joining ≠ [] → s.opening ≠ none)
    (recovering : s.flushing = some .recovering → s.opening ≠ none)
    (closed : s.closed = true → s.pending = []) : Wake s.schedule := by
  unfold PublicationWriter.schedule
  split
  · rename_i hno
    refine ⟨timer, ?_, joining, recovering, closed⟩
    grind
  · rename_i hyes
    refine ⟨?_, ?_, joining, recovering, closed⟩ <;> grind

theorem connect_opening (s : PublicationWriter) : s.connect.opening ≠ none := by
  unfold connect
  cases s.opening <;> simp

theorem Wake.enqueue {s : PublicationWriter} (h : Wake s) (hopen : s.closed = false)
    (request : Append) : Wake (s.enqueue request) := by
  refine Wake.schedule ?_ h.joining h.recovering ?_
  · intro htimer
    exact ⟨by simp, (h.timer htimer).2⟩
  · intro hclosed
    rw [hopen] at hclosed
    cases hclosed

theorem Wake.append {s : PublicationWriter} (h : Wake s) (record : KafkaPublicationRecord)
    (now : Nat) (current : Bool) : Wake (s.append record now current) := by
  simp only [PublicationWriter.append]
  split
  · exact h.congr rfl
  rename_i hopen
  split
  · split
    · exact h.congr rfl
    · exact ⟨h.timer, h.pending, fun _ => connect_opening _, fun _ => connect_opening _, h.closed⟩
  · have h' : Wake { s with calls := s.calls + 1 } := h.congr rfl
    refine h'.enqueue ?_ _
    simpa using fun hc => hopen (.inl hc)

theorem Wake.resume {s : PublicationWriter} (h : Wake s) (request : Append) (ok : Bool)
    (now : Nat) (current : Bool) : Wake (s.resume request ok now current) := by
  simp only [PublicationWriter.resume]
  split
  · exact h.congr rfl
  split
  · exact h.congr rfl
  · rename_i hopen
    refine Wake.enqueue h ?_ _
    simpa using fun hc => hopen (.inl hc)

theorem Wake.start {s : PublicationWriter} (h : Wake s) (current : Bool) :
    Wake (s.start current) := by
  unfold PublicationWriter.start
  split
  · exact h
  split
  · exact h
  · exact ⟨h.timer, h.pending, fun _ => connect_opening _, fun _ => connect_opening _, h.closed⟩

theorem Wake.opened {s : PublicationWriter} (h : Wake s) (ok : Bool) : Wake (s.opened ok) := by
  refine ⟨?_, ?_, by simp [PublicationWriter.opened], ?_, h.closed⟩
  · intro htimer
    have hnone := (h.timer htimer).2
    exact ⟨(h.timer htimer).1, by simp [PublicationWriter.opened, hnone]⟩
  · intro hpending
    rcases h.pending hpending with htimer | hflush
    · exact .inl htimer
    · refine .inr ?_
      simp only [PublicationWriter.opened]
      split <;> simp_all
  · simp only [PublicationWriter.opened]
    split
    · intro hrec
      cases hrec
    · intro hrec
      contradiction

theorem Wake.flush {s : PublicationWriter} (h : Wake s) (hs : s.flushing ≠ none) {f : Flush}
    (hf : f ≠ .recovering) : Wake { s with flushing := some f } where
  timer htimer := absurd (h.timer htimer).2 hs
  pending _ := .inr (by simp)
  joining := h.joining
  recovering hrec := absurd (Option.some.inj hrec) hf
  closed := h.closed

theorem Wake.fail {s : PublicationWriter} (h : Wake s) (hs : s.flushing ≠ none)
    (requests : List Append) (producer : Nat) : Wake (s.fail requests producer) where
  timer htimer := absurd (h.timer htimer).2 hs
  pending hpending := absurd rfl hpending
  joining := h.joining
  recovering hrec := nomatch hrec
  closed _ := rfl

theorem Wake.fire {s : PublicationWriter} (h : Wake s) (current : Bool) :
    Wake (s.fire current) := by
  have hclosed : s.closed = true → s.pending.drop (batchCount 0 0 s.pending) = [] := by
    intro hc
    rw [h.closed hc, List.drop_nil]
  simp only [PublicationWriter.fire]
  split
  · split
    · exact ⟨nofun, fun _ => .inr (by simp [settle]), h.joining, nofun, hclosed⟩
    · exact ⟨nofun, fun _ => .inr (by simp), h.joining, nofun, hclosed⟩
  · exact ⟨nofun, fun _ => .inr (by simp [settle]), h.joining, nofun, hclosed⟩

theorem Wake.disconnected {s : PublicationWriter} (h : Wake s) (hs : s.flushing ≠ none)
    (producer : Nat) (current : Bool) : Wake (s.disconnected producer current) := by
  simp only [PublicationWriter.disconnected]
  generalize (if s.producer = some producer then none else s.producer) = next
  have h' : Wake { s with producer := next } := h.congr rfl
  split
  · exact h'.flush hs nofun
  split
  · exact h'.flush hs nofun
  · exact ⟨fun htimer => absurd (h.timer htimer).2 hs, fun _ => .inr (by simp),
      fun _ => connect_opening _, fun _ => connect_opening _, h.closed⟩

theorem act_wake {s t : PublicationWriter} {a : WriterAction} (h : Wake s)
    (hact : s.act a = some t) : Wake t := by
  cases a with
  | append record now current =>
    cases hact
    exact h.append record now current
  | start current =>
    cases hact
    exact h.start current
  | close =>
    cases hact
    unfold close
    split
    · exact h
    · exact ⟨nofun, fun hpending => absurd rfl hpending, h.joining, h.recovering, fun _ => rfl⟩
  | connected ok =>
    obtain ⟨-, rfl⟩ := ite_some hact
    exact ⟨h.timer, h.pending, nofun, nofun, h.closed⟩
  | initialized ok current =>
    obtain ⟨-, rfl⟩ := ite_some hact
    unfold PublicationWriter.initialized
    split
    · exact ⟨h.timer, h.pending, nofun, nofun, h.closed⟩
    · have h' : Wake { s with
          producer := some s.incarnations
          incarnations := s.incarnations + 1
          failure := false } := h.congr rfl
      exact h'.opened true
  | disposed =>
    obtain ⟨-, rfl⟩ := ite_some hact
    exact h.opened false
  | resume now current =>
    simp only [act] at hact
    split at hact
    · rename_i request ok resumed hs
      cases hact
      have h' : Wake { s with resumed } := h.congr rfl
      exact h'.resume request ok now current
    · cases hact
  | fire current =>
    obtain ⟨-, rfl⟩ := ite_some hact
    exact h.fire current
  | entered ok =>
    simp only [act] at hact
    split at hact
    · rename_i requests producer hs
      split at hact
      · cases hact
        exact h.flush (by simp [hs]) nofun
      · cases hact
        exact h.fail (by simp [hs]) requests producer
    · cases hact
  | begun ok produced =>
    simp only [act] at hact
    split at hact
    · rename_i requests producer hs
      cases hact
      have hne : s.flushing ≠ none := by simp [hs]
      unfold begun
      split
      · exact h.fail hne requests producer
      have h' : Wake { s with transactions := s.transactions ++ [requests.take produced] } :=
        h.congr rfl
      simp only
      split
      · exact h'.fail hne requests producer
      · exact h'.flush hne nofun
    · cases hact
  | committed ok =>
    simp only [act] at hact
    split at hact
    · rename_i requests producer hs
      cases hact
      have hne : s.flushing ≠ none := by simp [hs]
      unfold committed
      split
      · exact (h.flush hne (f := .finished) nofun).congr rfl
      · exact h.fail hne requests producer
    · cases hact
  | aborted =>
    simp only [act] at hact
    split at hact
    · rename_i producer hs
      cases hact
      exact h.flush (by simp [hs]) nofun
    · cases hact
  | disconnected current =>
    simp only [act] at hact
    split at hact
    · rename_i producer hs
      cases hact
      exact h.disconnected (by simp [hs]) producer current
    · cases hact
  | recovered now =>
    simp only [act] at hact
    split at hact
    · rename_i ok hs
      cases hact
      have h' := h.flush (by simp [hs]) (f := .finished) nofun
      unfold recovered
      split
      · exact h'
      · exact h'.congr rfl
    · cases hact
  | finish =>
    obtain ⟨hs, rfl⟩ := ite_some hact
    refine Wake.schedule ?_ h.joining nofun h.closed
    intro htimer
    exact ⟨(h.timer htimer).1, rfl⟩
  | closeFlushed =>
    obtain ⟨-, rfl⟩ := ite_some hact
    exact h.congr rfl
  | closeOpened =>
    obtain ⟨-, rfl⟩ := ite_some hact
    unfold closeOpened
    split <;> exact h.congr rfl
  | closeDisconnected =>
    obtain ⟨-, rfl⟩ := ite_some hact
    exact h.congr rfl

theorem act_moves {s t : PublicationWriter} {a : WriterAction} (h : Wake s)
    (hact : s.act a = some t) : Moves s.outbox t.outbox := by
  cases a with
  | append record now current =>
    cases hact
    exact s.append_moves record now current
  | start current =>
    cases hact
    unfold start
    split
    · exact .refl
    split
    · exact .refl
    · exact .refl
  | close =>
    cases hact
    unfold close
    split
    · exact .refl
    · exact .single (Move.reject s.outbox .notSent)
  | connected ok =>
    obtain ⟨-, rfl⟩ := ite_some hact
    exact .refl
  | initialized ok current =>
    obtain ⟨-, rfl⟩ := ite_some hact
    unfold PublicationWriter.initialized
    split
    · exact .refl
    · rw [opened_outbox]
      exact .refl
  | disposed =>
    obtain ⟨-, rfl⟩ := ite_some hact
    rw [opened_outbox]
  | resume now current =>
    simp only [act] at hact
    split at hact
    · rename_i request ok resumed hs
      cases hact
      exact s.resume_moves request ok resumed hs now current
    · cases hact
  | fire current =>
    obtain ⟨htimer, rfl⟩ := ite_some hact
    exact s.fire_moves (h.timer htimer).2 current
  | entered ok =>
    simp only [act] at hact
    split at hact
    · rename_i requests producer hs
      split at hact
      · cases hact
        simp only [outbox, batch, unsent, hs]
        exact .refl
      · cases hact
        exact s.fail_moves requests producer (by simp [batch, hs, Flush.batch])
    · cases hact
  | begun ok produced =>
    simp only [act] at hact
    split at hact
    · rename_i requests producer hs
      cases hact
      exact s.begun_moves requests producer hs ok produced
    · cases hact
  | committed ok =>
    simp only [act] at hact
    split at hact
    · rename_i requests producer hs
      have hbatch : s.batch = requests := by simp [batch, hs, Flush.batch]
      cases hact
      unfold committed
      split
      · have hmove := Move.answer s.outbox .durable
        simp only [outbox, hbatch] at hmove
        simp only [outbox, hbatch]
        exact .single hmove
      · exact s.fail_moves requests producer hbatch
    · cases hact
  | aborted =>
    simp only [act] at hact
    split at hact
    · rename_i producer hs
      cases hact
      simp only [outbox, batch, unsent, hs]
      exact .refl
    · cases hact
  | disconnected current =>
    simp only [act] at hact
    split at hact
    · rename_i producer hs
      cases hact
      simp only [PublicationWriter.disconnected]
      generalize (if s.producer = some producer then none else s.producer) = next
      split
      · simp only [outbox, batch, unsent, hs]
        exact .refl
      split
      · simp only [outbox, batch, unsent, hs]
        exact .refl
      · simp only [outbox, batch, unsent, hs]
        exact .refl
    · cases hact
  | recovered now =>
    simp only [act] at hact
    split at hact
    · rename_i ok hs
      cases hact
      unfold recovered
      split
      · simp only [outbox, batch, unsent, hs]
        exact .refl
      · simp only [outbox, batch, unsent, hs]
        exact .refl
    · cases hact
  | finish =>
    obtain ⟨hs, rfl⟩ := ite_some hact
    rw [schedule_outbox]
    simp only [outbox, batch, unsent, hs]
    exact .refl
  | closeFlushed =>
    obtain ⟨-, rfl⟩ := ite_some hact
    exact .refl
  | closeOpened =>
    obtain ⟨-, rfl⟩ := ite_some hact
    unfold closeOpened
    split <;> exact .refl
  | closeDisconnected =>
    simp only [act] at hact
    split at hact
    · cases hact
      exact .refl
    · cases hact

/-! ## The turns that are left -/

end PublicationWriter

def Connect.turns : Connect → Nat
  | .connecting => 3
  | .initializing => 2
  | .disposing => 1

def Flush.turns : Flush → Nat
  | .locking _ _ => 12
  | .beginning _ _ => 11
  | .committing _ _ => 10
  | .aborting _ => 9
  | .disconnecting _ => 8
  | .recovering => 4
  | .recovered _ => 3
  | .finished => 2

def Closing.turns : Closing → Nat
  | .flushing => 3
  | .opening => 2
  | .disconnecting => 1
  | .done => 0

def WriterAction.isCall : WriterAction → Bool
  | .append _ _ _ | .start _ | .close => true
  | _ => false

namespace PublicationWriter

/-- A bound for the turns of the writer until it has nothing left to do. -/
def potential (s : PublicationWriter) : Nat :=
  16 * (s.joining.length + s.resumed.length) + 14 * s.pending.length +
    s.timer.toNat + (s.flushing.map Flush.turns).getD 0 +
    (s.opening.map Connect.turns).getD 0 + (s.closing.map Closing.turns).getD 0

theorem schedule_potential (s : PublicationWriter) : s.schedule.potential ≤ s.potential + 1 := by
  unfold schedule
  split
  · omega
  · simp only [potential, Bool.toNat_true]
    omega

theorem enqueue_potential (s : PublicationWriter) (request : Append) :
    (s.enqueue request).potential ≤ s.potential + 15 := by
  have h := schedule_potential { s with
    pending := s.pending ++ [request]
    admitted := s.admitted ++ [request] }
  simp only [potential, List.length_append, List.length_singleton] at h ⊢
  rw [enqueue]
  omega

theorem resume_potential (s : PublicationWriter) (request : Append) (ok : Bool) (now : Nat)
    (current : Bool) : (s.resume request ok now current).potential ≤ s.potential + 15 := by
  unfold resume
  split
  · simp only [settle, potential]
    omega
  split
  · simp only [settle, potential]
    omega
  · exact s.enqueue_potential request

theorem fail_potential (s : PublicationWriter) (requests : List Append) (producer : Nat)
    (h : 9 < (s.flushing.map Flush.turns).getD 0) :
    (s.fail requests producer).potential < s.potential := by
  simp only [fail, settle, potential, Option.map_some, Option.getD_some, Flush.turns, List.length_nil]
  omega

theorem opened_potential (s : PublicationWriter) (ok : Bool) (h : s.opening ≠ none) :
    (s.opened ok).potential < s.potential := by
  have hopen : 0 < (s.opening.map Connect.turns).getD 0 := by
    cases hs : s.opening with
    | none => exact absurd hs h
    | some c => cases c <;> simp [Connect.turns]
  have hflush : ((s.opened ok).flushing.map Flush.turns).getD 0 ≤
      (s.flushing.map Flush.turns).getD 0 := by
    simp only [opened]
    split
    · rename_i hrec
      simp [hrec, Flush.turns]
    · exact Nat.le_refl _
  have hopened : (s.opened ok).potential = 16 * (0 + (s.resumed.length + s.joining.length)) +
      14 * s.pending.length + s.timer.toNat +
      ((s.opened ok).flushing.map Flush.turns).getD 0 + 0 +
      (s.closing.map Closing.turns).getD 0 := by
    simp [opened, potential]
  rw [hopened, potential]
  omega

theorem batchCount_pos (count bytes : Nat) (pending : List Append) (h : pending ≠ []) :
    count ≤ batchCount count bytes pending ∧ 0 < batchCount count bytes pending := by
  induction pending generalizing count bytes with
  | nil => exact absurd rfl h
  | cons request pending ih =>
    simp only [batchCount]
    split
    · rename_i hcount
      omega
    · cases pending with
      | nil => simp [batchCount]
      | cons next pending =>
        have hnext := ih (count + 1) (bytes + utf8Bytes request.item.value) (by simp)
        omega

theorem fire_potential (s : PublicationWriter) (current : Bool) (h : Wake s)
    (htimer : s.timer = true) : (s.fire current).potential < s.potential := by
  obtain ⟨hne, hnone⟩ := h.timer htimer
  have hcount := (batchCount_pos 0 0 s.pending hne).2
  have hlen := List.length_pos_iff.mpr hne
  simp only [fire]
  split
  · split
    · simp only [settle, potential, Option.map_some, Option.getD_some, Flush.turns, htimer, hnone,
        List.length_drop, Option.map_none, Option.getD_none, Bool.toNat_true, Bool.toNat_false]
      omega
    · simp only [potential, Option.map_some, Option.getD_some, Flush.turns, htimer, hnone,
        List.length_drop, Option.map_none, Option.getD_none, Bool.toNat_true, Bool.toNat_false]
      omega
  · simp only [settle, potential, Option.map_some, Option.getD_some, Flush.turns, htimer, hnone,
      List.length_drop, Option.map_none, Option.getD_none, Bool.toNat_true, Bool.toNat_false]
    omega

theorem act_potential {s t : PublicationWriter} {a : WriterAction} (h : Wake s)
    (ha : a.isCall = false) (hact : s.act a = some t) : t.potential < s.potential := by
  cases a with
  | append record now current => cases ha
  | start current => cases ha
  | close => cases ha
  | connected ok =>
    obtain ⟨hs, rfl⟩ := ite_some hact
    cases ok <;> simp [potential, hs, Connect.turns]
  | initialized ok current =>
    obtain ⟨hs, rfl⟩ := ite_some hact
    unfold PublicationWriter.initialized
    split
    · simp [potential, hs, Connect.turns]
    · exact opened_potential _ true (by simp [hs])
  | disposed =>
    obtain ⟨hs, rfl⟩ := ite_some hact
    exact opened_potential _ false (by simp [hs])
  | resume now current =>
    simp only [act] at hact
    split at hact
    · rename_i request ok resumed hs
      cases hact
      have hle := resume_potential { s with resumed } request ok now current
      simp only [potential, hs, List.length_cons] at hle ⊢
      omega
    · cases hact
  | fire current =>
    simp only [act] at hact
    split at hact
    · rename_i htimer
      cases hact
      exact s.fire_potential current h htimer
    · cases hact
  | entered ok =>
    simp only [act] at hact
    split at hact
    · rename_i requests producer hs
      split at hact
      · cases hact
        simp [potential, hs, Flush.turns]
      · cases hact
        exact s.fail_potential requests producer (by simp [hs, Flush.turns])
    · cases hact
  | begun ok produced =>
    simp only [act] at hact
    split at hact
    · rename_i requests producer hs
      cases hact
      have hturns : 9 < (s.flushing.map Flush.turns).getD 0 := by simp [hs, Flush.turns]
      unfold begun
      split
      · exact s.fail_potential requests producer hturns
      simp only
      split
      · have hlt := fail_potential { s with
          transactions := s.transactions ++ [requests.take produced] } requests producer hturns
        exact hlt
      · simp [potential, hs, Flush.turns]
    · cases hact
  | committed ok =>
    simp only [act] at hact
    split at hact
    · rename_i requests producer hs
      cases hact
      unfold committed
      split
      · simp [settle, potential, hs, Flush.turns]
      · exact s.fail_potential requests producer (by simp [hs, Flush.turns])
    · cases hact
  | aborted =>
    simp only [act] at hact
    split at hact
    · rename_i producer hs
      cases hact
      simp [potential, hs, Flush.turns]
    · cases hact
  | disconnected current =>
    simp only [act] at hact
    split at hact
    · rename_i producer hs
      cases hact
      simp only [PublicationWriter.disconnected]
      generalize (if s.producer = some producer then none else s.producer) = next
      split
      · simp [potential, hs, Flush.turns]
      split
      · simp [potential, hs, Flush.turns]
      · cases hopen : s.opening <;> simp [potential, connect, hs, hopen, Flush.turns, Connect.turns]
    · cases hact
  | recovered now =>
    simp only [act] at hact
    split at hact
    · rename_i ok hs
      cases hact
      unfold recovered
      split <;> simp [potential, hs, Flush.turns]
    · cases hact
  | finish =>
    obtain ⟨hs, rfl⟩ := ite_some hact
    have hle := schedule_potential { s with flushing := none }
    simp only [potential, hs, Option.map_some, Option.map_none, Option.getD_some,
      Option.getD_none, Flush.turns] at hle ⊢
    omega
  | closeFlushed =>
    obtain ⟨hs, rfl⟩ := ite_some hact
    simp [potential, hs.1, Closing.turns]
  | closeOpened =>
    obtain ⟨hs, rfl⟩ := ite_some hact
    unfold closeOpened
    split <;> simp [potential, hs.1, Closing.turns]
  | closeDisconnected =>
    obtain ⟨hs, rfl⟩ := ite_some hact
    simp [potential, hs, Closing.turns]

/-! ## Runs -/

theorem opening_turn {s : PublicationWriter} (h : s.opening ≠ none) :
    ∃ a : WriterAction, a.isCall = false ∧ (s.act a).isSome = true := by
  cases hs : s.opening with
  | none => exact absurd hs h
  | some c =>
    cases c with
    | connecting => exact ⟨.connected true, rfl, by simp [act, hs]⟩
    | initializing => exact ⟨.initialized true true, rfl, by simp [act, hs]⟩
    | disposing => exact ⟨.disposed, rfl, by simp [act, hs]⟩

theorem flush_turn {s : PublicationWriter} (h : Wake s) (hs : s.flushing ≠ none) :
    ∃ a : WriterAction, a.isCall = false ∧ (s.act a).isSome = true := by
  cases hf : s.flushing with
  | none => exact absurd hf hs
  | some f =>
    cases f with
    | locking requests producer => exact ⟨.entered true, rfl, by simp [act, hf]⟩
    | beginning requests producer => exact ⟨.begun true 0, rfl, by simp [act, hf]⟩
    | committing requests producer => exact ⟨.committed true, rfl, by simp [act, hf]⟩
    | aborting producer => exact ⟨.aborted, rfl, by simp [act, hf]⟩
    | disconnecting producer => exact ⟨.disconnected true, rfl, by simp [act, hf]⟩
    | recovering => exact opening_turn (h.recovering hf)
    | recovered ok => exact ⟨.recovered 0, rfl, by simp [act, hf]⟩
    | finished => exact ⟨.finish, rfl, by simp [act, hf]⟩

theorem unanswered_turn {s : PublicationWriter} (h : Wake s) (hs : s.outbox.unanswered ≠ []) :
    ∃ a : WriterAction, a.isCall = false ∧ (s.act a).isSome = true := by
  cases hr : s.resumed with
  | cons x resumed => exact ⟨.resume 0 true, rfl, by simp [act, hr]⟩
  | nil =>
    by_cases hf : s.flushing = none
    · by_cases hj : s.joining = []
      · have hpending : s.pending ≠ [] := by
          simpa [Outbox.unanswered, outbox, hr, hj, batch, hf] using hs
        rcases h.pending hpending with htimer | hflush
        · exact ⟨.fire true, rfl, by simp [act, htimer]⟩
        · exact absurd hf hflush
      · exact opening_turn (h.joining hj)
    · exact flush_turn h hf

theorem outbox_init : Outbox.Inv ({} : PublicationWriter).outbox where
  calls _ := rfl
  admitted _ := Nat.le_refl _
  order := List.Sublist.refl _

theorem wake_init : Wake {} where
  timer := nofun
  pending hpending := absurd rfl hpending
  joining hjoining := absurd rfl hjoining
  recovering := nofun
  closed := nofun

theorem reach_inv {as : List WriterAction} {s : PublicationWriter} (h : Reach system as s) :
    Wake s ∧ Outbox.Inv s.outbox := by
  refine h.invariant (fun s => Wake s ∧ Outbox.Inv s.outbox) ?_ ?_
  · intro s hs
    cases hs
    exact ⟨wake_init, outbox_init⟩
  · intro s a t hs hstep
    exact ⟨act_wake hs.1 hstep, hs.2.moves (act_moves hs.1 hstep)⟩

theorem turns_bound {s t : PublicationWriter} (h : Wake s) (as : List WriterAction)
    (has : ∀ a ∈ as, a.isCall = false) (hrun : as.foldlM act s = some t) :
    Wake t ∧ as.length + t.potential ≤ s.potential := by
  induction as generalizing s with
  | nil =>
    cases hrun
    exact ⟨h, by simp⟩
  | cons a as ih =>
    rw [List.forall_mem_cons] at has
    obtain ⟨u, hu, hrun⟩ := Option.bind_eq_some_iff.mp hrun
    have hlt := act_potential h has.1 hu
    obtain ⟨ht, hle⟩ := ih (act_wake h hu) has.2 hrun
    refine ⟨ht, ?_⟩
    simp only [List.length_cons]
    omega

end PublicationWriter

end EventLog
end PiCloud
