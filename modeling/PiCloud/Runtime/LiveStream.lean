import PiCloud.Runtime.CompactEventTail

/-!
# Runtime.LiveStream

One client's stream of a session: the live view that accepts events, the subscription that queues
them and the loop that sends them, taking turns in any order.

* `Subscription`: the queue with its two budgets, the pending read and the resync mark.
* `LiveStream.act`: one turn, of the projector, of the hub, of the database or of the loop.
* `Kept`: no event above the high-water mark is lost while the stream goes on.
-/

namespace PiCloud
namespace Runtime

open Lib Protocol

/-! ## The subscription -/

/-- What a read of the subscription gives. -/
inductive Wake where
  | event (event : PiCloudEvent)
  /-- `throughSequence: null` and nothing else: the client must reconnect -/
  | resync
  /-- progress, an observation or an input queue -/
  | other
  | heartbeat
  /-- `undefined` -/
  | done

def sessionEventPendingBytes : Nat := 16 * 1024 * 1024

def maximumQueuedWakes : Nat := 1024

/-- `SessionEventSubscription`; of what is not an event only its presence is kept. -/
structure Subscription where
  queuedWakes : List (Wake × Nat) := []
  queuedBytes : Nat := 0
  resync : Bool := false
  pendingRead : Bool := false
  closed : Bool := false
  others : Bool := false

namespace Subscription

/-- `resync()`, with the wake it hands to a pending read. -/
def askResync (s : Subscription) : Subscription × Option Wake :=
  if s.closed || s.resync then (s, none)
  else
    let cleared := { s with resync := true, queuedWakes := [], queuedBytes := 0, others := false }
    if s.pendingRead then ({ cleared with pendingRead := false }, some .resync)
    else ({ cleared with queuedWakes := [(.resync, 0)] }, none)

/-- `notifyEvent` and `#push`; `bytes` is the encoded size of the event. -/
def notifyEvent (maximumPendingBytes : Nat) (s : Subscription) (event : PiCloudEvent)
    (bytes : Nat) : Subscription × Option Wake :=
  if s.closed || s.resync then (s, none)
  else if s.pendingRead then ({ s with pendingRead := false }, some (.event event))
  else if maximumQueuedWakes ≤ s.queuedWakes.length then s.askResync
  else if maximumPendingBytes < s.queuedBytes + bytes then s.askResync
  else
    ({ s with queuedWakes := s.queuedWakes ++ [(.event event, bytes)]
              queuedBytes := s.queuedBytes + bytes }, none)

/-- `notifyProgress`, `notifyObservation` and `notifyInputQueue`; `kept` tells whether one that
finds no pending read is kept for the next. -/
def notifyOther (s : Subscription) (kept : Bool) : Subscription × Option Wake :=
  if s.closed || s.resync then (s, none)
  else if s.pendingRead then ({ s with pendingRead := false }, some .other)
  else ({ s with others := kept }, none)

/-- `next`: what the read gives at once, or nothing where it is left pending. -/
def next (s : Subscription) : Subscription × Option Wake :=
  match s.queuedWakes with
  | (wake, bytes) :: rest =>
    ({ s with queuedWakes := rest, queuedBytes := s.queuedBytes - bytes }, some wake)
  | [] =>
    if s.closed || s.resync then (s, some .done)
    else if s.others then ({ s with others := false }, some .other)
    else ({ s with pendingRead := true }, none)

def beat (s : Subscription) : Subscription × Option Wake :=
  if s.pendingRead then ({ s with pendingRead := false }, some .heartbeat) else (s, none)

def close (s : Subscription) : Subscription × Option Wake :=
  if s.closed then (s, none)
  else
    ({ s with closed := true, queuedWakes := [], queuedBytes := 0, others := false
              pendingRead := false },
      if s.pendingRead then some .done else none)

end Subscription

/-! ## The stream -/

/-- `LiveSessionTailSnapshot` -/
structure TailSnapshot where
  canonicalThroughSequence : Nat
  events : List PiCloudEvent

/-- The high-water mark of a stream, or nothing where the canonical view is behind its coverage. -/
def openHighWaterMark (tail : TailSnapshot) (canonical : Nat) : Option Nat :=
  if canonical < tail.canonicalThroughSequence then none
  else
    let liveEvents := tail.events.filter (fun event => canonical < event.seq)
    some (match liveEvents.getLast? with
      | some event => event.seq
      | none => max canonical tail.canonicalThroughSequence)

/-- Where the client's side stands between two of its turns. -/
inductive Stage where
  | unopened
  /-- the subscription is taken, the canonical view is being read -/
  | loading (tail : TailSnapshot)
  /-- the snapshot is being written -/
  | snapshot
  /-- at the top of the loop -/
  | ready
  | waiting
  | holding (wake : Wake)
  | writing (event : PiCloudEvent)
  | ended

structure LiveStream where
  tail : CompactEventTail := {}
  subscription : Subscription := {}
  stage : Stage := .unopened
  highWaterMark : Nat := 0
  lastSentSequence : Nat := 0
  sent : List PiCloudEvent := []
  /-- every event the live view ever published -/
  published : List PiCloudEvent := []
  /-- those it accepted since it last forgot its tail; a stream keeps what it may still owe -/
  accepted : List PiCloudEvent := []

inductive StreamAction where
  | accept (event : PiCloudEvent)
  | cover (through : Nat)
  /-- the live view drops a tail that has been empty for long -/
  | sweep
  /-- the projector loses its partition: `reset` -/
  | reset
  | resyncSession
  | notifyOther (kept : Bool)
  | heartbeat
  | open
  /-- the canonical view arrives -/
  | load (canonical : Nat)
  /-- the loop goes on, and what it was writing was written or not -/
  | proceed (written : Bool)
  | disconnect

namespace LiveStream

def subscribed (s : LiveStream) : Bool :=
  match s.stage with
  | .unopened => false
  | .ended => false
  | _ => true

/-- The subscription after a turn of the hub, and the wake it handed to a waiting loop. -/
def resolve (s : LiveStream) (r : Subscription × Option Wake) : LiveStream :=
  match r.2 with
  | none => { s with subscription := r.1 }
  | some wake => { s with subscription := r.1, stage := .holding wake }

/-- `finally`: the subscription is closed with the stream. -/
def finish (s : LiveStream) : LiveStream :=
  { s with subscription := (s.subscription.close).1, stage := .ended }

/-- `SessionLiveView.cover` -/
def cover (s : LiveStream) (through : Nat) : LiveStream := { s with tail := s.tail.cover through }

/-- `SessionLiveView.accept` and `SessionEventHub.publish`; a conflict throws. -/
def accept (envelope bytes : PiCloudEvent → Nat) (maximumPendingBytes : Nat) (s : LiveStream)
    (event : PiCloudEvent) : LiveStream :=
  match s.tail.accept envelope event with
  | .error _ => s
  | .ok (false, tail) => { s with tail }
  | .ok (true, tail) =>
    let s := { s with tail, published := event :: s.published, accepted := event :: s.accepted }
    let s := if s.subscribed then
      s.resolve (s.subscription.notifyEvent maximumPendingBytes event (bytes event)) else s
    if event.body.isTerminal then s.cover event.seq else s

/-- The body of the loop, for the wake it was given. -/
def handle (s : LiveStream) (wake : Wake) (written : Bool) : LiveStream :=
  match wake with
  | .heartbeat => if written then { s with stage := .ready } else s.finish
  | .other => if written then { s with stage := .ready } else s.finish
  | .done => s.finish
  | .resync => s.finish
  | .event event =>
    if event.seq ≤ s.lastSentSequence then { s with stage := .ready }
    else if event.seq ≠ s.lastSentSequence + 1 then s.finish
    else { s with stage := .writing event }

/-- The next turn of the loop. -/
def proceed (s : LiveStream) (written : Bool) : LiveStream :=
  match s.stage with
  | .snapshot => if written then { s with stage := .ready } else s.finish
  | .ready =>
    match s.subscription.next with
    | (subscription, some wake) => { s with subscription, stage := .holding wake }
    | (subscription, none) => { s with subscription, stage := .waiting }
  | .holding wake => s.handle wake written
  | .writing event =>
    if written then
      { s with stage := .ready, lastSentSequence := event.seq, sent := s.sent ++ [event] }
    else s.finish
  | _ => s

def load (s : LiveStream) (canonical : Nat) : LiveStream :=
  match s.stage with
  | .loading tail =>
    match openHighWaterMark tail canonical with
    | none => s.finish
    | some mark =>
      { s with stage := .snapshot, highWaterMark := mark, lastSentSequence := mark }
  | _ => s

def act (envelope bytes : PiCloudEvent → Nat) (maximumPendingBytes : Nat) (s : LiveStream) :
    StreamAction → LiveStream
  | .accept event => s.accept envelope bytes maximumPendingBytes event
  | .cover through => s.cover through
  | .sweep =>
    if s.tail.spans.isEmpty then
      { s with tail := {}, accepted := if s.subscribed then s.accepted else [] }
    else s
  | .reset =>
    let s := { s with tail := {}, accepted := if s.subscribed then s.accepted else [] }
    if s.subscribed then s.resolve s.subscription.askResync else s
  | .resyncSession => if s.subscribed then s.resolve s.subscription.askResync else s
  | .notifyOther kept => if s.subscribed then s.resolve (s.subscription.notifyOther kept) else s
  | .heartbeat => if s.subscribed then s.resolve s.subscription.beat else s
  | .open =>
    match s.stage with
    | .unopened => { s with stage := .loading ⟨s.tail.covered, s.tail.events⟩ }
    | _ => s
  | .load canonical => s.load canonical
  | .proceed written => s.proceed written
  | .disconnect => if s.subscribed then s.resolve s.subscription.close else s

end LiveStream

def liveStream (envelope bytes : PiCloudEvent → Nat) (maximumPendingBytes : Nat) :
    System LiveStream StreamAction where
  init s := s = {}
  step s a t := t = s.act envelope bytes maximumPendingBytes a

/-! ## What a subscription keeps -/

namespace Subscription

def doomed (s : Subscription) : Bool := s.closed || s.resync

def queued (s : Subscription) : List PiCloudEvent :=
  s.queuedWakes.filterMap (fun w => match w.1 with
    | .event event => some event
    | _ => none)

/-- A subscription on which a read is pending, or not. -/
structure Sound (s : Subscription) (waiting : Bool) : Prop where
  reading : s.pendingRead = waiting
  idle : waiting = true → s.queuedWakes = [] ∧ s.doomed = false
  doomed : s.doomed = true → s.queued = []

/-- What an operation of the hub does to a subscription: the events `new` are handed to the pending
read or queued, and none is lost, unless the subscription is doomed. -/
structure Answers (s : Subscription) (waiting : Bool) (new : List PiCloudEvent)
    (r : Subscription × Option Wake) : Prop where
  sound : r.1.Sound (waiting && r.2.isNone)
  handed : r.2.isSome = true → waiting = true
  keeps : ∀ e ∈ s.queued, e ∈ r.1.queued ∨ r.1.doomed = true
  takes : ∀ e ∈ new, e ∈ r.1.queued ∨ r.2 = some (.event e) ∨ r.1.doomed = true
  origin : ∀ e, e ∈ r.1.queued ∨ r.2 = some (.event e) → e ∈ s.queued ∨ e ∈ new
  sticky : s.doomed = true → r.1.doomed = true

section Answers

variable {s : Subscription} {waiting : Bool}

theorem sound_initial : Sound {} false where
  reading := rfl
  idle := nofun
  doomed := nofun

theorem answers_none (h : s.Sound waiting) : s.Answers waiting [] (s, none) where
  sound := by simpa using h
  handed := nofun
  keeps e he := .inl he
  takes := by simp
  origin e he := by simpa using he
  sticky := id

theorem askResync_answers (h : s.Sound waiting) : s.Answers waiting [] s.askResync := by
  unfold askResync
  split
  · exact answers_none h
  · rename_i hlive
    have hdoom : s.doomed = false := by simpa [Subscription.doomed] using hlive
    dsimp only
    split
    · rename_i hread
      have hw : waiting = true := by rw [← h.reading]; exact hread
      refine ⟨⟨by simp, by simp, fun _ => rfl⟩, fun _ => hw, ?_, by simp, ?_, ?_⟩
      · exact fun e he => .inr (by simp [Subscription.doomed])
      · rintro e (he | he) <;> cases he
      · simp [Subscription.doomed]
    · rename_i hread
      have hw : waiting = false := by rw [← h.reading]; simpa using hread
      subst hw
      refine ⟨⟨by simpa using hread, by simp, fun _ => rfl⟩, by simp, ?_, by simp, ?_, ?_⟩
      · exact fun e he => .inr (by simp [Subscription.doomed])
      · rintro e (he | he) <;> cases he
      · simp [Subscription.doomed]

theorem queued_push (s : Subscription) (event : PiCloudEvent) (n k : Nat) :
    queued { s with queuedWakes := s.queuedWakes ++ [(.event event, n)], queuedBytes := k } =
      s.queued ++ [event] := by
  simp [queued]

theorem notifyEvent_answers (h : s.Sound waiting) (maximum : Nat) (event : PiCloudEvent)
    (bytes : Nat) :
    ∃ r, s.notifyEvent maximum event bytes = r ∧ s.Answers waiting [event] r := by
  refine ⟨_, rfl, ?_⟩
  unfold notifyEvent
  split
  · rename_i hdead
    have := answers_none h
    refine ⟨this.sound, this.handed, this.keeps, fun e _ => ?_, ?_, this.sticky⟩
    · exact .inr (.inr hdead)
    · intro e he
      exact .inl (by simpa using he)
  · rename_i hlive
    have hdoom : s.doomed = false := by simpa [Subscription.doomed] using hlive
    have hfull : s.Answers waiting [event] s.askResync := by
      have hr := askResync_answers h
      refine ⟨hr.sound, hr.handed, hr.keeps, fun e _ => .inr (.inr ?_), ?_, hr.sticky⟩
      · unfold askResync
        rw [if_neg hlive]
        dsimp only
        split <;> simp [Subscription.doomed]
      · intro e he
        rcases hr.origin e he with h' | h'
        · exact .inl h'
        · cases h'
    split
    · rename_i hread
      have hw : waiting = true := by rw [← h.reading]; exact hread
      obtain ⟨hq, _⟩ := h.idle hw
      refine ⟨⟨by simp, by simp, fun hd => ?_⟩, fun _ => hw, fun e he => .inl he, ?_, ?_, ?_⟩
      · simp [queued, hq]
      · intro e he
        rw [List.mem_singleton.mp he]
        exact .inr (.inl rfl)
      · rintro e (he | he)
        · exact .inl he
        · cases he
          exact .inr (by simp)
      · intro hd
        rw [hdoom] at hd
        cases hd
    · rename_i hread
      have hw : waiting = false := by rw [← h.reading]; simpa using hread
      subst hw
      split
      · exact hfull
      · split
        · exact hfull
        · refine ⟨⟨by simpa using hread, by simp, fun hd => ?_⟩, by simp, ?_, ?_, ?_, ?_⟩
          · exact absurd (hdoom ▸ hd) (by simp)
          · intro e he
            rw [queued_push]
            exact .inl (List.mem_append_left _ he)
          · intro e he
            rw [queued_push]
            exact .inl (List.mem_append_right _ he)
          · rintro e (he | he)
            · rw [queued_push] at he
              exact List.mem_append.mp he
            · cases he
          · intro hd
            rw [hdoom] at hd
            cases hd

theorem notifyOther_answers (h : s.Sound waiting) (kept : Bool) :
    s.Answers waiting [] (s.notifyOther kept) := by
  unfold notifyOther
  split
  · exact answers_none h
  · split
    · rename_i hread
      have hw : waiting = true := by rw [← h.reading]; exact hread
      refine ⟨⟨by simp, by simp, h.doomed⟩, fun _ => hw, fun e he => .inl he, by simp, ?_, id⟩
      rintro e (he | he)
      · exact .inl he
      · cases he
    · refine ⟨⟨?_, ?_, h.doomed⟩, nofun, fun e he => .inl he, by simp, ?_, id⟩
      · simpa using h.reading
      · intro hw
        exact h.idle (by simpa using hw)
      · rintro e (he | he)
        · exact .inl he
        · cases he

theorem beat_answers (h : s.Sound waiting) : s.Answers waiting [] s.beat := by
  unfold beat
  split
  · rename_i hread
    have hw : waiting = true := by rw [← h.reading]; exact hread
    refine ⟨⟨by simp, by simp, h.doomed⟩, fun _ => hw, fun e he => .inl he, by simp, ?_, id⟩
    rintro e (he | he)
    · exact .inl he
    · cases he
  · exact answers_none h

theorem close_answers (h : s.Sound waiting) : s.Answers waiting [] s.close := by
  unfold close
  split
  · exact answers_none h
  · refine ⟨⟨?_, ?_, fun _ => rfl⟩, ?_, ?_, by simp, ?_, ?_⟩
    · cases hread : s.pendingRead with
      | true => simp
      | false =>
        have hw : waiting = false := by rw [← h.reading]; exact hread
        simp [hw]
    · cases hread : s.pendingRead with
      | true => simp
      | false =>
        have hw : waiting = false := by rw [← h.reading]; exact hread
        simp [hw]
    · rw [← h.reading]
      cases s.pendingRead <;> simp
    · exact fun e he => .inr (by simp [Subscription.doomed])
    · rintro e (he | he)
      · cases he
      · split at he <;> cases he
    · simp [Subscription.doomed]

theorem next_takes (h : s.Sound false) :
    s.next.1.Sound s.next.2.isNone ∧ s.next.1.doomed = s.doomed ∧
      ∀ e, e ∈ s.queued ↔ s.next.2 = some (.event e) ∨ e ∈ s.next.1.queued := by
  unfold next
  split
  · rename_i wake bytes rest hq
    have hqueued : ∀ e, e ∈ s.queued ↔ wake = .event e ∨
        e ∈ queued { s with queuedWakes := rest, queuedBytes := s.queuedBytes - bytes } := by
      intro e
      simp only [queued, hq]
      cases wake <;> simp [eq_comm]
    refine ⟨⟨h.reading, nofun, fun hd => ?_⟩, rfl, fun e => by simpa using hqueued e⟩
    refine List.eq_nil_iff_forall_not_mem.mpr (fun e he => ?_)
    have := (hqueued e).mpr (.inr he)
    rw [h.doomed hd] at this
    cases this
  · rename_i hq
    have hnone : s.queued = [] := by simp [queued, hq]
    split
    · exact ⟨⟨h.reading, nofun, h.doomed⟩, rfl, by simp [hnone]⟩
    · rename_i hlive
      have hdoom : s.doomed = false := by simpa [Subscription.doomed] using hlive
      split
      · have hrest : queued { s with others := false } = [] := hnone
        exact ⟨⟨h.reading, nofun, h.doomed⟩, rfl, by simp [hnone, hrest]⟩
      · have hrest : queued { s with pendingRead := true } = [] := hnone
        exact ⟨⟨rfl, fun _ => ⟨hq, hdoom⟩, fun _ => hnone⟩, rfl, by simp [hnone, hrest]⟩

end Answers

end Subscription

/-! ## How far the tail reaches -/

namespace CompactEventTail

/-- Everything up to `seq` is covered, or the tail holds an event at or after it. -/
def Reaches (t : CompactEventTail) (seq : Nat) : Prop :=
  seq ≤ t.covered ∨ ∃ s ∈ t.spans, seq ≤ s.event.seq

structure Ordered (t : CompactEventTail) : Prop where
  sorted : (t.spans.map (fun s => s.event.seq)).Pairwise (· < ·)
  known : ∀ s ∈ t.spans, ∃ p ∈ t.ids, p.1 = s.event.seq

theorem ordered_empty : Ordered {} where
  sorted := .nil
  known := by simp

theorem sorted_split {ss : List Span} {seq : Nat}
    (h : (ss.map (fun s => s.event.seq)).Pairwise (· < ·)) (hnew : ∀ s ∈ ss, s.event.seq ≠ seq) :
    ∃ ls rs, ss = ls ++ rs ∧ (∀ s ∈ ls, s.event.seq < seq) ∧ ∀ s ∈ rs, seq < s.event.seq := by
  induction ss with
  | nil => exact ⟨[], [], rfl, by simp, by simp⟩
  | cons s ss ih =>
    rw [List.map_cons, List.pairwise_cons] at h
    have hne := hnew s (List.mem_cons_self ..)
    by_cases hlt : s.event.seq < seq
    · obtain ⟨ls, rs, rfl, hl, hr⟩ := ih h.2 (fun t ht => hnew t (List.mem_cons_of_mem _ ht))
      exact ⟨s :: ls, rs, rfl, by simpa using ⟨hlt, hl⟩, hr⟩
    · refine ⟨[], s :: ss, rfl, by simp, fun t ht => ?_⟩
      cases ht with
      | head => omega
      | tail _ ht =>
        have := h.1 t.event.seq (List.mem_map_of_mem ht)
        omega

/-- Spans in order, of known sequences, that reach each of `seqs`. -/
def Extends (ids : List (Nat × JsString)) (seqs : List Nat) (us : List Span) : Prop :=
  (us.map (fun s => s.event.seq)).Pairwise (· < ·) ∧
    (∀ s ∈ us, ∃ p ∈ ids, p.1 = s.event.seq) ∧ ∀ n ∈ seqs, ∃ s ∈ us, n ≤ s.event.seq

theorem mergeAt_extends {ids : List (Nat × JsString)} {seqs : List Nat} {us vs : List Span}
    {i : Nat} (h : Extends ids seqs us) (hm : mergeAt us i = some vs) : Extends ids seqs vs := by
  obtain ⟨front, l, r, after, rfl, rfl, _⟩ := mergeAt_some hm
  obtain ⟨hsort, hknown, hreach⟩ := h
  have hseq : (l.merge r).event.seq = r.event.seq := mergedEvent_seq _ _
  refine ⟨?_, ?_, fun n hn => ?_⟩
  · rw [List.map_append, List.map_cons, hseq]
    refine hsort.sublist ?_
    rw [List.map_append, List.map_cons, List.map_cons]
    exact (List.Sublist.refl _).append (.cons _ (.refl _))
  · intro s hs
    rcases List.mem_append.mp hs with hs | hs
    · exact hknown s (by simp [hs])
    · cases hs with
      | head =>
        rw [hseq]
        exact hknown r (by simp)
      | tail _ hs => exact hknown s (List.mem_append_right _ (.tail _ (.tail _ hs)))
  · obtain ⟨s, hs, hle⟩ := hreach n hn
    have hlr : l.event.seq < r.event.seq := by
      rw [List.map_append, List.map_cons, List.map_cons, List.pairwise_append] at hsort
      exact (List.pairwise_cons.mp hsort.2.1).1 _ (List.mem_cons_self ..)
    rcases List.mem_append.mp hs with hs | hs
    · exact ⟨s, by simp [hs], hle⟩
    · rcases List.mem_cons.mp hs with rfl | hs
      · exact ⟨s.merge r, by simp, by omega⟩
      · rcases List.mem_cons.mp hs with rfl | hs
        · exact ⟨l.merge s, by simp, by omega⟩
        · exact ⟨s, by simp [hs], hle⟩

theorem accept_reaches {envelope : PiCloudEvent → Nat} {t u : CompactEventTail}
    {event : PiCloudEvent} {fresh : Bool} (h : t.Ordered)
    (ha : t.accept envelope event = .ok (fresh, u)) :
    u.Ordered ∧ (∀ n, t.Reaches n → u.Reaches n) ∧ (fresh = true → u.Reaches event.seq) := by
  unfold accept at ha
  split at ha
  · cases ha
    exact ⟨h, fun _ => id, nofun⟩
  · split at ha
    · split at ha <;> cases ha
      exact ⟨h, fun _ => id, nofun⟩
    · rename_i hfresh
      cases ha
      have hnew : ∀ s ∈ t.spans, s.event.seq ≠ event.seq := by
        intro s hs heq
        obtain ⟨p, hp, hps⟩ := h.known s hs
        have := List.lookup_eq_none_iff.mp hfresh p hp
        simp [hps, heq] at this
      obtain ⟨ls, rs, hsplit, hl, hr⟩ := sorted_split h.sorted hnew
      have hpos : position t.spans event.seq = ls.length := by rw [hsplit, position_eq hl hr]
      have hinserted : Extends ((event.seq, event.eventId) :: t.ids)
          (event.seq :: t.spans.map (fun s => s.event.seq))
          (ls ++ .ofEvent envelope event :: rs) := by
        have hsort := h.sorted
        rw [hsplit, List.map_append, List.pairwise_append] at hsort
        refine ⟨?_, ?_, ?_⟩
        · rw [List.map_append, List.map_cons, List.pairwise_append, List.pairwise_cons]
          refine ⟨hsort.1, ⟨?_, hsort.2.1⟩, ?_⟩
          · intro n hn
            obtain ⟨s, hs, rfl⟩ := List.mem_map.mp hn
            exact hr s hs
          · intro n hn m hm
            rcases List.mem_cons.mp hm with rfl | hm
            · obtain ⟨s, hs, rfl⟩ := List.mem_map.mp hn
              exact hl s hs
            · exact hsort.2.2 n hn m hm
        · intro s hs
          by_cases hin : s ∈ t.spans
          · obtain ⟨p, hp, hps⟩ := h.known s hin
            exact ⟨p, List.mem_cons_of_mem _ hp, hps⟩
          · rw [hsplit] at hin
            simp only [List.mem_append, List.mem_cons] at hs hin
            have : s = .ofEvent envelope event := by tauto
            exact ⟨_, List.mem_cons_self .., by rw [this]; rfl⟩
        · intro n hn
          rcases List.mem_cons.mp hn with rfl | hn
          · exact ⟨.ofEvent envelope event, by simp, Nat.le_refl _⟩
          · obtain ⟨s, hs, rfl⟩ := List.mem_map.mp hn
            rw [hsplit] at hs
            refine ⟨s, ?_, Nat.le_refl _⟩
            simp only [List.mem_append, List.mem_cons] at hs ⊢
            tauto
      have hkeep := insertAt_keeps (fun us vs i => mergeAt_extends) hinserted
      rw [← hsplit, ← hpos] at hkeep
      obtain ⟨h1, h2, h3⟩ := hkeep
      refine ⟨⟨h1, h2⟩, ?_, fun _ => .inr (h3 _ (List.mem_cons_self ..))⟩
      rintro n (hn | ⟨s, hs, hle⟩)
      · exact .inl hn
      · obtain ⟨v, hv, hle'⟩ := h3 s.event.seq (List.mem_cons_of_mem _ (List.mem_map_of_mem hs))
        exact .inr ⟨v, hv, by omega⟩

theorem cover_reaches {t : CompactEventTail} (h : t.Ordered) (through : Nat) :
    (t.cover through).Ordered ∧ ∀ n, t.Reaches n → (t.cover through).Reaches n := by
  refine ⟨⟨h.sorted.sublist (List.filter_sublist.map _), fun s hs => ?_⟩, ?_⟩
  · obtain ⟨hmem, habove⟩ := List.mem_filter.mp hs
    obtain ⟨p, hp, hps⟩ := h.known s hmem
    exact ⟨p, List.mem_filter.mpr ⟨hp, by rw [hps]; exact habove⟩, hps⟩
  · rintro n (hn | ⟨s, hs, hle⟩)
    · exact .inl (Nat.le_trans hn (Nat.le_max_left _ _))
    · by_cases hcov : max t.covered through < s.event.seq
      · exact .inr ⟨s, List.mem_filter.mpr ⟨hs, by simpa using hcov⟩, hle⟩
      · exact .inl (by show n ≤ max t.covered through; omega)

end CompactEventTail

/-! ## No event is lost -/

namespace LiveStream

def waiting (s : LiveStream) : Bool :=
  match s.stage with
  | .waiting => true
  | _ => false

/-- The snapshot was loaded, so the high-water mark is set. -/
def piping (s : LiveStream) : Bool :=
  match s.stage with
  | .unopened => false
  | .loading _ => false
  | _ => true

/-- The event the loop was handed and has not written. -/
def inHand (s : LiveStream) : List PiCloudEvent :=
  match s.stage with
  | .holding (.event event) => [event]
  | .writing event => [event]
  | _ => []

/-- An accepted event that the snapshot holds or will hold, or that was sent. -/
def Settled (s : LiveStream) (event : PiCloudEvent) : Prop :=
  match s.stage with
  | .unopened => s.tail.Reaches event.seq
  | .loading tail =>
    event.seq ≤ tail.canonicalThroughSequence ∨ ∃ e ∈ tail.events, event.seq ≤ e.seq
  | _ => event.seq ≤ s.lastSentSequence

def Owed (s : LiveStream) (event : PiCloudEvent) : Prop :=
  s.Settled event ∨ event ∈ s.subscription.queued ∨ event ∈ s.inHand ∨ s.subscription.doomed = true

structure Kept (s : LiveStream) : Prop where
  sound : s.stage ≠ .ended → s.subscription.Sound s.waiting
  ordered : s.tail.Ordered
  unopened : s.stage = .unopened → s.sent = []
  loading : ∀ tail, s.stage = .loading tail →
    s.sent = [] ∧ (tail.events.map PiCloudEvent.seq).Pairwise (· < ·)
  writing : ∀ event, s.stage = .writing event → event.seq = s.lastSentSequence + 1
  counted : s.lastSentSequence = s.highWaterMark + s.sent.length
  consecutive : s.sent.map PiCloudEvent.seq = List.range' (s.highWaterMark + 1) s.sent.length
  owed : s.stage ≠ .ended → ∀ e ∈ s.accepted, s.Owed e
  origin : ∀ e, e ∈ s.sent ∨ e ∈ s.subscription.queued ∨ e ∈ s.inHand → e ∈ s.published

section Steps

variable {s : LiveStream}

theorem kept_initial : Kept {} where
  sound _ := Subscription.sound_initial
  ordered := CompactEventTail.ordered_empty
  unopened _ := rfl
  loading _ h := nomatch h
  writing _ h := nomatch h
  counted := rfl
  consecutive := rfl
  owed _ := by simp
  origin := by simp [Subscription.queued, inHand]

theorem Kept.finish (h : Kept s) : Kept s.finish where
  sound := nofun
  ordered := h.ordered
  unopened := nofun
  loading _ h := nomatch h
  writing _ h := nomatch h
  counted := h.counted
  consecutive := h.consecutive
  owed hs := absurd rfl hs
  origin e he := by
    rcases he with he | he | he
    · exact h.origin e (.inl he)
    · refine h.origin e (.inr (.inl ?_))
      simp only [LiveStream.finish, Subscription.close] at he
      split at he
      · exact he
      · cases he
    · cases he

theorem Kept.resolve (h : Kept s) (hlive : s.stage ≠ .ended) {new : List PiCloudEvent}
    {r : Subscription × Option Wake} (hr : s.subscription.Answers s.waiting new r)
    (hnew : ∀ e ∈ new, e ∈ s.published) :
    Kept (s.resolve r) ∧ ∀ e ∈ new, (s.resolve r).Owed e := by
  obtain ⟨subscription, wake⟩ := r
  cases wake with
  | none =>
    have horigin : ∀ e ∈ subscription.queued, e ∈ s.published := by
      intro e he
      rcases hr.origin e (.inl he) with h' | h'
      · exact h.origin e (.inr (.inl h'))
      · exact hnew e h'
    have hsound : subscription.Sound s.waiting := by simpa using hr.sound
    refine ⟨⟨fun _ => hsound, h.ordered, h.unopened, h.loading, h.writing,
      h.counted, h.consecutive, fun _ e he => ?_, ?_⟩, fun e he => ?_⟩
    · rcases h.owed hlive e he with h' | h' | h' | h'
      · exact .inl h'
      · rcases hr.keeps e h' with hk | hk
        · exact .inr (.inl hk)
        · exact .inr (.inr (.inr hk))
      · exact .inr (.inr (.inl h'))
      · exact .inr (.inr (.inr (hr.sticky h')))
    · rintro e (he | he | he)
      · exact h.origin e (.inl he)
      · exact horigin e he
      · exact h.origin e (.inr (.inr he))
    · rcases hr.takes e he with h' | h' | h'
      · exact .inr (.inl h')
      · cases h'
      · exact .inr (.inr (.inr h'))
  | some wake =>
    -- only a read that was pending is handed something
    have hwait : s.stage = .waiting := by
      have := hr.handed rfl
      unfold LiveStream.waiting at this
      split at this
      · assumption
      · cases this
    have hhand : ∀ e, e ∈ (s.resolve (subscription, some wake)).inHand ↔ wake = .event e := by
      intro e
      cases wake <;> simp [LiveStream.resolve, inHand, eq_comm]
    have hsound : subscription.Sound false := by simpa using hr.sound
    refine ⟨⟨fun _ => hsound, h.ordered, nofun, (fun _ h => nomatch h), (fun _ h => nomatch h),
      h.counted,
      h.consecutive, fun _ e he => ?_, ?_⟩, fun e he => ?_⟩
    · rcases h.owed hlive e he with h' | h' | h' | h'
      · left
        unfold Settled at h'
        rw [hwait] at h'
        exact h'
      · rcases hr.keeps e h' with hk | hk
        · exact .inr (.inl hk)
        · exact .inr (.inr (.inr hk))
      · unfold inHand at h'
        rw [hwait] at h'
        cases h'
      · exact .inr (.inr (.inr (hr.sticky h')))
    · rintro e (he | he | he)
      · exact h.origin e (.inl he)
      · rcases hr.origin e (.inl he) with h' | h'
        · exact h.origin e (.inr (.inl h'))
        · exact hnew e h'
      · rcases hr.origin e (.inr (by rw [(hhand e).mp he])) with h' | h'
        · exact h.origin e (.inr (.inl h'))
        · exact hnew e h'
    · rcases hr.takes e he with h' | h' | h'
      · exact .inr (.inl h')
      · exact .inr (.inr (.inl ((hhand e).mpr (by simpa using h'))))
      · exact .inr (.inr (.inr h'))

theorem Kept.withTail (h : Kept s) {tail : CompactEventTail} (hord : tail.Ordered)
    (hreach : ∀ n, s.tail.Reaches n → tail.Reaches n) : Kept { s with tail } where
  sound := h.sound
  ordered := hord
  unopened := h.unopened
  loading := h.loading
  writing := h.writing
  counted := h.counted
  consecutive := h.consecutive
  owed hs e he := by
    rcases h.owed hs e he with h' | h'
    · left
      unfold Settled at h' ⊢
      dsimp only
      cases hstage : s.stage <;> rw [hstage] at h'
      · exact hreach _ h'
      all_goals exact h'
    · exact .inr h'
  origin := h.origin

theorem Kept.cover (h : Kept s) (through : Nat) : Kept (s.cover through) :=
  h.withTail (CompactEventTail.cover_reaches h.ordered through).1
    (CompactEventTail.cover_reaches h.ordered through).2

theorem Kept.forget (h : Kept s) :
    Kept { s with tail := {}, accepted := if s.subscribed then s.accepted else [] } where
  sound := h.sound
  ordered := CompactEventTail.ordered_empty
  unopened := h.unopened
  loading := h.loading
  writing := h.writing
  counted := h.counted
  consecutive := h.consecutive
  owed hs e he := by
    dsimp only at he
    split at he
    · rename_i hsub
      rcases h.owed hs e he with h' | h'
      · left
        unfold Settled at h' ⊢
        unfold subscribed at hsub
        dsimp only
        cases hstage : s.stage <;> rw [hstage] at h' hsub
        · cases hsub
        all_goals exact h'
      · exact .inr h'
    · cases he
  origin := h.origin

theorem Kept.addAccepted (h : Kept s) (event : PiCloudEvent)
    (ho : s.stage ≠ .ended → s.Owed event) : Kept { s with accepted := event :: s.accepted } where
  sound := h.sound
  ordered := h.ordered
  unopened := h.unopened
  loading := h.loading
  writing := h.writing
  counted := h.counted
  consecutive := h.consecutive
  owed hs e he := by
    rcases List.mem_cons.mp he with rfl | he
    · exact ho hs
    · exact h.owed hs e he
  origin := h.origin

theorem Kept.addPublished (h : Kept s) (event : PiCloudEvent) :
    Kept { s with published := event :: s.published } where
  sound := h.sound
  ordered := h.ordered
  unopened := h.unopened
  loading := h.loading
  writing := h.writing
  counted := h.counted
  consecutive := h.consecutive
  owed := h.owed
  origin e he := List.mem_cons_of_mem _ (h.origin e he)

theorem resolve_accepted (s : LiveStream) (accepted : List PiCloudEvent)
    (r : Subscription × Option Wake) :
    { s with accepted }.resolve r = { s.resolve r with accepted } := by
  obtain ⟨_, wake⟩ := r
  cases wake <;> rfl

theorem live_of_subscribed (h : s.subscribed = true) : s.stage ≠ .ended := by
  intro hstage
  unfold subscribed at h
  rw [hstage] at h
  cases h

theorem Kept.accept (h : Kept s) (envelope bytes : PiCloudEvent → Nat) (maximum : Nat)
    (event : PiCloudEvent) : Kept (s.accept envelope bytes maximum event) := by
  unfold LiveStream.accept
  split
  · exact h
  · rename_i tail hacc
    obtain ⟨hord, hreach, _⟩ := CompactEventTail.accept_reaches h.ordered hacc
    exact h.withTail hord hreach
  · rename_i tail hacc
    obtain ⟨hord, hreach, hnew⟩ := CompactEventTail.accept_reaches h.ordered hacc
    have hpub := (h.withTail hord hreach).addPublished event
    have hkept : Kept (if s.subscribed then
        { s with tail, published := event :: s.published,
                 accepted := event :: s.accepted }.resolve
          (s.subscription.notifyEvent maximum event (bytes event))
        else { s with tail, published := event :: s.published,
                      accepted := event :: s.accepted }) := by
      split
      · rename_i hsub
        have hlive := live_of_subscribed hsub
        obtain ⟨r, hr, hans⟩ :=
          Subscription.notifyEvent_answers (h.sound hlive) maximum event (bytes event)
        obtain ⟨hk, ho⟩ := hpub.resolve hlive hans (by simp)
        rw [hr]
        have hres := hk.addAccepted event (fun _ => ho event (List.mem_singleton_self _))
        have heq := resolve_accepted { s with tail, published := event :: s.published }
          (event :: s.accepted) r
        rw [heq]
        obtain ⟨_, wake⟩ := r
        cases wake <;> exact hres
      · rename_i hsub
        refine hpub.addAccepted event (fun hlive => .inl ?_)
        unfold Settled
        unfold subscribed at hsub
        dsimp only at hlive ⊢
        cases hstage : s.stage <;> rw [hstage] at hsub hlive
        · exact hnew rfl
        all_goals first | exact absurd rfl hsub | exact absurd rfl hlive
    dsimp only
    split
    · exact hkept.cover _
    · exact hkept

theorem Kept.open (h : Kept s) (hstage : s.stage = .unopened) :
    Kept { s with stage := .loading ⟨s.tail.covered, s.tail.events⟩ } where
  sound _ := by
    have := h.sound (by rw [hstage]; nofun)
    unfold LiveStream.waiting at this ⊢
    rw [hstage] at this
    exact this
  ordered := h.ordered
  unopened := nofun
  loading tail htail := by
    cases htail
    refine ⟨h.unopened hstage, ?_⟩
    have := h.ordered.sorted
    rwa [CompactEventTail.events, List.map_map]
  writing _ h := nomatch h
  counted := h.counted
  consecutive := h.consecutive
  owed _ e he := by
    rcases h.owed (by rw [hstage]; nofun) e he with h' | h' | h' | h'
    · left
      unfold Settled at h' ⊢
      rw [hstage] at h'
      rcases h' with h' | ⟨x, hx, hle⟩
      · exact .inl h'
      · exact .inr ⟨x.event, List.mem_map_of_mem hx, hle⟩
    · exact .inr (.inl h')
    · unfold inHand at h'
      rw [hstage] at h'
      cases h'
    · exact .inr (.inr (.inr h'))
  origin e he := by
    rcases he with he | he | he
    · exact h.origin e (.inl he)
    · exact h.origin e (.inr (.inl he))
    · cases he

theorem openHighWaterMark_reaches {tail : TailSnapshot} {canonical mark n : Nat}
    (hsorted : (tail.events.map PiCloudEvent.seq).Pairwise (· < ·))
    (hm : openHighWaterMark tail canonical = some mark)
    (hn : n ≤ tail.canonicalThroughSequence ∨ ∃ e ∈ tail.events, n ≤ e.seq) : n ≤ mark := by
  unfold openHighWaterMark at hm
  split at hm
  · cases hm
  · rename_i hcanon
    simp only [Option.some.injEq] at hm
    have hsort : ((tail.events.filter (fun event => canonical < event.seq)).map
        PiCloudEvent.seq).Pairwise (· < ·) := hsorted.sublist (List.filter_sublist.map _)
    have hpast : canonical ≤ mark ∧ ∀ e ∈ tail.events, canonical < e.seq → e.seq ≤ mark := by
      rcases List.eq_nil_or_concat (tail.events.filter (fun event => canonical < event.seq)) with
        hnil | ⟨front, last, hlast⟩
      · rw [hnil] at hm
        simp only [List.getLast?_nil] at hm
        refine ⟨by omega, fun e he hlt => ?_⟩
        have := (List.eq_nil_iff_forall_not_mem.mp hnil) e
          (List.mem_filter.mpr ⟨he, by simpa using hlt⟩)
        cases this
      · rw [List.concat_eq_append] at hlast
        rw [hlast] at hm hsort
        simp only [List.getLast?_append, List.getLast?_singleton, Option.some_or] at hm
        have hin : ∀ e ∈ tail.events, canonical < e.seq → e ∈ front ++ [last] := by
          intro e he hlt
          rw [← hlast]
          exact List.mem_filter.mpr ⟨he, by simpa using hlt⟩
        have hlive : last ∈ tail.events.filter (fun event => canonical < event.seq) := by
          rw [hlast]
          simp
        have hgt : canonical < last.seq := by simpa using (List.mem_filter.mp hlive).2
        refine ⟨by omega, fun e he hlt => ?_⟩
        rcases List.mem_append.mp (hin e he hlt) with hf | hf
        · rw [List.map_append, List.pairwise_append] at hsort
          have := hsort.2.2 e.seq (List.mem_map_of_mem hf) last.seq (by simp)
          omega
        · rw [List.mem_singleton.mp hf]
          omega
    rcases hn with hn | ⟨e, he, hn⟩
    · omega
    · by_cases hlt : canonical < e.seq
      · have := hpast.2 e he hlt
        omega
      · omega

theorem Kept.load (h : Kept s) (canonical : Nat) : Kept (s.load canonical) := by
  unfold LiveStream.load
  split
  · rename_i tail hstage
    obtain ⟨hsent, hsorted⟩ := h.loading tail hstage
    split
    · exact h.finish
    · rename_i mark hmark
      have hlive : s.stage ≠ .ended := by rw [hstage]; nofun
      refine ⟨fun _ => ?_, h.ordered, nofun, (fun _ h => nomatch h), (fun _ h => nomatch h),
        by simp [hsent], by simp [hsent], fun _ e he => ?_, ?_⟩
      · have := h.sound hlive
        unfold LiveStream.waiting at this
        rw [hstage] at this
        exact this
      · rcases h.owed hlive e he with h' | h' | h' | h'
        · left
          unfold Settled at h'
          rw [hstage] at h'
          exact openHighWaterMark_reaches hsorted hmark h'
        · exact .inr (.inl h')
        · unfold inHand at h'
          rw [hstage] at h'
          cases h'
        · exact .inr (.inr (.inr h'))
      · rintro e (he | he | he)
        · exact h.origin e (.inl he)
        · exact h.origin e (.inr (.inl he))
        · cases he
  · exact h

theorem settled_piping (hp : s.piping = true) (e : PiCloudEvent) :
    s.Settled e ↔ e.seq ≤ s.lastSentSequence := by
  unfold piping at hp
  unfold Settled
  split at hp
  · cases hp
  · cases hp
  · exact Iff.rfl

theorem Kept.toReady (h : Kept s) (hp : s.piping = true) (hlive : s.stage ≠ .ended)
    (hwait : s.waiting = false) (hhand : ∀ e ∈ s.inHand, e.seq ≤ s.lastSentSequence) :
    Kept { s with stage := .ready } where
  sound _ := by
    have := h.sound hlive
    rwa [hwait] at this
  ordered := h.ordered
  unopened := nofun
  loading _ h := nomatch h
  writing _ h := nomatch h
  counted := h.counted
  consecutive := h.consecutive
  owed _ e he := by
    rcases h.owed hlive e he with h' | h' | h' | h'
    · exact .inl ((settled_piping hp e).mp h')
    · exact .inr (.inl h')
    · exact .inl (hhand e h')
    · exact .inr (.inr (.inr h'))
  origin e he := by
    rcases he with he | he | he
    · exact h.origin e (.inl he)
    · exact h.origin e (.inr (.inl he))
    · cases he

theorem Kept.read (h : Kept s) (hstage : s.stage = .ready) : Kept (s.proceed true) := by
  have hlive : s.stage ≠ .ended := by rw [hstage]; nofun
  have hsound : s.subscription.Sound false := by
    have := h.sound hlive
    unfold LiveStream.waiting at this
    rwa [hstage] at this
  obtain ⟨hs, hd, hq⟩ := Subscription.next_takes hsound
  have howed : ∀ e ∈ s.accepted, e.seq ≤ s.lastSentSequence ∨ e ∈ s.subscription.queued ∨
      s.subscription.doomed = true := by
    intro e he
    rcases h.owed hlive e he with h' | h' | h' | h'
    · unfold Settled at h'
      rw [hstage] at h'
      exact .inl h'
    · exact .inr (.inl h')
    · unfold inHand at h'
      rw [hstage] at h'
      cases h'
    · exact .inr (.inr h')
  unfold LiveStream.proceed
  rw [hstage]
  dsimp only
  split
  · rename_i subscription wake hnext
    rw [hnext] at hs hd hq
    dsimp only at hs hd hq
    have hhand : ∀ e, e ∈ inHand { s with subscription, stage := .holding wake } ↔
        wake = .event e := by
      intro e
      cases wake <;> simp [inHand, eq_comm]
    refine ⟨fun _ => hs, h.ordered, nofun, (fun _ h => nomatch h), (fun _ h => nomatch h),
      h.counted, h.consecutive,
      fun _ e he => ?_, ?_⟩
    · rcases howed e he with h' | h' | h'
      · exact .inl h'
      · rcases (hq e).mp h' with h' | h'
        · exact .inr (.inr (.inl ((hhand e).mpr (by simpa using h'))))
        · exact .inr (.inl h')
      · exact .inr (.inr (.inr (hd.trans h')))
    · rintro e (he | he | he)
      · exact h.origin e (.inl he)
      · exact h.origin e (.inr (.inl ((hq e).mpr (.inr he))))
      · exact h.origin e (.inr (.inl ((hq e).mpr (.inl (by rw [(hhand e).mp he])))))
  · rename_i subscription hnext
    rw [hnext] at hs hd hq
    dsimp only at hs hd hq
    refine ⟨fun _ => hs, h.ordered, nofun, (fun _ h => nomatch h), (fun _ h => nomatch h),
      h.counted, h.consecutive,
      fun _ e he => ?_, ?_⟩
    · rcases howed e he with h' | h' | h'
      · exact .inl h'
      · exact .inr (.inl (by simpa using (hq e).mp h'))
      · exact .inr (.inr (.inr (hd.trans h')))
    · rintro e (he | he | he)
      · exact h.origin e (.inl he)
      · exact h.origin e (.inr (.inl ((hq e).mpr (.inr he))))
      · cases he

theorem Kept.handle (h : Kept s) {wake : Wake} (hstage : s.stage = .holding wake)
    (written : Bool) : Kept (s.handle wake written) := by
  have hlive : s.stage ≠ .ended := by rw [hstage]; nofun
  have hp : s.piping = true := by unfold piping; rw [hstage]
  have hwait : s.waiting = false := by unfold LiveStream.waiting; rw [hstage]
  have hhand : ∀ e, e ∈ s.inHand ↔ wake = .event e := by
    intro e
    unfold inHand
    rw [hstage]
    cases wake <;> simp [eq_comm]
  cases wake with
  | heartbeat | other =>
    unfold LiveStream.handle
    dsimp only
    split
    · refine h.toReady hp hlive hwait (fun e he => ?_)
      cases (hhand e).mp he
    · exact h.finish
  | done | resync => exact h.finish
  | event event =>
    unfold LiveStream.handle
    dsimp only
    split
    · rename_i hle
      refine h.toReady hp hlive hwait (fun e he => ?_)
      cases (hhand e).mp he
      exact hle
    · split
      · exact h.finish
      · rename_i hnext
        refine ⟨fun _ => ?_, h.ordered, nofun, (fun _ h => nomatch h), fun e he => ?_,
          h.counted, h.consecutive, fun _ e he => ?_, ?_⟩
        · have := h.sound hlive
          rwa [hwait] at this
        · cases he
          simpa using hnext
        · rcases h.owed hlive e he with h' | h' | h' | h'
          · exact .inl ((settled_piping hp e).mp h')
          · exact .inr (.inl h')
          · cases (hhand e).mp h'
            exact .inr (.inr (.inl (List.mem_singleton_self _)))
          · exact .inr (.inr (.inr h'))
        · rintro e (he | he | he)
          · exact h.origin e (.inl he)
          · exact h.origin e (.inr (.inl he))
          · cases List.mem_singleton.mp he
            exact h.origin event (.inr (.inr ((hhand event).mpr rfl)))

theorem Kept.sentEvent (h : Kept s) {event : PiCloudEvent} (hstage : s.stage = .writing event) :
    Kept { s with stage := .ready, lastSentSequence := event.seq, sent := s.sent ++ [event] } := by
  have hseq := h.writing event hstage
  have hlive : s.stage ≠ .ended := by rw [hstage]; nofun
  have hhand : s.inHand = [event] := by
    unfold inHand
    rw [hstage]
  have hcount := h.counted
  refine ⟨fun _ => ?_, h.ordered, nofun, (fun _ h => nomatch h), (fun _ h => nomatch h),
    ?_, ?_, fun _ e he => ?_, ?_⟩
  · have := h.sound hlive
    unfold LiveStream.waiting at this
    rwa [hstage] at this
  · simp only [List.length_append, List.length_singleton]
    omega
  · dsimp only
    rw [List.map_append, h.consecutive, List.length_append, List.length_singleton,
      List.range'_1_concat, List.map_singleton, hseq, hcount]
    simp only [List.append_cancel_left_eq, List.cons.injEq, and_true]
    omega
  · have hsettled : ∀ n, n ≤ s.lastSentSequence → n ≤ event.seq := fun n hn => by omega
    rcases h.owed hlive e he with h' | h' | h' | h'
    · unfold Settled at h'
      rw [hstage] at h'
      exact .inl (hsettled _ h')
    · exact .inr (.inl h')
    · rw [hhand] at h'
      rw [List.mem_singleton.mp h']
      exact .inl (Nat.le_refl _)
    · exact .inr (.inr (.inr h'))
  · rintro e (he | he | he)
    · rcases List.mem_append.mp he with he | he
      · exact h.origin e (.inl he)
      · exact h.origin e (.inr (.inr (by rw [hhand]; exact he)))
    · exact h.origin e (.inr (.inl he))
    · cases he

theorem Kept.proceed (h : Kept s) (written : Bool) : Kept (s.proceed written) := by
  cases hstage : s.stage with
  | ready =>
    have := h.read hstage
    unfold LiveStream.proceed at this ⊢
    rw [hstage] at this ⊢
    exact this
  | snapshot =>
    unfold LiveStream.proceed
    rw [hstage]
    dsimp only
    split
    · refine h.toReady ?_ (by rw [hstage]; nofun) ?_ ?_
      · unfold piping; rw [hstage]
      · unfold LiveStream.waiting; rw [hstage]
      · unfold inHand; rw [hstage]; exact List.forall_mem_nil _
    · exact h.finish
  | holding wake =>
    unfold LiveStream.proceed
    rw [hstage]
    exact h.handle hstage written
  | writing event =>
    unfold LiveStream.proceed
    rw [hstage]
    dsimp only
    split
    · exact h.sentEvent hstage
    · exact h.finish
  | unopened | loading _ | waiting | ended =>
    unfold LiveStream.proceed
    rw [hstage]
    exact h

theorem Kept.act (h : Kept s) (envelope bytes : PiCloudEvent → Nat) (maximum : Nat)
    (a : StreamAction) : Kept (s.act envelope bytes maximum a) := by
  have hhub : ∀ {t : LiveStream} {r}, Kept t →
      (t.stage ≠ .ended → t.subscription.Answers t.waiting [] r) →
      Kept (if t.subscribed then t.resolve r else t) := by
    intro t r ht hr
    split
    · rename_i hsub
      have hlive := live_of_subscribed hsub
      exact (ht.resolve hlive (hr hlive) (by simp)).1
    · exact ht
  cases a with
  | accept event => exact h.accept envelope bytes maximum event
  | cover through => exact h.cover through
  | sweep =>
    unfold LiveStream.act
    dsimp only
    split
    · exact h.forget
    · exact h
  | reset => exact hhub h.forget (fun hlive => Subscription.askResync_answers (h.sound hlive))
  | resyncSession => exact hhub h (fun hlive => Subscription.askResync_answers (h.sound hlive))
  | notifyOther kept =>
    exact hhub h (fun hlive => Subscription.notifyOther_answers (h.sound hlive) kept)
  | heartbeat => exact hhub h (fun hlive => Subscription.beat_answers (h.sound hlive))
  | «open» =>
    unfold LiveStream.act
    dsimp only
    split
    · rename_i hstage
      exact h.open hstage
    · exact h
  | load canonical => exact h.load canonical
  | proceed written => exact h.proceed written
  | disconnect => exact hhub h (fun hlive => Subscription.close_answers (h.sound hlive))

end Steps

/-! ## What reaches the client -/

def backlog (s : LiveStream) : Nat :=
  3 * s.subscription.queuedWakes.length + if s.subscription.others then 3 else 0

/-- The turns the loop still takes before it waits or ends, at most. -/
def work (s : LiveStream) : Nat :=
  match s.stage with
  | .snapshot => s.backlog + 3
  | .ready => s.backlog + 2
  | .holding .done => 1
  | .holding _ => s.backlog + 4
  | .writing _ => s.backlog + 3
  | _ => 0

def drain : Nat → LiveStream → LiveStream
  | 0, s => s
  | n + 1, s => drain n (s.proceed true)

section Drain

variable {s : LiveStream}

theorem read_work (hstage : s.stage = .ready) : (s.proceed true).work < s.backlog + 2 := by
  have hnext : s.subscription.next.2 = some .done ∨
      (s.subscription.next.2 = none ∨
        3 * s.subscription.next.1.queuedWakes.length +
          (if s.subscription.next.1.others then 3 else 0) + 3 ≤ s.backlog) := by
    unfold Subscription.next backlog
    cases hq : s.subscription.queuedWakes with
    | cons w rest =>
      right
      right
      simp only [List.length_cons]
      omega
    | nil =>
      dsimp only
      split
      · exact .inl rfl
      · split
        · rename_i ho
          right
          right
          simp
        · exact .inr (.inl rfl)
  unfold LiveStream.proceed
  rw [hstage]
  dsimp only
  split
  · rename_i subscription wake hr
    rw [hr] at hnext
    unfold work
    rcases hnext with hnext | hnext | hnext
    · simp only [Option.some.injEq] at hnext
      simp only [hnext]
      omega
    · cases hnext
    · unfold backlog at hnext ⊢
      dsimp only at hnext ⊢
      split <;> omega
  · unfold work
    dsimp only
    omega

theorem handle_work {wake : Wake} (hwake : wake ≠ .done) :
    (s.handle wake true).work ≤ s.backlog + 3 := by
  unfold LiveStream.handle
  cases wake with
  | heartbeat | other =>
    show s.backlog + 2 ≤ _
    omega
  | resync => exact Nat.zero_le _
  | done => exact absurd rfl hwake
  | event event =>
    dsimp only
    split
    · show s.backlog + 2 ≤ _
      omega
    · split
      · exact Nat.zero_le _
      · exact Nat.le_refl _

theorem proceed_work (hp : s.piping = true) (hwait : s.stage ≠ .waiting)
    (hlive : s.stage ≠ .ended) :
    (s.proceed true).work < s.work ∧ (s.proceed true).piping = true := by
  have hpiping : (s.proceed true).piping = true := by
    unfold LiveStream.proceed
    split
    · rfl
    · split <;> rfl
    · unfold LiveStream.handle
      split
      · rfl
      · rfl
      · rfl
      · rfl
      · split
        · rfl
        · split <;> rfl
    · rfl
    · exact hp
  refine ⟨?_, hpiping⟩
  cases hstage : s.stage with
  | unopened | loading _ =>
    unfold piping at hp
    rw [hstage] at hp
    cases hp
  | waiting => exact absurd hstage hwait
  | ended => exact absurd hstage hlive
  | snapshot =>
    unfold LiveStream.proceed work
    rw [hstage]
    show s.backlog + 2 < s.backlog + 3
    omega
  | ready =>
    have := read_work hstage
    unfold work at this ⊢
    rw [hstage]
    exact this
  | writing event =>
    unfold LiveStream.proceed work
    rw [hstage]
    show s.backlog + 2 < s.backlog + 3
    omega
  | holding wake =>
    have hstep : s.proceed true = s.handle wake true := by
      unfold LiveStream.proceed
      rw [hstage]
    rw [hstep]
    by_cases hwake : wake = .done
    · subst hwake
      unfold work
      rw [hstage]
      exact Nat.zero_lt_one
    · have hle := handle_work (s := s) hwake
      have hwork : s.work = s.backlog + 4 := by
        unfold work
        rw [hstage]
        cases wake <;> first | rfl | exact absurd rfl hwake
      omega

theorem proceed_keeps (s : LiveStream) (written : Bool) :
    (s.proceed written).highWaterMark = s.highWaterMark ∧
      (s.proceed written).accepted = s.accepted := by
  unfold LiveStream.proceed
  split
  · split <;> exact ⟨rfl, rfl⟩
  · split <;> exact ⟨rfl, rfl⟩
  · unfold LiveStream.handle
    split
    · split <;> exact ⟨rfl, rfl⟩
    · split <;> exact ⟨rfl, rfl⟩
    · exact ⟨rfl, rfl⟩
    · exact ⟨rfl, rfl⟩
    · split
      · exact ⟨rfl, rfl⟩
      · split <;> exact ⟨rfl, rfl⟩
  · split <;> exact ⟨rfl, rfl⟩
  · exact ⟨rfl, rfl⟩

theorem Kept.drain (h : Kept s) (hp : s.piping = true) :
    ∃ n, Kept (s.drain n) ∧ (s.drain n).highWaterMark = s.highWaterMark ∧
      (s.drain n).accepted = s.accepted ∧
      ((s.drain n).stage = .waiting ∨ (s.drain n).stage = .ended) := by
  induction hwork : s.work using Nat.strongRecOn generalizing s with
  | ind work ih =>
    by_cases hdone : s.stage = .waiting ∨ s.stage = .ended
    · exact ⟨0, h, rfl, rfl, hdone⟩
    · obtain ⟨hwait, hlive⟩ := not_or.mp hdone
      obtain ⟨hless, hp'⟩ := proceed_work hp hwait hlive
      obtain ⟨n, hk, hm, ha, hs⟩ := ih _ (hwork ▸ hless) (h.proceed true) hp' rfl
      obtain ⟨hm', ha'⟩ := proceed_keeps s true
      exact ⟨n + 1, hk, hm.trans hm', ha.trans ha', hs⟩

end Drain

theorem Kept.reaches (h : Kept s) (hp : s.piping = true) (hlive : s.stage ≠ .ended)
    (hd : s.subscription.doomed = false) {e : PiCloudEvent} (he : e ∈ s.accepted)
    (habove : s.highWaterMark < e.seq) :
    (∃ x ∈ s.sent, x.seq = e.seq) ∨ e ∈ s.subscription.queued ∨ e ∈ s.inHand := by
  rcases h.owed hlive e he with h' | h' | h' | h'
  · left
    have hle := (settled_piping hp e).mp h'
    have hin : e.seq ∈ s.sent.map PiCloudEvent.seq := by
      rw [h.consecutive, List.mem_range'_1]
      have := h.counted
      omega
    exact List.mem_map.mp hin
  · exact .inr (.inl h')
  · exact .inr (.inr h')
  · rw [hd] at h'
    cases h'

end LiveStream

theorem reach_kept {envelope bytes : PiCloudEvent → Nat} {maximumPendingBytes : Nat}
    {as : List StreamAction} {s : LiveStream}
    (h : Reach (liveStream envelope bytes maximumPendingBytes) as s) : s.Kept := by
  refine Reach.invariant LiveStream.Kept ?_ ?_ h
  · intro s hs
    cases hs
    exact LiveStream.kept_initial
  · intro s a t hs hstep
    cases hstep
    exact hs.act envelope bytes maximumPendingBytes a

/-- The events sent follow the high-water mark without a gap, each once; and unless the stream ends,
every accepted event above the mark is sent or on its way, and sent once the loop is left alone. -/
theorem gap_free (envelope bytes : PiCloudEvent → Nat) (maximumPendingBytes : Nat)
    {as : List StreamAction} {s : LiveStream}
    (h : Reach (liveStream envelope bytes maximumPendingBytes) as s) (hp : s.piping = true) :
    s.sent.map PiCloudEvent.seq = List.range' (s.highWaterMark + 1) s.sent.length ∧
      (∀ e ∈ s.sent, e ∈ s.published) ∧
      (s.stage ≠ .ended → s.subscription.doomed = false →
        ∀ e ∈ s.accepted, s.highWaterMark < e.seq →
          (∃ x ∈ s.sent, x.seq = e.seq) ∨ e ∈ s.subscription.queued ∨ e ∈ s.inHand) ∧
      ∃ n, (s.drain n).stage = .ended ∨
        ∀ e ∈ s.accepted, s.highWaterMark < e.seq → ∃ x ∈ (s.drain n).sent, x.seq = e.seq := by
  have hk := reach_kept h
  refine ⟨hk.consecutive, fun e he => hk.origin e (.inl he),
    fun hlive hd e he habove => hk.reaches hp hlive hd he habove, ?_⟩
  obtain ⟨n, ht, hmark, hacc, hwait | hend⟩ := hk.drain hp
  · refine ⟨n, .inr (fun e he habove => ?_)⟩
    have hlive : (s.drain n).stage ≠ .ended := by rw [hwait]; nofun
    have hsound := ht.sound hlive
    have hw : (s.drain n).waiting = true := by unfold LiveStream.waiting; rw [hwait]
    obtain ⟨hnone, hd⟩ := hsound.idle hw
    have hp' : (s.drain n).piping = true := by unfold LiveStream.piping; rw [hwait]
    rcases ht.reaches hp' hlive hd (hacc ▸ he) (hmark ▸ habove) with h' | h' | h'
    · exact h'
    · simp [Subscription.queued, hnone] at h'
    · unfold LiveStream.inHand at h'
      rw [hwait] at h'
      cases h'
  · exact ⟨n, .inl hend⟩

/-- One event is in the tail when the stream opens, and the next is accepted while the canonical
view is being read. -/
theorem gap_free_while_loading :
    ∃ as s, Reach (liveStream (fun _ => 0) (fun _ => 1) sessionEventPendingBytes) as s ∧
      s.piping = true ∧ s.highWaterMark = 1 ∧ s.accepted.map PiCloudEvent.seq = [2, 1] ∧
      s.sent.map PiCloudEvent.seq = List.range' (s.highWaterMark + 1) s.sent.length ∧
      s.sent.length = 1 := by
  have h0 : Reach (liveStream (fun _ => 0) (fun _ => 1) sessionEventPendingBytes) [] {} := .init rfl
  have h1 := h0.next (a := .accept (messageDelta 1 (ascii "a"))) rfl
  have h2 := h1.next (a := .open) rfl
  have h3 := h2.next (a := .accept (messageDelta 2 (ascii "b"))) rfl
  have h4 := h3.next (a := .load 0) rfl
  have h5 := h4.next (a := .proceed true) rfl
  have h6 := h5.next (a := .proceed true) rfl
  have h7 := h6.next (a := .proceed true) rfl
  have h8 := h7.next (a := .proceed true) rfl
  exact ⟨_, _, h8, rfl, rfl, rfl, (gap_free _ _ _ h8 rfl).1, rfl⟩

end Runtime
end PiCloud
